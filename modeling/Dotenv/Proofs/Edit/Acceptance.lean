import Dotenv.Proofs.Edit.Description
import Dotenv.Proofs.Reading.Alone
/-!
# Edits that are accepted

An edit pastes its key, its name and its value into a description, and checks the shape of what is
read from it. The check does not see where the description comes apart: a key that ends early, a
name that goes on as a setting, a value that goes on below its line. Where each part keeps to its
place, exactly the edits are accepted that describe what they should.
-/

set_option autoImplicit false

namespace Dotenv

/-! ## The first line of a description -/

namespace Text

theorem lines_first (text : Text) (filled : text ≠ []) :
    ∃ more, lines text = text.takeWhile (· ≠ '\n') :: more := by
  induction text with
  | nil => exact absurd rfl filled
  | cons c rest ih =>
    by_cases newline : c = '\n'
    · exact ⟨lines rest, by simp [lines, newline]⟩
    · cases rest with
      | nil => exact ⟨[], by simp [lines, newline]⟩
      | cons d others =>
        obtain ⟨more, first⟩ := ih (List.cons_ne_nil d others)
        have goesOn : (c :: d :: others).takeWhile (· ≠ '\n') =
            c :: (d :: others).takeWhile (· ≠ '\n') :=
          List.takeWhile_cons_of_pos (by simpa using newline)
        exact ⟨more, by rw [lines, if_neg newline, first, goesOn]⟩

theorem lines_unixLines_append (front rest : Text) (filled : front ≠ []) (isLine : '\n' ∉ front)
    (plain : '\r' ∉ front) :
    ∃ more, lines (unixLines (front ++ rest)) =
      (front ++ (unixLines rest).takeWhile (· ≠ '\n')) :: more := by
  have inLine : ∀ c ∈ front, (decide (c ≠ '\n')) = true := by
    intro c member
    rw [decide_eq_true_eq]
    rintro rfl
    exact isLine member
  rw [unixLines_append front rest plain, ← List.takeWhile_append_of_pos inLine]
  exact lines_first _ (by simp [filled])

theorem closed_injective {lines others : List Text} (areLines : AreLines lines)
    (otherLines : AreLines others) (same : closed lines = closed others) : lines = others := by
  rw [← lines_of_closed _ lines areLines (Or.inl rfl), same,
    lines_of_closed _ others otherLines (Or.inl rfl)]

end Text

/-! ## Values -/

def ReadsItem (key text : Text) : Prop :=
  ∃ document item, Document.read .standard text = .ok document ∧ document.nodes = [.item item] ∧
    item.key = key ∧ item.comments = []

namespace Edit

theorem itemText_reads (key value : Text) (isKey : Scan.IsKey key) (verbatim : Document)
    (isRead : Document.readVerbatim (itemText key value) = .ok verbatim) :
    ∃ item back, verbatim.nodes = .item item :: back ∧ item.key = key ∧ item.above = [] := by
  have plain : '\n' ∉ key ++ ['='] ∧ '\r' ∉ key ++ ['='] := by
    constructor <;>
    · intro member
      rcases List.mem_append.mp member with inKey | isEquals
      · cases isKey.mem _ inKey
      · cases List.mem_singleton.mp isEquals
  obtain ⟨more, isLines⟩ :=
    Text.lines_unixLines_append (key ++ ['=']) value (by simp) plain.1 plain.2
  have isText : key ++ ['='] ++ value = itemText key value := by simp [itemText]
  rw [isText] at isLines
  have headKey := Scan.head_front _ _ _ (isKey.head [] rfl)
    ((Text.unixLines value).takeWhile (· ≠ '\n'))
  simp only [Scan.Head.render, Option.getD_none, List.append_nil, List.nil_append] at headKey
  obtain ⟨body, last, portions, isBody⟩ := Document.portions_of_read _ verbatim isRead
  rw [isLines] at portions
  obtain ⟨item, own, lower, back, -, noAbove, ⟨head, first, after, headIs, -, -, isItem⟩, rfl, -⟩ :=
    portions.item_first (LineClass.of_head _ _ _ headKey)
  rw [headKey] at headIs
  cases headIs
  refine ⟨item, back ++ looseBlock last, isBody, ?_, noAbove⟩
  rw [isItem]
  rfl

theorem readValue_accepts (key value : Text) :
    (∃ term, readValue key value = .ok term) ∧ Scan.IsKey key ↔
      ReadsItem key (itemText key value) := by
  constructor
  · rintro ⟨⟨term, success⟩, isKey⟩
    obtain ⟨document, definition, isRead, only, noComment, -⟩ :=
      (readValue_eq_ok key value term).mp success
    obtain ⟨verbatim, isVerbatim, rfl⟩ := (Document.read_standard_eq_ok _ _).mp isRead
    obtain ⟨item, back, isNodes, sameKey, noAbove⟩ :=
      itemText_reads key value isKey verbatim isVerbatim
    rw [Document.expand, isNodes] at only
    obtain ⟨isItem, -⟩ := List.cons.inj only
    cases isItem
    refine ⟨_, item.expand true, isRead, ?_, sameKey, ?_⟩
    · rw [Document.expand, isNodes]
      exact only
    · rw [Item.comments, noComment, Option.map_none, Option.toList_none, List.append_nil,
        Item.expand, noAbove, List.map_nil]
  · rintro ⟨document, definition, isRead, only, rfl, noComments⟩
    have noTrailing : definition.trailing = none := by
      have behind := (List.append_eq_nil_iff.mp noComments).2
      rwa [Option.toList_eq_nil_iff, Option.map_eq_none_iff] at behind
    have success := (readValue_eq_ok _ value definition.value).mpr
      ⟨document, definition, isRead, only, noTrailing, rfl⟩
    refine ⟨⟨_, success⟩, ?_⟩
    obtain ⟨verbatim, isVerbatim, rfl⟩ := (Document.read_standard_eq_ok _ _).mp isRead
    obtain ⟨item, line, own, rfl, ⟨head, first, after, headIs, -, -, isItem⟩, -⟩ :=
      Document.readFrom_of_only true _ verbatim definition isVerbatim only
    have sameKey : (item.expand true).key = head.key := by
      rw [isItem]
      rfl
    exact sameKey ▸ Scan.head_isKey line head first headIs

end Edit

/-! ## Decorators -/

def Text.OneLine (text : Text) : Prop := ∃ line, lines (unixLines text) = [line]

def ReadsDecorator (name text : Text) : Prop :=
  ∃ document line decorator, Document.read .standard text = .ok document ∧
    document.nodes = [.block [.decorated line] none] ∧ line.decorators = [decorator] ∧
    line.trailing = none ∧ decorator.name = name

theorem Scan.name_of_comment (name behind : Text) (isName : IsName name)
    (stops : ∀ c, behind.head? = some c → isNameChar c = false) (row : DecoratorLine)
    (read : readComment ('#' :: ' ' :: '@' :: (name ++ behind)) = .ok (.inr (.decorated row))) :
    ∃ first rest, row.decorators = first :: rest ∧ first.name = name := by
  have starts : startsName (name ++ behind) = true := by
    rw [startsName_append name behind isName.ne_nil]
    exact isName.parts.1
  have noDivider := isDivider_decorated [' '] (name ++ behind) rfl starts
  have isComment := readComment_gap [] ([' '] ++ '@' :: (name ++ behind)) rfl noDivider
  simp only [List.nil_append, List.singleton_append] at isComment
  rw [isComment] at read
  obtain ⟨found, isLine, isRow⟩ := (map_eq_ok _ _ _).mp read
  cases isRow
  obtain ⟨list, trailing, tail, decorates, same⟩ :=
    (comment_eq_decorated ['#'] [' '] (name ++ behind) rfl _).mp isLine
  cases same
  obtain ⟨first, after, rest, rfl, isFirst, -, -⟩ := decorates.head
  obtain ⟨-, afterName, named, -⟩ := (decorator_eq_ok _ _ _ _).mp isFirst
  rw [isName.again behind stops] at named
  exact ⟨first, rest, rfl, (Prod.mk.inj (Option.some.inj named)).1.symm⟩

theorem Document.block_of_line (source : Text) (document : Document)
    (isRead : readVerbatim source = .ok document) (line : Text)
    (isLine : Text.lines (Text.unixLines source) = [line])
    (isComment : LineClass.of line = .comment) (comments : List CommentLine)
    (closing : Option Text) (rest : List Node)
    (isNodes : document.nodes = .block comments closing :: rest) :
    ∃ comment, comments = [comment] ∧ closing = none ∧ rest = [] ∧
      readComment line = .ok (.inr comment) := by
  obtain ⟨body, last, portions, isBody⟩ := portions_of_read source document isRead
  rw [isLine] at portions
  rw [isNodes] at isBody
  rcases portions.comment_first isComment with
    ⟨divider, back, -, rfl, -⟩ | ⟨comment, read, portions⟩
  · cases isBody
  · obtain ⟨rfl, rfl⟩ := portions.of_nil
    cases isBody
    exact ⟨comment, rfl, rfl, rfl, read⟩

theorem Document.line_of_block (source : Text) (document : Document)
    (isRead : readVerbatim source = .ok document) (comment : CommentLine)
    (only : document.nodes = [.block [comment] none]) :
    Text.lines (Text.unixLines source) = [comment.render] := by
  have isLine := block_areLines source document isRead [comment] none (only ▸ List.mem_cons_self)
    comment List.mem_cons_self
  obtain ⟨body, last, portions, isBody⟩ := portions_of_read source document isRead
  have written := portions.written
  rw [← closed_looseBlock, ← Text.closed_append, ← List.map_append, ← isBody, only] at written
  refine (Text.closed_injective ?_ (Text.areLines_lines _) written).symm
  rw [Text.AreLines, List.map_singleton, List.forall_mem_singleton]
  exact isLine.2

namespace Edit

theorem decoratorText_eq (name : Text) (value : Option Text) :
    ∃ behind, decoratorText name value = '#' :: ' ' :: '@' :: (name ++ behind) ∧
      ∀ c, (Text.unixLines behind).head? = some c → Scan.isNameChar c = false := by
  unfold decoratorText
  split
  · exact ⟨[], by simp, fun c none => nomatch none⟩
  · split
    · exact ⟨_, rfl, fun c first => by
        rw [Text.unixLines_cons '(' _ (by decide)] at first
        cases first
        rfl⟩
    · exact ⟨'=' :: _, rfl, fun c first => by
        rw [Text.unixLines_cons '=' _ (by decide)] at first
        cases first
        rfl⟩

theorem decoratorText_line (name : Text) (value : Option Text) (isName : Scan.IsName name)
    (line : Text) (more : List Text)
    (isLines : Text.lines (Text.unixLines (decoratorText name value)) = line :: more) :
    ∃ behind, line = '#' :: ' ' :: '@' :: (name ++ behind) ∧
      ∀ c, behind.head? = some c → Scan.isNameChar c = false := by
  obtain ⟨behind, isText, stops⟩ := decoratorText_eq name value
  have plain : '\n' ∉ '#' :: ' ' :: '@' :: name ∧ '\r' ∉ '#' :: ' ' :: '@' :: name := by
    constructor <;>
    · intro member
      simp only [List.mem_cons, Char.reduceEq, false_or] at member
      cases isName.parts.2 _ member
  obtain ⟨others, isFirst⟩ := Text.lines_unixLines_append _ behind (List.cons_ne_nil _ _)
    plain.1 plain.2
  rw [isText] at isLines
  obtain ⟨rfl, -⟩ := List.cons.inj (isLines.symm.trans isFirst)
  refine ⟨(Text.unixLines behind).takeWhile (· ≠ '\n'), rfl, fun c first => ?_⟩
  rw [List.head?_takeWhile, Option.filter_eq_some_iff] at first
  exact stops c first.1

theorem reads_of_readDecorator (name : Text) (value : Option Text) (decorator : Decorator)
    (success : readDecorator name value = .ok decorator) (isName : Scan.IsName name)
    (oneLine : (decoratorText name value).OneLine) :
    ReadsDecorator name (decoratorText name value) := by
  obtain ⟨line, isLine⟩ := oneLine
  obtain ⟨document, isRead, only⟩ := (readDecorator_eq_ok name value decorator).mp success
  obtain ⟨verbatim, isVerbatim, rfl⟩ := (Document.read_standard_eq_ok _ _).mp isRead
  rw [Document.expand, onlyDecorator?_expand, Option.map_eq_some_iff] at only
  obtain ⟨found, only, rfl⟩ := only
  obtain ⟨row, others, closing, rest, isNodes, alone, noTrailing⟩ :=
    onlyDecorator?_eq_some verbatim.nodes found only
  obtain ⟨behind, rfl, stops⟩ := decoratorText_line name value isName line [] isLine
  -- One line leaves no place for anything below the decorator.
  obtain ⟨comment, isOnly, rfl, rfl, read⟩ := Document.block_of_line _ verbatim isVerbatim _
    isLine (LineClass.of_comment [] _ rfl) _ closing rest isNodes
  obtain ⟨rfl, rfl⟩ := List.cons.inj isOnly
  obtain ⟨first, more, isRow, isFirstName⟩ := Scan.name_of_comment name behind isName stops row read
  obtain ⟨rfl, -⟩ := List.cons.inj (alone.symm.trans isRow)
  refine ⟨_, row.expand true, found.expand true, isRead, ?_, ?_, noTrailing, isFirstName⟩
  · rw [Document.expand, isNodes]
    rfl
  · rw [DecoratorLine.expand, alone]
    rfl

theorem readDecorator_accepts (name : Text) (value : Option Text) :
    (∃ decorator, readDecorator name value = .ok decorator) ∧ Scan.IsName name ∧
        (decoratorText name value).OneLine ↔
      ReadsDecorator name (decoratorText name value) := by
  constructor
  · rintro ⟨⟨decorator, success⟩, isName, oneLine⟩
    exact reads_of_readDecorator name value decorator success isName oneLine
  · rintro ⟨document, line, decorator, isRead, only, alone, noTrailing, rfl⟩
    have success : readDecorator decorator.name value = .ok decorator := by
      refine (readDecorator_eq_ok _ value decorator).mpr ⟨document, isRead, ?_⟩
      rw [only]
      simp only [onlyDecorator?, alone, noTrailing]
    obtain ⟨found, same, formed, -⟩ := formed_of_readDecorator _ value decorator success
    obtain ⟨verbatim, isVerbatim, rfl⟩ := (Document.read_standard_eq_ok _ _).mp isRead
    obtain ⟨node, isNode, expanded⟩ := List.map_eq_singleton_iff.mp only
    cases node with
    | block comments closing =>
      cases closing with
      | some divider => simp [Node.expand] at expanded
      | none =>
        simp only [Node.expand, Node.block.injEq, and_true] at expanded
        obtain ⟨comment, rfl, -⟩ := List.map_eq_singleton_iff.mp expanded
        refine ⟨⟨decorator, success⟩, by rw [same]; exact formed.1, comment.render, ?_⟩
        exact Document.line_of_block _ verbatim isVerbatim comment isNode
    | _ => cases expanded

/-! ## Edits -/

def description : Edit → Option Text
  | header _ => none
  | rootDecorator name value | itemDecorator _ name value => some (decoratorText name value)
  | itemValue key value => some (itemText key value)

def Describes : Edit → Prop
  | header _ => True
  | rootDecorator name value => ReadsDecorator name (decoratorText name value)
  | itemDecorator key name value =>
    Scan.IsKey key ∧ ReadsDecorator name (decoratorText name value)
  | itemValue key value => ReadsItem key (itemText key value)

def KeepsPlace : Edit → Prop
  | header _ => True
  | rootDecorator name value => Scan.IsName name ∧ (decoratorText name value).OneLine
  | itemDecorator key name value =>
    Scan.IsKey key ∧ Scan.IsName name ∧ (decoratorText name value).OneLine
  | itemValue key _ => Scan.IsKey key

def Blames (edit : Edit) : EditError → Prop
  | .unreadable text fault => edit.description = some text ∧
      Document.read .standard text = .error fault
  | .notADecorator text => edit.description = some text ∧ ∃ document,
      Document.read .standard text = .ok document ∧ onlyDecorator? document.nodes = none
  | .notAnItem text => edit.description = some text ∧ ∃ document,
      Document.read .standard text = .ok document ∧
        ∀ item, document.nodes = [.item item] → item.trailing ≠ none

theorem readDecorator_eq_error (name : Text) (value : Option Text) (error : EditError)
    (refused : readDecorator name value = .error error) (edit : Edit)
    (described : edit.description = some (decoratorText name value)) : edit.Blames error := by
  simp only [readDecorator] at refused
  split at refused
  · rename_i unread
    cases refused
    obtain ⟨fault, isRead, rfl⟩ := (describe_eq_error _ error).mp unread
    exact ⟨described, isRead⟩
  · rename_i document isRead
    split at refused
    · cases refused
    · rename_i none
      cases refused
      exact ⟨described, document, (describe_eq_ok _ document).mp isRead, none⟩

theorem readValue_eq_error (key value : Text) (error : EditError)
    (refused : readValue key value = .error error) :
    (itemValue key value).Blames error := by
  simp only [readValue] at refused
  split at refused
  · rename_i unread
    cases refused
    obtain ⟨fault, isRead, rfl⟩ := (describe_eq_error _ error).mp unread
    exact ⟨rfl, isRead⟩
  · rename_i document described
    have isRead := (describe_eq_ok _ document).mp described
    split at refused
    · rename_i definition only
      split at refused
      · cases refused
      · rename_i commented
        cases refused
        refine ⟨rfl, document, isRead, fun item isItem none => commented ?_⟩
        cases only.symm.trans isItem
        rw [none]
        rfl
    · rename_i notItem
      cases refused
      exact ⟨rfl, document, isRead, fun item isItem => (notItem item isItem).elim⟩

theorem map_isOk {ε α β : Type} (check : Except ε α) (change : α → β) :
    (∃ result, check.map change = .ok result) ↔ ∃ found, check = .ok found := by
  simp only [map_eq_ok, exists_comm, exists_and_left, exists_eq', and_true]

/-- Among the edits whose parts keep to their places exactly those are accepted that describe what
they should; what is refused is refused for its description, on every document. -/
theorem acceptance (edit : Edit) (document : Document) :
    ((∃ edited, edit.apply document = .ok edited) ∧ edit.KeepsPlace ↔ edit.Describes) ∧
      ∀ error, edit.apply document = .error error →
        edit.Blames error ∧ ∀ other, edit.apply other = .error error := by
  cases edit with
  | header lines =>
    exact ⟨by simp [apply, KeepsPlace, Describes], fun error refused => nomatch refused⟩
  | rootDecorator name value =>
    refine ⟨?_, fun error refused => ?_⟩
    · rw [apply, map_isOk]
      exact readDecorator_accepts name value
    · rw [apply, map_eq_error] at refused
      exact ⟨readDecorator_eq_error name value error refused _ rfl,
        fun other => (map_eq_error _ _ error).mpr refused⟩
  | itemDecorator key name value =>
    refine ⟨?_, fun error refused => ?_⟩
    · rw [apply, map_isOk, KeepsPlace, Describes, ← readDecorator_accepts]
      tauto
    · rw [apply, map_eq_error] at refused
      exact ⟨readDecorator_eq_error name value error refused _ rfl,
        fun other => (map_eq_error _ _ error).mpr refused⟩
  | itemValue key value =>
    refine ⟨?_, fun error refused => ?_⟩
    · rw [apply, map_isOk]
      exact readValue_accepts key value
    · rw [apply, map_eq_error] at refused
      exact ⟨readValue_eq_error key value error refused,
        fun other => (map_eq_error _ _ error).mpr refused⟩

/-- A value is accepted for a key that goes on as a value, although its description reads as an item
of another key. -/
theorem acceptance_early_key :
    (itemValue ['A'] ['1']).Describes ∧
      (itemValue ['A', '=', 'B'] ['1']).apply .empty =
        .ok ⟨[.item (.new ['A', '=', 'B'] (some (.literal (.bare ['B', '=', '1']))))], true⟩ ∧
      ¬ (itemValue ['A', '=', 'B'] ['1']).Describes := by
  have isRead : (itemValue ['A'] ['1']).apply .empty =
      .ok ⟨[.item (.new ['A'] (some (.literal (.bare ['1']))))], true⟩ := by
    decide +kernel
  refine ⟨(acceptance _ .empty).1.mp ⟨⟨_, isRead⟩, rfl, rfl⟩, by decide +kernel, ?_⟩
  intro describes
  have keyed : Scan.IsKey ['A', '=', 'B'] := ((acceptance _ .empty).1.mpr describes).2
  exact absurd keyed.2 (by decide)

end Edit

end Dotenv
