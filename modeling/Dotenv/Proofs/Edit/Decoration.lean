import Dotenv.Proofs.Edit.Comment
import Dotenv.Proofs.Edit.Decorator
import Dotenv.Proofs.Edit.Description
import Dotenv.Proofs.Edit.Header
/-!
# Decorators that survive

A document with a decorator set, printed and read again. It says the same unless the new setting
meets text that was behind another one: a decorator then ends too late or not at all, or the value
of an item takes the comment behind it in.
-/

set_option autoImplicit false

namespace Dotenv

/-! ## Lines with expanded values -/

section
variable (bare : Bool)

theorem Setting.endsBefore_expand (after : Text) (setting : Setting) :
    (setting.expand bare).EndsBefore after ↔ setting.EndsBefore after := by
  cases setting with
  | assigned value => simp only [expand, EndsBefore, Term.render_expand]
  | flag => rfl
  | call args source => rfl

theorem Decorator.allEnd_expand (last : Text) (list : List Decorator) :
    AllEnd last (list.map (expand bare)) ↔ AllEnd last list := by
  induction list with
  | nil => rfl
  | cons first rest ih =>
    have sameText : (rest.map (expand bare)).flatMap render = rest.flatMap render := by
      rw [List.flatMap_map]
      exact List.flatMap_congr fun decorator _ => render_expand bare decorator
    simp only [List.map_cons, AllEnd, ih, sameText, expand, Setting.endsBefore_expand]

theorem CommentLine.holds_expand (line : CommentLine) : (line.expand bare).Holds ↔ line.Holds := by
  cases line with
  | plain comment => rfl
  | decorated row => exact Decorator.allEnd_expand bare row.last row.decorators

theorem CommentLine.forall_holds_expand (lines : List CommentLine) :
    (∀ line ∈ lines.map (expand bare), line.Holds) ↔ ∀ line ∈ lines, line.Holds := by
  simp only [List.forall_mem_map, holds_expand]

end

/-! ## The header -/

namespace Edit

theorem new_header_survives (name : Text) {decorator : Decorator} (formed : decorator.Formed)
    (oneLine : '\n' ∉ decorator.render) {lower : List Text} {back : List Node}
    {last : List CommentLine} {newline : Bool} (portions : Portions [] lower back last)
    (areLines : Text.AreLines lower) (ended : newline = false → lower.getLast? ≠ some [])
    (edited : Document) (isEdited : edited = .expand true
      ⟨.block (CommentLine.setDecorator name decorator []) (some plainDivider) ::
        (back ++ looseBlock last), newline⟩)
    (unix : Text.unixLines edited.render = edited.render) :
    edited.Survives ↔ ∀ line ∈ edited.headerComments, line.Holds := by
  subst isEdited
  have noBlanks : ∀ node ∈ ([] : List Node), node.isBlank = true := by simp
  have comments := Document.headerComments_expand true noBlanks
    (CommentLine.setDecorator name decorator []) plainDivider (back ++ looseBlock last) newline
  rw [List.nil_append] at comments
  rw [comments, CommentLine.forall_holds_expand]
  exact Portions.done.header_survives portions noBlanks
    (CommentLine.setDecorator_ne_nil name decorator [])
    (CommentLine.setDecorator_areLines name formed oneLine (by simp)) (by decide) (by decide)
    (by simp [Text.AreLines]) ((Text.areLines_cons _ _).mpr ⟨by decide, areLines⟩) newline ended
    unix

theorem header_decorated_survives (source name : Text) (verbatim : Document)
    (isRead : Document.readVerbatim source = .ok verbatim) (decorator : Decorator)
    (formed : decorator.Formed) (oneLine : '\n' ∉ decorator.render) (edited : Document)
    (isEdited : edited = .expand true
      ((verbatim.ensureHeader []).updateHeader (CommentLine.setDecorator name decorator)))
    (unix : Text.unixLines edited.render = edited.render) :
    edited.Survives ↔ ∀ line ∈ edited.headerComments, line.Holds := by
  obtain ⟨-, trailing⟩ := (Document.readVerbatim_eq_ok source verbatim).mp isRead
  obtain ⟨body, last, portions, isBody⟩ := Document.portions_of_read source verbatim isRead
  have areLines := Text.areLines_lines (Text.unixLines source)
  rcases Document.headed (CommentLine.setDecorator name decorator) verbatim with
    ⟨blanks, node, back, comments, closing, areBlank, isNodes, isClosed, headed⟩ | headed
  · obtain ⟨between, isBody', rfl⟩ := split_looseBlock body blanks back last node
      (Node.settled_of_closed? node isClosed) (isBody.symm.trans isNodes)
    obtain ⟨upper, lower, isLines, upperPortions, isComment, isDivider, lowerPortions⟩ :=
      portions.split_closed blanks node comments closing isClosed between isBody'
    obtain ⟨upper, rfl, upperPortions, areFormed⟩ := upperPortions.above
    rw [isLines, Text.areLines_append, Text.areLines_append] at areLines
    obtain ⟨⟨upperLines, commentLines⟩, closedLines⟩ := areLines
    have isLine : ∀ line ∈ comments, line.IsLine := fun line member =>
      ⟨(areFormed line member).1, commentLines _ (List.mem_map_of_mem member)⟩
    have ended : verbatim.trailingNewline = false → lower.getLast? ≠ some [] := fun isOpen =>
      Text.ended_below source (upper ++ comments.map CommentLine.render ++ [closing]) lower
        (by rw [isLines, List.append_assoc _ [closing]]; rfl) (trailing ▸ isOpen)
    rw [headed] at isEdited
    rw [isEdited, Document.headerComments_expand true areBlank, CommentLine.forall_holds_expand]
    rw [isEdited] at unix
    exact upperPortions.header_survives lowerPortions areBlank
      (CommentLine.setDecorator_ne_nil name decorator comments)
      (CommentLine.setDecorator_areLines name formed oneLine isLine) isComment isDivider
      upperLines closedLines _ ended unix
  · by_cases none : verbatim.nodes = []
    · rw [headed, if_pos none] at isEdited
      exact new_header_survives name formed oneLine .done (by simp [Text.AreLines]) (by simp)
        edited isEdited unix
    · rw [headed, if_neg none, isBody] at isEdited
      have blank : Portions [] ([] :: Text.lines (Text.unixLines source)) (.blank [] :: body)
          last := .more (.blank rfl) portions
      have blankLines := (Text.areLines_cons [] _).mpr ⟨by simp, areLines⟩
      refine new_header_survives name formed oneLine blank blankLines (fun isOpen => ?_)
        edited isEdited unix
      have filled : Text.lines (Text.unixLines source) ≠ [] := by
        intro empty
        have noPortions := portions
        rw [empty] at noPortions
        obtain ⟨rfl, rfl⟩ := noPortions.of_nil
        exact none isBody
      rw [← List.singleton_append, List.getLast?_append_of_ne_nil _ filled]
      exact Text.ended_below source [] _ rfl (trailing ▸ isOpen)

end Edit

/-! ## Items -/

theorem Item.setDecorator_cases (name : Text) (decorator : Decorator) (item : Item) :
    (∃ trailing changed, item.trailing = some trailing ∧
        trailing.comment.replaceSetting name decorator.setting = some changed ∧
        item.setDecorator name decorator =
          { item with trailing := some { trailing with comment := changed } }) ∨
      (∀ trailing, item.trailing = some trailing →
          trailing.comment.replaceSetting name decorator.setting = none) ∧
        item.setDecorator name decorator =
          { item with above := CommentLine.setDecorator name decorator item.above } := by
  unfold setDecorator
  cases isTrailing : item.trailing with
  | none => exact Or.inr ⟨fun trailing same => (nomatch same), rfl⟩
  | some trailing =>
    cases replaced : trailing.comment.replaceSetting name decorator.setting with
    | none =>
      refine Or.inr ⟨fun other same => ?_, by simp [replaced]⟩
      cases same
      exact replaced
    | some changed => exact Or.inl ⟨trailing, changed, rfl, replaced, by simp [replaced]⟩

theorem Item.key_setDecorator (name : Text) (decorator : Decorator) (item : Item) :
    (item.setDecorator name decorator).key = item.key := by
  rcases item.setDecorator_cases name decorator with ⟨_, _, -, -, same⟩ | ⟨-, same⟩ <;> rw [same]

theorem Item.setDecorator_expand (bare : Bool) (name : Text) (decorator : Decorator) (item : Item) :
    (item.expand bare).setDecorator name (decorator.expand bare) =
      (item.setDecorator name decorator).expand bare := by
  have above := CommentLine.setDecorator_expand bare name decorator item.above
  have behind := fun line => CommentLine.replaceSetting_expand bare name decorator.setting line
  unfold setDecorator
  cases isTrailing : item.trailing with
  | none => simp only [expand, isTrailing, above, Option.map_none, Option.bind_none]
  | some trailing =>
    have isSetting : (decorator.expand bare).setting = decorator.setting.expand bare := rfl
    simp only [expand, isTrailing, Option.map_some, Option.bind_some, isSetting, behind]
    cases trailing.comment.replaceSetting name decorator.setting with
    | none => simp only [Option.map_none, above, Option.map_some]
    | some changed => rfl

namespace Edit

theorem item_decorated_survives (source key name : Text) (verbatim : Document)
    (isRead : Document.readVerbatim source = .ok verbatim) (decorator : Decorator)
    (formed : decorator.Formed) (oneLine : '\n' ∉ decorator.render) (nodes : List Node)
    (updated : Node.updateLast key (Item.setDecorator name decorator) verbatim.nodes = some nodes)
    (edited : Document) (isEdited : edited = .expand true ⟨nodes, verbatim.trailingNewline⟩)
    (unix : Text.unixLines edited.render = edited.render) :
    edited.Survives ↔ ∀ item, edited.item? key = some item →
      (∀ line ∈ item.comments, line.Holds) ∧ ¬ item.Overruns := by
  subst isEdited
  obtain ⟨item, front, between, last, upper, line, own, lower, around, rfl⟩ :=
    Document.around_updated source key _ verbatim isRead nodes updated
  obtain ⟨upper, rfl, upperPortions, aboveFormed⟩ := around.above.above
  have upperLines := around.upperLines
  rw [Text.areLines_append] at upperLines
  obtain ⟨upperLines, aboveLines⟩ := upperLines
  have aboveLine : ∀ line ∈ item.above, line.IsLine := fun line member =>
    ⟨(aboveFormed line member).1, aboveLines _ (List.mem_map_of_mem member)⟩
  have settingLine : '\n' ∉ decorator.setting.render := fun newline =>
    oneLine (List.mem_append_right _ newline)
  rw [around.item? (item.key_setDecorator name decorator)]
  simp only [Option.some.injEq, forall_eq', Item.overruns_expand, Item.comments_expand,
    CommentLine.forall_holds_expand]
  rcases item.setDecorator_cases name decorator with
    ⟨trailing, changed, isTrailing, replaced, same⟩ | ⟨-, same⟩
  · -- Set behind the value: the item is written on other lines of its own.
    obtain ⟨-, commentLine, isFormed⟩ := around.read.trailing around.ownLines trailing isTrailing
    obtain ⟨row, start, first, rest, isRow, isList, rfl⟩ :=
      CommentLine.replaceSetting_eq_some name decorator.setting _ changed replaced
    have changedLine := CommentLine.replaceSetting_oneLine replaced settingLine commentLine
    obtain ⟨newLine, newOwn, written, reread, lost⟩ := around.read.withComment around.ownLines
      isTrailing ((isFormed row isRow).set isList formed.2) changedLine
    rw [same] at unix ⊢
    refine (upperPortions.item_survives around.below written
      (fun line member => (aboveLine line member).1) ?_ _ around.ended unix _ reread lost).trans ?_
    · exact upperLines.append ((aboveLines.append written.areLines).append around.lowerLines)
    · simp only [Item.comments, Option.map_some, Option.toList_some, List.forall_mem_append,
        List.forall_mem_singleton, and_assoc]
  · -- Set above the item: its own lines stay, and what they were read as holds already.
    obtain ⟨written, reread⟩ := around.read.withAbove around.ownLines
      (CommentLine.setDecorator name decorator item.above)
    have setLines := CommentLine.setDecorator_areLines name formed oneLine aboveLine
    have fits : ¬ item.Overruns := around.read.fits around.ownLines
    have setText : Text.AreLines
        ((CommentLine.setDecorator name decorator item.above).map CommentLine.render) := by
      rw [Text.AreLines, List.forall_mem_map]
      exact fun line member => (setLines line member).2
    have behind : ∀ line ∈ (item.trailing.map TrailingComment.comment).toList, line.Holds := by
      intro line member
      obtain ⟨trailing, isTrailing, rfl⟩ := Option.map_eq_some_iff.mp (Option.mem_toList.mp member)
      exact (around.read.trailing around.ownLines trailing isTrailing).1
    rw [same] at unix ⊢
    refine (upperPortions.item_survives around.below written
      (fun line member => (setLines line member).1) ?_ _ around.ended unix True (fun _ => reread)
      (fun none => absurd trivial none)).trans ?_
    · exact upperLines.append ((setText.append written.areLines).append around.lowerLines)
    · simp only [Item.comments, List.forall_mem_append, and_true]
      exact ⟨fun above => ⟨⟨above, behind⟩, fits⟩, fun kept => kept.1.1⟩

def decoration (target : Option Text) (name : Text) (value : Option Text) : Edit :=
  match target with
  | some key => itemDecorator key name value
  | none => rootDecorator name value

/-- Whether a decorator fits where an edit puts it: on the lines of its target every decorator ends
where the next one begins, and the value of an item takes in nothing behind it. -/
def DecorationFits (target : Option Text) (edited : Document) : Prop :=
  match target with
  | some key => ∀ item, edited.item? key = some item →
      (∀ line ∈ item.comments, line.Holds) ∧ ¬ item.Overruns
  | none => ∀ line ∈ edited.headerComments, line.Holds

/-- A document with a decorator set, in its header or on a key that it defines, is read back from
its text just when the decorator fits, if the text has no carriage return at the end of a line. -/
theorem decoration_survives (source name : Text) (target value : Option Text)
    (document edited : Document) (isRead : Document.read .standard source = .ok document)
    (defined : ∀ key, target = some key → (document.item? key).isSome = true)
    (success : (decoration target name value).apply document = .ok edited)
    (unix : Text.unixLines edited.render = edited.render) :
    edited.Survives ↔ DecorationFits target edited := by
  obtain ⟨verbatim, isVerbatim, rfl⟩ := (Document.read_standard_eq_ok source document).mp isRead
  cases readDecorator : Edit.readDecorator name value with
  | error fault => cases target <;> simp [decoration, apply, readDecorator, Except.map] at success
  | ok decorator =>
    obtain ⟨written, rfl, formed, oneLine⟩ :=
      formed_of_readDecorator name value decorator readDecorator
    cases target with
    | none =>
      simp only [decoration, apply, readDecorator, Except.map, Except.ok.injEq] at success
      rw [Document.headed_expand true (CommentLine.setDecorator name written) _
        (CommentLine.setDecorator_expand true name written)] at success
      exact header_decorated_survives source name verbatim isVerbatim written formed oneLine edited
        success.symm unix
    | some key =>
      simp only [decoration, apply, readDecorator, Except.map, Except.ok.injEq] at success
      have commutes := Node.updateLast_expand true key (Item.setDecorator name written) _
        (Item.setDecorator_expand true name written) verbatim.nodes
      cases updated : Node.updateLast key (Item.setDecorator name written) verbatim.nodes with
      | some nodes =>
        rw [updated] at commutes
        refine item_decorated_survives source key name verbatim isVerbatim written formed oneLine
          nodes updated edited ?_ unix
        rw [← success, Document.updateItem, Document.expand, commutes]
        rfl
      | none =>
        have undefined := Document.item?_none key verbatim.nodes verbatim.trailingNewline
          (Node.ne_key_of_updateLast key _ verbatim.nodes updated)
        have isDefined := defined key rfl
        rw [Document.item?_expand, undefined] at isDefined
        cases isDefined

/-- A call turned into a flag is read back in front of a gap; in front of a comment that the call
ended at, the flag does not end. -/
theorem decoration_survives_comment :
    let lines (setting : Setting) (gap : Text) (start : Nat) : Document :=
      ⟨[.item { Item.new ['A'] (some (.literal (.bare ['1']))) with
        above := [.decorated ⟨['#', ' '], [⟨[], ['a'], setting⟩], some ⟨gap ++ ['#'], ['c']⟩, []⟩]
        span := ⟨start, start + 3⟩ }], true⟩
    let call : Setting :=
      .call (.positional [.literal (.bare ['x'])]) (some ['(', 'x', ')'])
    Document.read .standard "# @a(x) #c\nA=1\n".toList = .ok (lines call [' '] 11) ∧
      (decoration (some ['A']) ['a'] none).apply (lines call [' '] 11) =
        .ok (lines .flag [' '] 11) ∧
      (lines .flag [' '] 11).Survives ∧
    Document.read .standard "# @a(x)#c\nA=1\n".toList = .ok (lines call [] 10) ∧
      (decoration (some ['A']) ['a'] none).apply (lines call [] 10) = .ok (lines .flag [] 10) ∧
      ¬ (lines .flag [] 10).Survives := by
  intro lines call
  have text : ∀ gap start, (lines .flag gap start).render =
      '#' :: ' ' :: '@' :: 'a' :: (gap ++ ['#', 'c', '\n', 'A', '=', '1', '\n']) := by
    intro gap start
    simp [lines, Document.render, Node.render, Item.render, Item.renderOwn, Item.new, Term.render,
      Literal.bare, CommentLine.render, DecoratorLine.render, Decorator.render, Setting.render,
      Comment.render, Text.join]
  have readApart : Document.read .standard "# @a(x) #c\nA=1\n".toList =
      .ok (lines call [' '] 11) := by
    decide +kernel
  have readGlued : Document.read .standard "# @a(x)#c\nA=1\n".toList = .ok (lines call [] 10) := by
    decide +kernel
  have editApart : (decoration (some ['A']) ['a'] none).apply (lines call [' '] 11) =
      .ok (lines .flag [' '] 11) := by
    decide +kernel
  have editGlued : (decoration (some ['A']) ['a'] none).apply (lines call [] 10) =
      .ok (lines .flag [] 10) := by
    decide +kernel
  have apart := decoration_survives _ ['a'] (some ['A']) none _ _ readApart
    (by rintro _ ⟨⟩; rfl) editApart (by rw [text]; decide)
  have glued := decoration_survives _ ['a'] (some ['A']) none _ _ readGlued
    (by rintro _ ⟨⟩; rfl) editGlued (by rw [text]; decide)
  refine ⟨readApart, editApart, apart.mpr ?_, readGlued, editGlued, fun survives => ?_⟩
  · intro item found
    cases found
    refine ⟨fun line member => ?_, Scan.not_swallows_end _⟩
    rw [List.mem_singleton.mp member]
    exact ⟨rfl, trivial⟩
  · have fits := (glued.mp survives _ rfl).1 _ List.mem_cons_self
    cases fits.1

end Edit

end Dotenv
