import Dotenv.Proofs.Edit.Description
import Dotenv.Proofs.Reading.Alone
/-!
# Edits that survive

A document with another value for a key, printed and read again. It says the same unless the
text around the new value gets a part in it: what stands behind the value is taken into the
value, or loose comment lines at the end of the document become those of an item put below them.
-/

set_option autoImplicit false

namespace Dotenv

/-! ## The end of a document -/

namespace Document

/-- The comment lines at the end of a document that belong to no item and no header. -/
def looseEnd (document : Document) : List CommentLine :=
  match document.nodes.getLast? with
  | some (.block comments none) => comments
  | _ => []

theorem looseEnd_expand (bare : Bool) {lines : List Text} {body : List Node}
    {last : List CommentLine} (portions : Portions [] lines body last) (trailingNewline : Bool) :
    (expand bare ⟨body ++ looseBlock last, trailingNewline⟩).looseEnd =
      last.map (CommentLine.expand bare) := by
  cases last with
  | nil =>
    have noBlock := portions.getLast?_ne
    simp only [looseEnd, expand, looseBlock, List.append_nil, List.getLast?_map]
    split
    · rename_i comments found
      obtain ⟨node, isLast, expanded⟩ := Option.map_eq_some_iff.mp found
      cases node with
      | block raw closing =>
        cases expanded
        exact absurd isLast (noBlock raw)
      | _ => cases expanded
    · rfl
  | cons first rest =>
    simp only [looseEnd, expand, looseBlock, List.map_append, List.map_cons, List.map_nil,
      Node.expand, List.getLast?_concat]

end Document

/-! ## A key that is defined -/

namespace Edit

theorem defined_survives (source key : Text) (verbatim : Document)
    (isRead : Document.readVerbatim source = .ok verbatim) {first after : Text} {more : List Text}
    {value : Option Term} (fresh : ReadsValue first more value after)
    (freshLines : Text.AreLines (first :: more)) (solid : Text.skipGap first = first)
    (gap : Text.skipGap after = []) (nodes : List Node)
    (updated : Node.updateLast key ({ · with value }) verbatim.nodes = some nodes)
    (edited : Document) (isEdited : edited = .expand true ⟨nodes, verbatim.trailingNewline⟩)
    (unix : Text.unixLines edited.render = edited.render) :
    edited.Survives ↔ ∀ item, edited.item? key = some item → ¬ item.Overruns := by
  subst isEdited
  obtain ⟨item, front, between, last, upper, line, own, lower, around, rfl⟩ :=
    Document.around_updated source key _ verbatim isRead nodes updated
  obtain ⟨newLine, newOwn, written, reread, lost⟩ :=
    around.read.withValue around.ownLines fresh freshLines solid gap
  let changed : Item := { item with value }
  have allLines : Text.AreLines (upper ++ (newLine :: newOwn ++ lower)) :=
    around.upperLines.append (written.areLines.append around.lowerLines)
  have survives : (Document.expand true
      ⟨front ++ ([.item changed] ++ (between ++ looseBlock last)),
        verbatim.trailingNewline⟩).Survives ↔ ¬ changed.Overruns :=
    Portions.survives around.above around.below (List.cons_ne_nil _ _) written.rendered allLines
      (List.cons_ne_nil _ _) written.ended _ around.ended unix _
      (fun fits => (reread fits).portions true front)
      (fun overruns others final portions =>
        (lost (not_not.mp overruns)).portions true front portions (looseBlock final))
  refine survives.trans ?_
  rw [around.item? (show changed.key = item.key from rfl)]
  simp only [Option.some.injEq, forall_eq', Item.overruns_expand, changed]

end Edit

/-! ## A key that is not defined -/

theorem Item.contents_new (key : Text) (value : Option Term) (run : List CommentLine) :
    ({ Item.new key value with above := run } : Item).contents = (Item.new key value).contents ↔
      ∀ line ∈ run, line.decorators = [] ∧ line.remark? = none := by
  have noDecorators : run.flatMap CommentLine.decorators = [] ↔
      ∀ line ∈ run, line.decorators = [] := List.flatMap_eq_nil_iff
  have noRemarks : run.filterMap CommentLine.remark? = [] ↔ ∀ line ∈ run, line.remark? = none :=
    List.filterMap_eq_nil_iff
  simp only [contents, decorators, description, comments, new, Option.map_none, Option.toList_none,
    List.append_nil, List.flatMap_nil, List.map_nil, List.filterMap_nil, Contents.mk.injEq,
    true_and, List.map_eq_nil_iff, noDecorators]
  constructor
  · rintro ⟨plain, mute⟩ line member
    refine ⟨plain line member, noRemarks.mp ?_ line member⟩
    cases remarks : run.filterMap CommentLine.remark? with
    | nil => rfl
    | cons first rest =>
      rw [remarks] at mute
      cases mute
  · intro silent
    refine ⟨fun line member => (silent line member).1, ?_⟩
    rw [noRemarks.mpr fun line member => (silent line member).2]

theorem Item.new_reread (key : Text) (starts : Scan.startsName key = true)
    (keyChars : key.all Scan.isKeyChar = true) (run : List CommentLine) {first after : Text}
    {more : List Text} {value : Option Term} (fresh : ReadsValue first more value after)
    (freshLines : Text.AreLines (first :: more)) (solid : Text.skipGap first = first)
    (gap : Text.skipGap after = []) :
    ∃ line own, ({ Item.new key value with above := run } : Item).WrittenAs line own ∧
      ({ Item.new key value with above := run } : Item).RereadFrom line own := by
  let bare : Item := { Item.new key none with above := run }
  have bareRead : bare.ReadFrom (key ++ ['=']) [] :=
    ⟨_, [], [], Scan.IsKey.head ⟨starts, keyChars⟩ [] rfl, .whole rfl, rfl, rfl⟩
  have keyLine : Text.AreLines [key ++ ['=']] := by
    intro line member newline
    rw [List.mem_singleton.mp member, List.mem_append] at newline
    rcases newline with inKey | isEquals
    · cases List.all_eq_true.mp keyChars '\n' inKey
    · cases List.mem_singleton.mp isEquals
  obtain ⟨line, own, written, reread, -⟩ := bareRead.withValue keyLine fresh freshLines solid gap
  exact ⟨line, own, written, reread (Scan.not_swallows_end _)⟩

section
variable (body : List Node) (run : List CommentLine) (key : Text) (value : Option Term)

theorem closed_new_item :
    Text.closed ((body ++ looseBlock run ++ [Node.item (.new key value)]).map Node.render) =
      Text.closed ((body ++ [Node.item { Item.new key value with above := run }]).map
        Node.render) := by
  have placedWritten := closed_item { Item.new key value with above := run }
  have newWritten := closed_item (.new key value)
  rw [List.map_append, List.map_append, List.map_append, Text.closed_append, Text.closed_append,
    Text.closed_append, placedWritten, newWritten, closed_looseBlock, List.append_assoc,
    ← Text.closed_append]
  rfl

theorem Document.contents_new_item (bare : Bool) :
    (expand bare ⟨body ++ [.item { Item.new key value with above := run }], false⟩).contents =
        (expand bare ⟨body ++ looseBlock run ++ [.item (.new key value)], false⟩).contents ↔
      ∀ line ∈ run.map (CommentLine.expand bare), line.decorators = [] ∧ line.remark? = none := by
  rw [contents_item, contents_item, contents_append_looseBlock bare body run,
    ← Item.contents_new key (value.map (Term.expand bare))]
  constructor
  · intro sameContents
    have sameItems := congrArg Contents.items sameContents
    exact (List.cons.inj (List.append_cancel_left sameItems)).1
  · intro sameItem
    have sameItem : (Item.expand bare { Item.new key value with above := run }).contents =
      ((Item.new key value).expand bare).contents := sameItem
    rw [sameItem]

end

namespace Edit

theorem undefined_survives (source key : Text) (starts : Scan.startsName key = true)
    (keyChars : key.all Scan.isKeyChar = true) (verbatim : Document)
    (isRead : Document.readVerbatim source = .ok verbatim) {first after : Text} {more : List Text}
    {value : Option Term} (fresh : ReadsValue first more value after)
    (freshLines : Text.AreLines (first :: more)) (solid : Text.skipGap first = first)
    (gap : Text.skipGap after = []) (edited : Document)
    (isEdited : edited = .expand true ⟨verbatim.nodes ++ [.item (.new key value)], true⟩)
    (unix : Text.unixLines edited.render = edited.render) :
    edited.Survives ↔
      ∀ line ∈ (verbatim.expand true).looseEnd, line.decorators = [] ∧ line.remark? = none := by
  subst isEdited
  obtain ⟨body, last, portions, isBody⟩ := Document.portions_of_read source verbatim isRead
  obtain ⟨nodes, trailingNewline⟩ := verbatim
  obtain rfl : nodes = body ++ looseBlock last := isBody
  have areLines := Text.areLines_lines (Text.unixLines source)
  generalize Text.lines (Text.unixLines source) = lines at portions areLines
  let placed : Item := { Item.new key value with above := last }
  obtain ⟨line, own, written, reread⟩ :=
    Item.new_reread key starts keyChars last fresh freshLines solid gap
  have upperPortions : Portions [] lines body placed.above := portions
  obtain ⟨nodes, itemPortions, sameNodes⟩ := reread.portions true body
  obtain ⟨others, readBack, same⟩ :=
    upperPortions.finish_reread itemPortions .done true sameNodes
  have bodyWritten := portions.written
  rw [List.map_nil, Text.closed_nil, List.nil_append] at bodyWritten
  have allWritten : Text.closed ((body ++ [Node.item placed]).map Node.render) =
      Text.closed (lines ++ (line :: own ++ [])) := by
    rw [List.map_append, Text.closed_append, written.rendered, ← List.append_assoc, bodyWritten,
      List.append_nil, Text.closed_append]
  have allLines : Text.AreLines (lines ++ (line :: own ++ [])) := by
    rw [List.append_nil]
    exact areLines.append written.areLines
  rw [Document.survives_iff _ true _ (by simp) allLines
    ((closed_new_item body last key value).trans allWritten) (by simp) unix, readBack]
  simp only [Except.ok.injEq, exists_eq_left', same]
  rw [Document.looseEnd_expand true portions]
  exact Document.contents_new_item body last key value true

/-- Whether the value of a key fits where an edit puts it: nothing behind the old value is taken
into it, and a new item at the end of the document stands below no comment that says anything. -/
def ValueFits (key : Text) (document edited : Document) : Prop :=
  match document.item? key with
  | some _ => ∀ item, edited.item? key = some item → ¬ item.Overruns
  | none => ∀ line ∈ document.looseEnd, line.decorators = [] ∧ line.remark? = none

/-- A document with another value for a key is read back from its text just when the value fits,
if the text has no carriage return at the end of a line. -/
theorem itemValue_survives (source key value : Text) (document edited : Document)
    (isRead : Document.read .standard source = .ok document)
    (starts : Scan.startsName key = true) (keyChars : key.all Scan.isKeyChar = true)
    (success : (Edit.itemValue key value).apply document = .ok edited)
    (unix : Text.unixLines edited.render = edited.render) :
    edited.Survives ↔ ValueFits key document edited := by
  obtain ⟨verbatim, isVerbatim, rfl⟩ := (Document.read_standard_eq_ok source document).mp isRead
  cases readValue : Edit.readValue key value with
  | error fault =>
    rw [apply, readValue] at success
    cases success
  | ok term =>
    rw [apply, readValue] at success
    obtain ⟨fresh, first, more, after, rfl, reads, freshLines, solid, gap⟩ :=
      readsValue_of_readValue key value term readValue
    have isEdited : (verbatim.expand true).updateItem key
      ({ · with value := fresh.map (Term.expand true) }) = edited := Except.ok.inj success
    have commutes := Node.updateLast_expand true key ({ · with value := fresh })
      ({ · with value := fresh.map (Term.expand true) }) (fun _ => rfl) verbatim.nodes
    cases updated : Node.updateLast key ({ · with value := fresh }) verbatim.nodes with
    | some nodes =>
      obtain ⟨item, isItem⟩ := Document.item?_of_updated key _ verbatim nodes updated
      have defined : (verbatim.expand true).item? key = some (item.expand true) := by
        rw [Document.item?_expand, isItem]
        rfl
      rw [updated] at commutes
      rw [ValueFits, defined]
      refine defined_survives source key verbatim isVerbatim reads freshLines solid gap nodes
        updated edited ?_ unix
      rw [← isEdited, Document.updateItem, Document.expand, commutes]
      rfl
    | none =>
      have undefined : (verbatim.expand true).item? key = none := by
        rw [Document.item?_expand, Document.item?_none key verbatim.nodes verbatim.trailingNewline
          (Node.ne_key_of_updateLast key _ verbatim.nodes updated)]
        rfl
      rw [updated] at commutes
      rw [ValueFits, undefined]
      refine undefined_survives source key starts keyChars verbatim isVerbatim reads freshLines
        solid gap edited ?_ unix
      rw [← isEdited, Document.updateItem, Document.expand, commutes, Document.expand,
        List.map_append]
      rfl

/-- A value set off from the comment behind it is read back; a backslash in front of the comment
makes the comment a part of the value. -/
theorem itemValue_survives_comment :
    let line (value gap : Text) (width : Nat) : Document :=
      ⟨[.item { Item.new ['A'] (some (.literal (.bare value))) with
        trailing := some ⟨gap, .plain (.new ['c'])⟩, span := ⟨0, width⟩ }], true⟩
    Document.read .standard "A=1 # c\n".toList = .ok (line ['1'] [' '] 7) ∧
      (Edit.itemValue ['A'] ['2']).apply (line ['1'] [' '] 7) = .ok (line ['2'] [' '] 7) ∧
      (line ['2'] [' '] 7).Survives ∧
    Document.read .standard "A=1# c\n".toList = .ok (line ['1'] [] 6) ∧
      (Edit.itemValue ['A'] ['x', '\\']).apply (line ['1'] [] 6) = .ok (line ['x', '\\'] [] 6) ∧
      ¬ (line ['x', '\\'] [] 6).Survives := by
  intro line
  have text : ∀ value gap width, (line value gap width).render =
      'A' :: '=' :: (value ++ gap ++ ['#', ' ', 'c', '\n']) := by
    intro value gap width
    simp [line, Document.render, Node.render, Item.render, Item.renderOwn, Item.new, Term.render,
      Literal.bare, CommentLine.render, Comment.render, Comment.new, Text.join]
  have valueText : ∀ value gap width item, (line value gap width).item? ['A'] = some item →
      item.writtenValue = value := by
    intro value gap width item found
    cases found
    simp [Item.writtenValue, Item.new, Term.render, Literal.bare]
  have readApart : Document.read .standard "A=1 # c\n".toList = .ok (line ['1'] [' '] 7) := by
    decide +kernel
  have readGlued : Document.read .standard "A=1# c\n".toList = .ok (line ['1'] [] 6) := by
    decide +kernel
  have editApart : (Edit.itemValue ['A'] ['2']).apply (line ['1'] [' '] 7) =
      .ok (line ['2'] [' '] 7) := by
    decide +kernel
  have editGlued : (Edit.itemValue ['A'] ['x', '\\']).apply (line ['1'] [] 6) =
      .ok (line ['x', '\\'] [] 6) := by
    decide +kernel
  have apart := itemValue_survives _ ['A'] ['2'] _ _ readApart rfl rfl editApart
    (by rw [text]; decide)
  have glued := itemValue_survives _ ['A'] ['x', '\\'] _ _ readGlued rfl rfl editGlued
    (by rw [text]; decide)
  refine ⟨readApart, editApart, apart.mpr ?_, readGlued, editGlued, fun survives => ?_⟩
  · intro item found overruns
    rw [Item.Overruns, valueText _ _ _ item found] at overruns
    rcases overruns with ⟨slash, -⟩ | ⟨call, rest, isCall, -⟩
    · cases slash
    · rw [Scan.call?_of_noName _ rfl] at isCall
      cases isCall
  · have fits := glued.mp survives _ rfl
    rw [Item.Overruns, valueText _ _ _ _ rfl] at fits
    exact fits (Or.inl ⟨rfl, rfl⟩)

end Edit

end Dotenv
