import Dotenv.Proofs.Edit.Effect
/-!
# Edits change one place

An edit of a value or of a decorator changes one node: the last definition of its key, or the
header. In that node it changes one slot, adds one decorator to a line, or adds one line. A key or
a header that is missing is added at its end of the document, and nothing else is.
-/

set_option autoImplicit false

namespace Dotenv

/-! ## One decorator -/

/-- Comment lines in which a decorator has been set: the last decorator of the name in one line has
the setting, or the decorator stands at the end of one line, which is narrow, or on a line below. -/
inductive CommentLine.Redecorated (name : Text) (decorator : Decorator) :
    List CommentLine → List CommentLine → Prop
  | replaced {front back : List CommentLine} {row : DecoratorLine} {list : List Decorator}
      (replaces : Decorator.Replaces name decorator.setting row.decorators list) :
      Redecorated name decorator (front ++ .decorated row :: back)
        (front ++ .decorated { row with decorators := list } :: back)
  | appended {front back : List CommentLine} {row longer : DecoratorLine}
      (noComment : row.trailing = none)
      (isLonger : longer = { row with
        decorators := row.decorators ++ [{ decorator with leading := [' '] }] })
      (narrow : longer.render.length ≤ 80) :
      Redecorated name decorator (front ++ .decorated row :: back)
        (front ++ .decorated longer :: back)
  | below {lines : List CommentLine} :
      Redecorated name decorator lines
        (lines ++ [.decorated (.new [{ decorator with leading := [] }])])

/-- Items that differ in one decorator: behind the value in its setting alone, or above. -/
inductive Item.Redecorated (name : Text) (decorator : Decorator) : Item → Item → Prop
  | behind {item : Item} {gap : Text} {row : DecoratorLine} {list : List Decorator}
      (isTrailing : item.trailing = some ⟨gap, .decorated row⟩)
      (replaces : Decorator.Replaces name decorator.setting row.decorators list) :
      Redecorated name decorator item
        { item with trailing := some ⟨gap, .decorated { row with decorators := list }⟩ }
  | above {item : Item} {lines : List CommentLine}
      (changes : CommentLine.Redecorated name decorator item.above lines) :
      Redecorated name decorator item { item with above := lines }

namespace CommentLine

section
variable (name : Text) (decorator : Decorator)

theorem replaceSetting_replaces (setting : Setting) (line changed : CommentLine)
    (replaced : line.replaceSetting name setting = some changed) :
    ∃ row list, line = decorated row ∧ changed = decorated { row with decorators := list } ∧
      Decorator.Replaces name setting row.decorators list := by
  obtain ⟨row, front, first, back, rfl, -, rfl⟩ :=
    replaceSetting_eq_some name setting line changed replaced
  exact ⟨row, _, rfl, rfl, replaces_of_replaceSetting name setting _ _ replaced⟩

theorem redecorated_setDecorator (lines : List CommentLine) :
    Redecorated name decorator lines (setDecorator name decorator lines) := by
  rcases setDecorator_cases name decorator lines with
    ⟨front, line, changed, back, rfl, replaced, same⟩ |
    ⟨front, row, back, rfl, noComment, narrow, same⟩ | same
  · obtain ⟨row, list, rfl, rfl, replaces⟩ :=
      replaceSetting_replaces name decorator.setting line changed replaced
    rw [same]
    exact .replaced replaces
  · rw [same]
    refine .appended noComment rfl (le_of_eq_of_le ?_ narrow)
    simp only [DecoratorLine.render, noComment, List.flatMap_append, List.flatMap_singleton,
      List.length_append]
    omega
  · rw [same]
    exact .below

end

end CommentLine

theorem Item.redecorated_setDecorator (name : Text) (decorator : Decorator) (item : Item) :
    item.Redecorated name decorator (item.setDecorator name decorator) := by
  rcases item.setDecorator_cases name decorator with
    ⟨⟨gap, comment⟩, changed, isTrailing, replaced, same⟩ | ⟨-, same⟩
  · obtain ⟨row, list, rfl, rfl, replaces⟩ :=
      CommentLine.replaceSetting_replaces name decorator.setting comment changed replaced
    rw [same]
    exact .behind isTrailing replaces
  · rw [same]
    exact .above (CommentLine.redecorated_setDecorator name decorator item.above)

namespace Document

/-! ## One item -/

/-- Documents that differ in the last definition of a key. Where the key has no definition, an empty
one is changed and stands at the end, its line closed. -/
inductive ItemChanged (key : Text) (change : Item → Item → Prop) : Document → Document → Prop
  | defined {front back : List Node} {item changed : Item} {trailingNewline : Bool}
      (isKey : item.key = key) (last : ∀ other, Node.item other ∈ back → other.key ≠ key)
      (changes : change item changed) :
      ItemChanged key change ⟨front ++ .item item :: back, trailingNewline⟩
        ⟨front ++ .item changed :: back, trailingNewline⟩
  | missing {nodes : List Node} {item : Item} {trailingNewline : Bool}
      (absent : ∀ other, Node.item other ∈ nodes → other.key ≠ key)
      (changes : change (.new key none) item) :
      ItemChanged key change ⟨nodes, trailingNewline⟩ ⟨nodes ++ [.item item], true⟩

theorem itemChanged_updateItem (key : Text) (change : Item → Item) (relates : Item → Item → Prop)
    (changes : ∀ item, relates item (change item)) (document : Document) :
    document.ItemChanged key relates (document.updateItem key change) := by
  obtain ⟨nodes, trailingNewline⟩ := document
  rcases updateItem_cases key change ⟨nodes, trailingNewline⟩ with
    ⟨front, item, back, rfl, isKey, last, same⟩ | ⟨absent, same⟩
  · rw [same]
    exact .defined isKey last (changes item)
  · rw [same]
    exact .missing absent (changes _)

/-! ## The header -/

inductive HeaderChanged (change : List CommentLine → List CommentLine → Prop) :
    Document → Document → Prop
  | comments {blanks back : List Node} {own changed : List CommentLine} {closing : Text}
      {trailingNewline : Bool} (areBlank : ∀ node ∈ blanks, node.isBlank = true)
      (changes : change own changed) :
      HeaderChanged change ⟨blanks ++ .block own (some closing) :: back, trailingNewline⟩
        ⟨blanks ++ .block changed (some closing) :: back, trailingNewline⟩

section
variable (change : List CommentLine → List CommentLine)
  (relates : List CommentLine → List CommentLine → Prop)
  (changes : ∀ lines, relates lines (change lines))
include changes

theorem headerChanged_updateHeader {comments : List CommentLine} {document headed : Document}
    (isHeaded : document.Headed comments headed) :
    headed.HeaderChanged relates (headed.updateHeader change) := by
  have behind (blanks back : List Node) (own : List CommentLine) (closing : Text) (newline : Bool)
      (areBlank : ∀ node ∈ blanks, node.isBlank = true) :
      HeaderChanged relates ⟨blanks ++ .block own (some closing) :: back, newline⟩
        (updateHeader change ⟨blanks ++ .block own (some closing) :: back, newline⟩) := by
    rw [updateHeader, Node.updateHeader_blanks change _ areBlank]
    exact .comments areBlank (changes own)
  cases isHeaded with
  | present areBlank => exact behind _ _ _ _ _ areBlank
  | adopted areBlank => exact behind _ _ _ _ _ areBlank
  | alone => exact behind [] _ _ _ _ (by simp)
  | inFront => exact behind [] _ _ _ _ (by simp)

end

end Document

namespace Edit

def ChangesOnly (document edited : Document) : Edit → Prop
  | header lines => document.Headed (lines.map fun line => .plain (.new line)) edited
  | rootDecorator name value =>
    ∃ decorator headed, readDecorator name value = .ok decorator ∧ document.Headed [] headed ∧
      headed.HeaderChanged (CommentLine.Redecorated name decorator) edited
  | itemDecorator key name value =>
    ∃ decorator, readDecorator name value = .ok decorator ∧
      document.ItemChanged key (Item.Redecorated name decorator) edited
  | itemValue key value =>
    ∃ found, readValue key value = .ok found ∧
      document.ItemChanged key (fun item changed => changed = { item with value := found }) edited

/-- A successful edit changes its target in the one place that it is about; every other node is
kept in its order, and what is missing is added at its end of the document. -/
theorem changes_only_target (edit : Edit) (document edited : Document)
    (success : edit.apply document = .ok edited) : edit.ChangesOnly document edited := by
  cases edit with
  | header lines =>
    cases success
    exact document.headed_ensureHeader lines
  | rootDecorator name value =>
    obtain ⟨decorator, read, rfl⟩ := (map_eq_ok _ _ _).mp success
    have isHeaded := document.headed_ensureHeader []
    exact ⟨decorator, _, read, isHeaded, Document.headerChanged_updateHeader _ _
      (CommentLine.redecorated_setDecorator name decorator) isHeaded⟩
  | itemDecorator key name value =>
    obtain ⟨decorator, read, rfl⟩ := (map_eq_ok _ _ _).mp success
    exact ⟨decorator, read, document.itemChanged_updateItem key _ _
      (Item.redecorated_setDecorator name decorator)⟩
  | itemValue key value =>
    obtain ⟨found, read, rfl⟩ := (map_eq_ok _ _ _).mp success
    refine ⟨found, read, document.itemChanged_updateItem key _ _ ?_⟩
    exact fun item => rfl

/-- A decorator of a document that starts with a blank line and a divider, and one of an item that
is defined twice and has the decorator behind its value. -/
theorem changes_only_target_divider :
    let source := "\n# ---\nK=1\nK=2 # @a @b\n".toList
    let document := (Document.read .standard source).toOption.getD .empty
    let root := rootDecorator ['a'] (some ['3'])
    let item := itemDecorator ['K'] ['a'] (some ['3'])
    let headed := (root.apply document).toOption.getD .empty
    let edited := (item.apply document).toOption.getD .empty
    root.apply document = .ok headed ∧ root.ChangesOnly document headed ∧
      item.apply document = .ok edited ∧ item.ChangesOnly document edited := by
  intro source document root item headed edited
  have rootSuccess : root.apply document = .ok headed := by decide +kernel
  have itemSuccess : item.apply document = .ok edited := by decide +kernel
  exact ⟨rootSuccess, changes_only_target root document headed rootSuccess, itemSuccess,
    changes_only_target item document edited itemSuccess⟩

end Edit

end Dotenv
