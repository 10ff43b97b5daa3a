import Dotenv.Proofs.Edit.Acceptance
import Dotenv.Proofs.Edit.Decoration
import Dotenv.Proofs.Edit.Setting
/-!
# What a decorator edit does

A decorator that is set on a key, or in the header, is what its name stands for there. No other
name, no value and no description means anything else than before, on this key or another, and the
same edit once more leaves the document as it is.
-/

set_option autoImplicit false

namespace Dotenv

/-! ## The name of a decorator that an edit describes -/

theorem Portions.first_comment {run last : List CommentLine} {lines : List Text}
    {nodes : List Node} (portions : Portions run lines nodes last) (comment : CommentLine)
    (above : run.head? = some comment) (comments : List CommentLine) (closing : Option Text)
    (rest : List Node) (isNodes : nodes ++ looseBlock last = .block comments closing :: rest) :
    comments.head? = some comment := by
  induction portions with
  | @done run =>
    cases run with
    | nil => cases above
    | cons first more =>
      cases isNodes
      exact above
  | @more run middle last lines others nodes behind first _ ih =>
    rw [List.append_assoc] at isNodes
    cases first with
    | blank isBlank =>
      cases run with
      | nil => cases above
      | cons first more =>
        cases isNodes
        exact above
    | divider isComment read =>
      cases run with
      | nil => cases above
      | cons first more =>
        cases isNodes
        exact above
    | comment isComment read =>
      refine ih ?_ isNodes
      rw [List.head?_append, above]
      rfl
    | item read => cases isNodes

theorem Edit.name_of_readDecorator (name : Text) (value : Option Text) (decorator : Decorator)
    (success : readDecorator name value = .ok decorator) (isName : Scan.IsName name) :
    decorator.name = name := by
  obtain ⟨document, isRead, only⟩ := (readDecorator_eq_ok name value decorator).mp success
  obtain ⟨verbatim, isVerbatim, rfl⟩ := (Document.read_standard_eq_ok _ _).mp isRead
  rw [Document.expand, onlyDecorator?_expand, Option.map_eq_some_iff] at only
  obtain ⟨found, only, rfl⟩ := only
  obtain ⟨row, others, closing, rest, isNodes, alone, -⟩ :=
    onlyDecorator?_eq_some verbatim.nodes found only
  obtain ⟨body, last, portions, isBody⟩ := Document.portions_of_read _ verbatim isVerbatim
  cases isLines : Text.lines (Text.unixLines (decoratorText name value)) with
  | nil =>
    rw [isLines] at portions
    obtain ⟨rfl, rfl⟩ := portions.of_nil
    rw [isBody] at isNodes
    cases isNodes
  | cons line more =>
    obtain ⟨behind, rfl, stops⟩ := decoratorText_line name value isName line more isLines
    rw [isLines] at portions
    rcases portions.comment_first (LineClass.of_comment [] _ rfl) with
      ⟨divider, back, -, rfl, -⟩ | ⟨comment, read, portions⟩
    · rw [isNodes] at isBody
      cases isBody
    · have first := portions.first_comment comment rfl _ closing rest (isBody.symm.trans isNodes)
      cases first
      obtain ⟨named, after, isRow, isFirstName⟩ :=
        Scan.name_of_comment name behind isName stops row read
      obtain ⟨rfl, -⟩ := List.cons.inj (alone.symm.trans isRow)
      exact isFirstName

/-! ## Items -/

namespace Item

theorem decorators_eq (item : Item) :
    item.decorators = item.above.flatMap CommentLine.decorators ++
      (item.trailing.map TrailingComment.comment).toList.flatMap CommentLine.decorators :=
  List.flatMap_append

section
variable (decorator : Decorator) (item : Item)

theorem sets_setDecorator :
    Decorator.Sets decorator.name decorator.setting item.decorators
      (item.setDecorator decorator.name decorator).decorators := by
  rw [decorators_eq, decorators_eq]
  rcases item.setDecorator_cases decorator.name decorator with
    ⟨trailing, changed, isTrailing, replaced, same⟩ | ⟨absent, same⟩
  · rw [same, isTrailing]
    simp only [Option.map_some, Option.toList_some, List.flatMap_singleton]
    exact .inl ((CommentLine.replaces_of_replaceSetting _ _ _ changed replaced).prepend _)
  · rw [same]
    refine (CommentLine.sets_setDecorator decorator item.above).append ?_
    intro later member
    obtain ⟨line, inTrailing, inLine⟩ := List.mem_flatMap.mp member
    obtain ⟨trailing, isTrailing, rfl⟩ :=
      Option.map_eq_some_iff.mp (Option.mem_toList.mp inTrailing)
    exact (CommentLine.replaceSetting_eq_none _ _ _).mp (absent trailing isTrailing) later inLine

theorem value_setDecorator (name : Text) :
    (item.setDecorator name decorator).value = item.value := by
  rcases item.setDecorator_cases name decorator with ⟨_, _, -, -, same⟩ | ⟨-, same⟩ <;> rw [same]

theorem description_setDecorator (name : Text) :
    (item.setDecorator name decorator).description = item.description := by
  have remarks : (item.setDecorator name decorator).comments.filterMap CommentLine.remark? =
      item.comments.filterMap CommentLine.remark? := by
    rw [comments, comments, List.filterMap_append, List.filterMap_append]
    rcases item.setDecorator_cases name decorator with
      ⟨trailing, changed, isTrailing, replaced, same⟩ | ⟨-, same⟩
    · obtain ⟨before, after⟩ :=
        CommentLine.remark?_replaceSetting name decorator.setting _ changed replaced
      rw [same, isTrailing]
      simp only [Option.map_some, Option.toList_some, List.filterMap_cons, before, after]
    · rw [same, CommentLine.remarks_setDecorator]
  rw [description, description, remarks]

theorem setDecorator_again :
    (item.setDecorator decorator.name decorator).setDecorator decorator.name decorator =
      item.setDecorator decorator.name decorator := by
  rcases item.setDecorator_cases decorator.name decorator with
    ⟨trailing, changed, isTrailing, replaced, same⟩ | ⟨absent, same⟩
  · have again :=
      CommentLine.replaceSetting_again decorator.name decorator.setting _ changed replaced
    rw [same]
    simp only [setDecorator, Option.bind_some, again, Option.map_some]
  · have unchanged := CommentLine.setDecorator_again decorator item.above
    have none : (item.trailing.bind fun trailing =>
        (trailing.comment.replaceSetting decorator.name decorator.setting).map fun comment =>
          { trailing with comment }) = none := by
      cases isTrailing : item.trailing with
      | none => rfl
      | some trailing => rw [Option.bind_some, absent trailing isTrailing, Option.map_none]
    rw [same]
    simp only [setDecorator, none, unchanged]

end

end Item

/-! ## The last definition of a key -/

namespace Node

theorem updateLast_of_last (key : Text) (change : Item → Item) (front back : List Node)
    (item : Item) (isKey : item.key = key)
    (last : ∀ other, Node.item other ∈ back → other.key ≠ key) :
    updateLast key change (front ++ .item item :: back) =
      some (front ++ .item (change item) :: back) := by
  induction front with
  | nil =>
    cases later : updateLast key change back with
    | none => rw [List.nil_append, updateLast_item key change item back later, if_pos isKey]; rfl
    | some changed =>
      obtain ⟨_, other, _, rfl, isOther, -⟩ := updateLast_eq_some key change back changed later
      exact absurd isOther (last other (List.mem_append_right _ List.mem_cons_self))
  | cons first rest ih => exact updateLast_later key change first _ _ ih

end Node

namespace Document

theorem findHeader_item (front back : List Node) (item : Item) :
    findHeader (front ++ .item item :: back) = findHeader front := by
  induction front with
  | nil => rfl
  | cons node rest ih =>
    cases node with
    | blank raw => simp only [List.cons_append, findHeader, ih]
    | block comments closing => cases closing <;> rfl
    | _ => rfl

section
variable (key : Text) (change : Item → Item) (document : Document)

theorem updateItem_cases :
    (∃ front item back, document.nodes = front ++ .item item :: back ∧ item.key = key ∧
        (∀ other, Node.item other ∈ back → other.key ≠ key) ∧
        document.updateItem key change =
          ⟨front ++ .item (change item) :: back, document.trailingNewline⟩) ∨
      (∀ item, Node.item item ∈ document.nodes → item.key ≠ key) ∧
        document.updateItem key change =
          ⟨document.nodes ++ [.item (change (.new key none))], true⟩ := by
  unfold updateItem
  cases updated : Node.updateLast key change document.nodes with
  | none => exact .inr ⟨Node.ne_key_of_updateLast key change _ updated, rfl⟩
  | some nodes =>
    obtain ⟨front, item, back, isNodes, isKey, rfl, last⟩ :=
      Node.updateLast_eq_some key change document.nodes nodes updated
    exact .inl ⟨front, item, back, isNodes, isKey, last, rfl⟩

theorem headerComments_updateItem :
    (document.updateItem key change).headerComments = document.headerComments := by
  rcases document.updateItem_cases key change with ⟨front, item, back, isNodes, -, -, same⟩ |
    ⟨-, same⟩
  · simp only [headerComments, same, isNodes, findHeader_item]
  · simp only [headerComments, same, findHeader_item]

variable (keepsKey : ∀ item, (change item).key = item.key)
include keepsKey

theorem item?_updateItem :
    (document.updateItem key change).item? key =
      some (change ((document.item? key).getD (.new key none))) := by
  obtain ⟨nodes, trailingNewline⟩ := document
  rcases updateItem_cases key change ⟨nodes, trailingNewline⟩ with
    ⟨front, item, back, rfl, isKey, last, same⟩ | ⟨absent, same⟩
  · rw [same, item?_last key front back (change item) _ ((keepsKey item).trans isKey) last,
      item?_last key front back item _ isKey last, Option.getD_some]
  · rw [same, item?_none key nodes trailingNewline absent, Option.getD_none]
    exact item?_last key nodes [] _ true (keepsKey _) fun _ member => absurd member List.not_mem_nil

theorem item?_updateItem_of_ne (other : Text) (differs : other ≠ key) :
    (document.updateItem key change).item? other = document.item? other := by
  obtain ⟨nodes, trailingNewline⟩ := document
  have skips : ∀ item : Item, item.key = key → decide (item.key = other) = false := by
    intro item isKey
    exact decide_eq_false fun isOther => differs (isOther.symm.trans isKey)
  rcases updateItem_cases key change ⟨nodes, trailingNewline⟩ with
    ⟨front, item, back, rfl, isKey, -, same⟩ | ⟨-, same⟩
  · have isChanged := skips (change item) ((keepsKey item).trans isKey)
    simp only [same, item?, items, List.filterMap_append, List.filterMap_cons, Node.item?,
      List.filter_append, List.filter_cons, skips item isKey, isChanged, Bool.false_eq_true,
      if_false]
  · have isChanged := skips (change (.new key none)) (keepsKey _)
    simp only [same, item?, items, List.filterMap_append, List.filterMap_cons, Node.item?,
      List.filterMap_nil, List.filter_append, List.filter_cons, isChanged, Bool.false_eq_true,
      if_false, List.filter_nil, List.append_nil]

theorem updateItem_again (again : ∀ item, change (change item) = change item) :
    (document.updateItem key change).updateItem key change = document.updateItem key change := by
  rcases document.updateItem_cases key change with ⟨front, item, back, -, isKey, last, same⟩ |
    ⟨-, same⟩
  · have updated := Node.updateLast_of_last key change front back (change item)
      ((keepsKey item).trans isKey) last
    rw [same, updateItem]
    simp only [updated, again]
  · have updated := Node.updateLast_of_last key change document.nodes [] (change (.new key none))
      (keepsKey _) fun _ member => absurd member List.not_mem_nil
    rw [same, updateItem]
    simp only [updated, again]

end

/-! ## The header -/

section
variable (change : List CommentLine → List CommentLine) (nodes : List Node)

theorem findHeader_updateHeader :
    findHeader (Node.updateHeader change nodes) =
      (findHeader nodes).map fun found => (found.1, change found.2.1, found.2.2) := by
  induction nodes with
  | nil => rfl
  | cons node rest ih =>
    cases node with
    | blank raw =>
      simp only [Node.updateHeader, findHeader, ih, Option.map_map]
      rfl
    | block comments closing => cases closing <;> rfl
    | _ => rfl

theorem updateHeader_again (again : ∀ lines, change (change lines) = change lines) :
    Node.updateHeader change (Node.updateHeader change nodes) = Node.updateHeader change nodes := by
  induction nodes with
  | nil => rfl
  | cons node rest ih =>
    cases node with
    | blank raw => simp only [Node.updateHeader, ih]
    | block comments closing =>
      cases closing with
      | none => rfl
      | some closing => simp only [Node.updateHeader, again]
    | _ => rfl

theorem items_updateHeader :
    (Node.updateHeader change nodes).filterMap Node.item? = nodes.filterMap Node.item? := by
  induction nodes with
  | nil => rfl
  | cons node rest ih =>
    cases node with
    | blank raw => simpa only [Node.updateHeader, List.filterMap_cons, Node.item?] using ih
    | block comments closing => cases closing <;> rfl
    | _ => rfl

theorem adoptDivider_eq_some (adopted : List Node)
    (adopts : Node.adoptDivider nodes = some adopted) :
    findHeader nodes = none ∧ (∃ place closing, findHeader adopted = some (place, [], closing)) ∧
      adopted.filterMap Node.item? = nodes.filterMap Node.item? := by
  induction nodes generalizing adopted with
  | nil => cases adopts
  | cons node rest ih =>
    cases node with
    | blank raw =>
      obtain ⟨later, found, rfl⟩ := Option.map_eq_some_iff.mp adopts
      obtain ⟨none, ⟨place, closing, isHeader⟩, items⟩ := ih later found
      exact ⟨by rw [findHeader, none]; rfl, ⟨place + 1, closing, by rw [findHeader, isHeader]; rfl⟩,
        items⟩
    | divider raw =>
      cases adopts
      exact ⟨rfl, ⟨0, raw, rfl⟩, rfl⟩
    | _ => cases adopts

theorem adoptDivider_of_header (isHeader : (findHeader nodes).isSome = true) :
    Node.adoptDivider nodes = none := by
  cases adopts : Node.adoptDivider nodes with
  | none => rfl
  | some adopted =>
    rw [(adoptDivider_eq_some nodes adopted adopts).1] at isHeader
    cases isHeader

end

theorem ensureHeader_of_header (lines : List Text) (document : Document)
    (isHeader : document.headerIndex.isSome = true) : document.ensureHeader lines = document := by
  have found : (findHeader document.nodes).isSome = true := by
    rwa [headerIndex, Option.isSome_map] at isHeader
  rw [ensureHeader, adoptDivider_of_header document.nodes found]
  simp only [isHeader, if_true]

theorem ensureHeader_spec (document : Document) :
    (document.ensureHeader []).headerIndex.isSome = true ∧
      (document.ensureHeader []).headerComments = document.headerComments ∧
      (document.ensureHeader []).items = document.items := by
  cases adopts : Node.adoptDivider document.nodes with
  | some adopted =>
    obtain ⟨none, ⟨place, closing, isHeader⟩, items⟩ := adoptDivider_eq_some _ adopted adopts
    simp only [ensureHeader, adopts, headerIndex, headerComments, none, isHeader, Document.items,
      items, Option.map_some, Option.isSome_some, and_self]
  | none =>
    cases isHeader : document.headerIndex.isSome with
    | true =>
      rw [ensureHeader_of_header [] document isHeader]
      exact ⟨isHeader, rfl, rfl⟩
    | false =>
      have none : findHeader document.nodes = none := by
        rwa [headerIndex, Option.isSome_map, Option.isSome_eq_false_iff,
          Option.isNone_iff_eq_none] at isHeader
      obtain ⟨nodes, trailingNewline⟩ := document
      simp only [ensureHeader, adopts, isHeader, Bool.false_eq_true, if_false]
      dsimp only at none
      cases nodes <;>
        exact ⟨rfl, by simp only [headerComments, none, findHeader, List.map_nil], rfl⟩

section
variable (change : List CommentLine → List CommentLine) (document : Document)

theorem headerComments_edited :
    ((document.ensureHeader []).updateHeader change).headerComments =
      change document.headerComments := by
  obtain ⟨isHeader, comments, -⟩ := document.ensureHeader_spec
  rw [← comments]
  obtain ⟨found, isFound⟩ := Option.isSome_iff_exists.mp ((Option.isSome_map).symm.trans isHeader)
  simp only [headerComments, updateHeader, findHeader_updateHeader, isFound, Option.map_some]

theorem items_edited :
    ((document.ensureHeader []).updateHeader change).items = document.items :=
  (items_updateHeader change _).trans document.ensureHeader_spec.2.2

theorem edited_again (again : ∀ lines, change (change lines) = change lines) :
    let edited := (document.ensureHeader []).updateHeader change
    (edited.ensureHeader []).updateHeader change = edited := by
  intro edited
  have isHeader : edited.headerIndex.isSome = true := by
    rw [headerIndex, Option.isSome_map]
    simp only [edited, updateHeader, findHeader_updateHeader, Option.isSome_map]
    exact (Option.isSome_map).symm.trans document.ensureHeader_spec.1
  rw [ensureHeader_of_header [] edited isHeader]
  simp only [edited, updateHeader, updateHeader_again change _ again]

end

/-- The decorators of a key, by name, or of the header; of a key that is not defined there are
none. -/
def decoratorsOf (document : Document) : Option Text → Keyed Decorator
  | some key => ((document.item? key).map Item.decoratorsByName).getD []
  | none => document.decoratorsByName

section
variable (document : Document) (key : Text)

theorem decoratorsOf_key : document.decoratorsOf (some key) =
    ((document.item? key).getD (.new key none)).decoratorsByName := by
  rw [decoratorsOf]
  cases document.item? key <;> rfl

variable (change : Item → Item) (keepsKey : ∀ item, (change item).key = item.key)
include keepsKey

theorem decoratorsOf_updateItem : (document.updateItem key change).decoratorsOf (some key) =
    (change ((document.item? key).getD (.new key none))).decoratorsByName := by
  rw [decoratorsOf, document.item?_updateItem key change keepsKey]
  rfl

theorem decoratorsOf_updateItem_of_ne (elsewhere : Option Text) (differs : elsewhere ≠ some key) :
    (document.updateItem key change).decoratorsOf elsewhere =
      document.decoratorsOf elsewhere := by
  cases elsewhere with
  | none =>
    simp only [decoratorsOf, decoratorsByName, decorators, document.headerComments_updateItem]
  | some other =>
    have isOther : other ≠ key := fun same => differs (congrArg some same)
    simp only [decoratorsOf, document.item?_updateItem_of_ne key change keepsKey other isOther]

theorem bind_item?_updateItem {α : Type} (part : Item → Option α)
    (keeps : ∀ item, part (change item) = part item) (isNew : part (.new key none) = none)
    (other : Text) :
    ((document.updateItem key change).item? other).bind part =
      (document.item? other).bind part := by
  by_cases isKey : other = key
  · subst isKey
    rw [document.item?_updateItem other change keepsKey, Option.bind_some, keeps]
    cases document.item? other with
    | none => exact isNew
    | some item => rfl
  · rw [document.item?_updateItem_of_ne key change keepsKey other isKey]

end

end Document

namespace Edit

/-- A decorator edit by an identifier: the name stands for what it describes, in the header or on
the key, every other name there and every name elsewhere stands for what it did; the values and the
descriptions of all keys are as before; and the same edit once more changes nothing. -/
theorem decoration_effect (target : Option Text) (name : Text) (value : Option Text)
    (document edited : Document) (isName : Scan.IsName name)
    (success : (decoration target name value).apply document = .ok edited) :
    (∃ decorator found, readDecorator name value = .ok decorator ∧
        (edited.decoratorsOf target).get? name = some found ∧
        found.setting = decorator.setting) ∧
      (∀ other, other ≠ name →
        (edited.decoratorsOf target).get? other = (document.decoratorsOf target).get? other) ∧
      (∀ elsewhere, elsewhere ≠ target →
        edited.decoratorsOf elsewhere = document.decoratorsOf elsewhere) ∧
      (∀ key, (edited.item? key).bind Item.value = (document.item? key).bind Item.value ∧
        (edited.item? key).bind Item.description = (document.item? key).bind Item.description) ∧
      (decoration target name value).apply edited = .ok edited := by
  cases read : readDecorator name value with
  | error fault => cases target <;> simp [decoration, apply, read, Except.map] at success
  | ok decorator =>
    obtain rfl := name_of_readDecorator name value decorator read isName
    cases target with
    | none =>
      simp only [decoration, apply, read, Except.map, Except.ok.injEq] at success ⊢
      subst success
      have sets := CommentLine.sets_setDecorator decorator document.headerComments
      have comments := document.headerComments_edited
        (CommentLine.setDecorator decorator.name decorator)
      have items := document.items_edited (CommentLine.setDecorator decorator.name decorator)
      rw [← comments] at sets
      obtain ⟨found, isFound, isSetting⟩ := sets.get?_name
      refine ⟨⟨decorator, found, rfl, isFound, isSetting⟩, fun other => sets.get?_other,
        fun elsewhere differs => ?_, fun key => ?_, ?_⟩
      · cases elsewhere with
        | none => exact absurd rfl differs
        | some key => simp only [Document.decoratorsOf, Document.item?, items]
      · simp only [Document.item?, items, and_self]
      · exact document.edited_again _ (CommentLine.setDecorator_again decorator)
    | some key =>
      simp only [decoration, apply, read, Except.map, Except.ok.injEq] at success ⊢
      subst success
      have keepsKey := Item.key_setDecorator decorator.name decorator
      have sets := Item.sets_setDecorator decorator ((document.item? key).getD (.new key none))
      rw [document.decoratorsOf_key, document.decoratorsOf_updateItem key _ keepsKey]
      obtain ⟨found, isFound, isSetting⟩ := sets.get?_name
      refine ⟨⟨decorator, found, rfl, isFound, isSetting⟩, fun other => sets.get?_other,
        document.decoratorsOf_updateItem_of_ne key _ keepsKey, fun other => ⟨?_, ?_⟩, ?_⟩
      · exact document.bind_item?_updateItem key _ keepsKey Item.value
          (fun item => item.value_setDecorator decorator decorator.name) rfl other
      · exact document.bind_item?_updateItem key _ keepsKey Item.description
          (fun item => item.description_setDecorator decorator decorator.name) rfl other
      · exact document.updateItem_again key _ keepsKey (Item.setDecorator_again decorator)

/-- A name that stands above an item twice and behind its value, set on it. -/
theorem decoration_effect_repeated :
    let source := "# @a @b=x\n# c @a\n# @a=2\nK=v # @b=y @a=3\n".toList
    let four : Decorator := ⟨[], ['a'], .assigned (.literal (.bare ['4']))⟩
    let document := (Document.read .standard source).toOption.getD .empty
    let edit := decoration (some ['K']) ['a'] (some ['4'])
    let edited := (edit.apply document).toOption.getD .empty
    Document.read .standard source = .ok document ∧ edit.apply document = .ok edited ∧
      (∃ found, (edited.decoratorsOf (some ['K'])).get? ['a'] = some found ∧
        found.setting = four.setting) ∧
      (edited.decoratorsOf (some ['K'])).get? ['b'] =
        (document.decoratorsOf (some ['K'])).get? ['b'] ∧
      edit.apply edited = .ok edited := by
  intro source four document edit edited
  have isRead : Document.read .standard source = .ok document := by decide +kernel
  have success : edit.apply document = .ok edited := by decide +kernel
  have isFour : readDecorator ['a'] (some ['4']) = .ok four := by decide +kernel
  clear_value document edited
  obtain ⟨⟨decorator, found, read, isFound, isSetting⟩, others, -, -, again⟩ :=
    decoration_effect (some ['K']) ['a'] (some ['4']) document edited rfl success
  cases Except.ok.inj (isFour.symm.trans read)
  exact ⟨isRead, success, ⟨found, isFound, isSetting⟩, others ['b'] (by decide), again⟩

end Edit

end Dotenv
