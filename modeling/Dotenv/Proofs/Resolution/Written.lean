import Dotenv.Proofs.Document.Contents
import Dotenv.Proofs.Edit.Target
import Dotenv.Proofs.Value.Likeness
import Dotenv.Schema.Reading
/-!
# Texts written for values

A document with a plain text written for the value of its first item has the same schema, but for
that value, provided that the item had a value before.
-/

set_option autoImplicit false

namespace Dotenv

variable {text : Text}

/-! ## Items -/

def Item.withBare (text : Text) (item : Item) : Item :=
  { item with value := some (.literal (.bare text)) }

def Item.HasValue (item : Item) : Prop :=
  ∃ term, item.value = some term ∧ ∀ written, term = .literal written → written.scalar ≠ .undefined

def ItemSchema.withBare (text : Text) (item : ItemSchema) : ItemSchema :=
  { item with value := .literal (.ofBare text) }

theorem Text.escape_of_not_mem (mark : Char) (text : Text) (absent : mark ∉ text) :
    escape mark text = text := by
  induction text with
  | nil => rfl
  | cons c rest ih =>
    have differs : c ≠ mark := fun same => absent (same ▸ List.mem_cons_self)
    rw [escape_cons, if_neg differs, ih fun member => absent (List.mem_cons_of_mem _ member)]
    rfl

theorem Literal.scalar_bare (plain : text.IsPlain) : (bare text).scalar = .ofBare text := by
  have unescaped := Text.unescape_escape '#' (by decide) text
  rw [Text.escape_of_not_mem '#' text plain.unmarked] at unescaped
  change Scalar.ofBare (Text.unescape '#' (Text.trim text)) = _
  rw [plain.trimmed, unescaped]

@[simp]
theorem Checked.errors_ok {α : Type} (value : α) : errors (.ok value) = [] := rfl

@[simp]
theorem Checked.getD_ok {α : Type} (value default : α) : getD (.ok value) default = value := rfl

namespace ItemSchema

theorem key_of_ofItem (registry : Registry) (item : Item) (schema : ItemSchema)
    (compiled : ofItem registry item = .ok schema) : schema.key = item.key := by
  simp only [ofItem] at compiled
  split at compiled
  · cases compiled
    rfl
  · cases compiled

theorem errors_of_ofItem (registry : Registry) (item : Item) (errors : List SchemaError)
    (compiled : ofItem registry item = .error errors) : errors ≠ [] := by
  simp only [ofItem] at compiled
  split at compiled
  · cases compiled
  · cases compiled
    assumption

theorem value_of_ofItem (registry : Registry) (item : Item) (given : item.HasValue)
    (schema : ItemSchema) (compiled : ofItem registry item = .ok schema) :
    ∃ expr, valueOf registry item = .ok expr ∧ isGiven expr = true := by
  have found : ∃ expr, valueOf registry item = .ok expr := by
    simp only [ofItem] at compiled
    split at compiled
    · rename_i none
      simp only [List.append_eq_nil_iff, and_assoc] at none
      have noError := none.1
      cases value : valueOf registry item with
      | ok expr => exact ⟨expr, rfl⟩
      | error error =>
        rw [value] at noError
        cases noError
    · cases compiled
  obtain ⟨expr, found⟩ := found
  refine ⟨expr, found, ?_⟩
  obtain ⟨term, isValue, defined⟩ := given
  simp only [valueOf, isValue] at found
  cases term with
  | literal written =>
    cases found
    have defined := defined written rfl
    generalize written.scalar = scalar at defined
    cases scalar with
    | undefined => exact absurd rfl defined
    | _ => rfl
  | call name args argsSource source =>
    simp only [Expr.ofTerm] at found
    split at found
    · cases found
    · simp only [bind_eq_ok] at found
      obtain ⟨_, _, _, _, same⟩ := found
      cases same
      rfl

theorem ofItem_withValue (registry : Registry) (item : Item) (value : Option Term)
    (before after : Expr) (isBefore : valueOf registry item = .ok before)
    (isAfter : valueOf registry { item with value } = .ok after)
    (given : isGiven before = isGiven after) :
    ofItem registry { item with value } =
      (ofItem registry item).map fun schema => { schema with value := after } := by
  have sameDecorators : Item.decoratorsByName { item with value } = item.decoratorsByName := rfl
  simp only [ofItem, sameDecorators, isBefore, isAfter, Checked.errors_ok, Checked.getD_ok, given]
  split <;> rfl

theorem ofItem_withBare (plain : text.IsPlain) (registry : Registry) (item : Item)
    (given : item.HasValue) (schema : ItemSchema) (compiled : ofItem registry item = .ok schema) :
    ofItem registry (item.withBare text) = .ok (schema.withBare text) := by
  obtain ⟨expr, found, isGivenValue⟩ := value_of_ofItem registry item given schema compiled
  have written : valueOf registry (item.withBare text) = .ok (.literal (.ofBare text)) := by
    simp only [valueOf, Item.withBare, Expr.ofTerm, Literal.scalar_bare plain]
    rfl
  have isGivenText : isGiven (.literal (.ofBare text)) = true := by
    rw [isGiven, Value.isUndefined_ofBare plain]
    rfl
  have sameGiven := isGivenValue.trans isGivenText.symm
  refine (ofItem_withValue registry item _ expr _ found written sameGiven).trans ?_
  rw [compiled]
  rfl

end ItemSchema

/-! ## Documents -/

namespace Schema

theorem keys_of_ofItems (registry : Registry) (items : List Item) :
    ∀ schema ∈ (ofItems registry items).1, ∃ item ∈ items, schema.key = item.key := by
  induction items with
  | nil => simp [ofItems]
  | cons item rest ih =>
    have later : ∀ schema ∈ (ofItems registry rest).1,
        ∃ other ∈ item :: rest, schema.key = other.key := by
      intro schema member
      obtain ⟨other, inRest, same⟩ := ih schema member
      exact ⟨other, List.mem_cons_of_mem _ inRest, same⟩
    intro schema member
    simp only [ofItems] at member
    cases compiled : ItemSchema.ofItem registry item with
    | error errors => exact later schema (by simpa only [compiled] using member)
    | ok first =>
      simp only [compiled, List.mem_cons] at member
      rcases member with rfl | member
      · exact ⟨item, List.mem_cons_self, ItemSchema.key_of_ofItem registry item _ compiled⟩
      · exact later schema member

theorem ofItems_cons (registry : Registry) (item : Item) (rest : List Item)
    (schemas : List ItemSchema) :
    ofItems registry (item :: rest) = (schemas, []) ↔
      ∃ schema others, ItemSchema.ofItem registry item = .ok schema ∧
        ofItems registry rest = (others, []) ∧ schemas = schema :: others := by
  generalize restIs : ofItems registry rest = found
  obtain ⟨others, issues⟩ := found
  simp only [ofItems, restIs]
  cases compiled : ItemSchema.ofItem registry item with
  | error errors =>
    have some := ItemSchema.errors_of_ofItem registry item errors compiled
    simp [some]
  | ok schema =>
    simp only [Prod.mk.injEq, Except.ok.injEq, exists_and_left, exists_eq_left']
    constructor
    · rintro ⟨rfl, rfl⟩
      exact ⟨others, ⟨rfl, rfl⟩, rfl⟩
    · rintro ⟨_, ⟨rfl, rfl⟩, rfl⟩
      exact ⟨rfl, rfl⟩

theorem ofItems_split (registry : Registry) (front : List Item) (item : Item) (back : List Item)
    (schemas : List ItemSchema) (compiled : ofItems registry (front ++ item :: back) = (schemas, [])) :
    ∃ upper own lower, schemas = upper ++ own :: lower ∧ ofItems registry front = (upper, []) ∧
      ItemSchema.ofItem registry item = .ok own ∧ ofItems registry back = (lower, []) := by
  induction front generalizing schemas with
  | nil =>
    obtain ⟨own, lower, ofItem, ofBack, rfl⟩ := (ofItems_cons registry item back schemas).mp compiled
    exact ⟨[], own, lower, rfl, rfl, ofItem, ofBack⟩
  | cons first rest ih =>
    obtain ⟨schema, others, ofFirst, ofRest, rfl⟩ :=
      (ofItems_cons registry first _ schemas).mp compiled
    obtain ⟨upper, own, lower, rfl, ofFront, ofItem, ofBack⟩ := ih others ofRest
    refine ⟨schema :: upper, own, lower, rfl, ?_, ofItem, ofBack⟩
    exact (ofItems_cons registry first rest _).mpr ⟨schema, upper, ofFirst, ofFront, rfl⟩

theorem ne_key_of_ofItems (registry : Registry) (items : List Item) (schemas : List ItemSchema)
    (compiled : ofItems registry items = (schemas, [])) (key : Text)
    (absent : ∀ item ∈ items, item.key ≠ key) : ∀ schema ∈ schemas, schema.key ≠ key := by
  intro schema member
  have keys := keys_of_ofItems registry items
  rw [compiled] at keys
  obtain ⟨item, inItems, same⟩ := keys schema member
  rw [same]
  exact absent item inItems

theorem items_of_ofDocument (registry : Registry) (document : Document) (schema : Schema)
    (compiled : ofDocument registry document = .ok schema) :
    ofItems registry document.items = (schema.items, []) := by
  simp only [ofDocument] at compiled
  split at compiled
  · rename_i none
    cases compiled
    exact Prod.ext rfl (List.append_eq_nil_iff.mp none).2
  · cases compiled

end Schema

namespace Document

def withBare (key text : Text) (document : Document) : Document :=
  document.updateItem key (Item.withBare text)

theorem updateItem_first (change : Item → Item) (document : Document) (first : Item)
    (rest : List Item) (items : document.items = first :: rest)
    (only : ∀ item ∈ rest, item.key ≠ first.key) :
    (document.updateItem first.key change).items = change first :: rest ∧
      (document.updateItem first.key change).decorators = document.decorators := by
  obtain ⟨nodes, trailingNewline⟩ := document
  unfold updateItem
  cases updated : Node.updateLast first.key change nodes with
  | none =>
    have member := mem_nodes_of_mem_items _ first (items ▸ List.mem_cons_self)
    exact absurd rfl (Node.ne_key_of_updateLast first.key change nodes updated first member)
  | some changed =>
    obtain ⟨front, item, back, rfl, isKey, rfl, -⟩ :=
      Node.updateLast_eq_some first.key change nodes changed updated
    constructor
    · simp only [Document.items, List.filterMap_append, List.filterMap_cons, Node.item?] at items ⊢
      cases before : front.filterMap Node.item? with
      | nil =>
        rw [before] at items
        obtain ⟨rfl, rfl⟩ := List.cons.inj items
        rfl
      | cons other more =>
        rw [before] at items
        have inRest : item ∈ rest := by
          rw [← (List.cons.inj items).2]
          exact List.mem_append_right _ List.mem_cons_self
        exact absurd isKey (only item inRest)
    · apply decorators_congr
      simp only [findHeader_append_item]

end Document

theorem Schema.ofDocument_withBare (plain : text.IsPlain) (registry : Registry)
    (document : Document) (first : Item) (rest : List Item)
    (items : document.items = first :: rest) (given : first.HasValue)
    (only : ∀ item ∈ rest, item.key ≠ first.key) (schema : Schema)
    (compiled : ofDocument registry document = .ok schema) :
    ∃ item others, schema.items = item :: others ∧ item.key = first.key ∧
      (∀ other ∈ others, other.key ≠ first.key) ∧
      ofDocument registry (document.withBare first.key text) =
        .ok ⟨schema.root, item.withBare text :: others⟩ := by
  obtain ⟨itemsToo, decorators⟩ :=
    Document.updateItem_first (Item.withBare text) document first rest items only
  change (document.withBare first.key text).items = _ at itemsToo
  change (document.withBare first.key text).decorators = _ at decorators
  have header : (document.withBare first.key text).decoratorsByName = document.decoratorsByName :=
    congrArg Decorator.byName decorators
  simp only [ofDocument, items, itemsToo, header] at compiled ⊢
  split at compiled
  · rename_i none
    obtain ⟨noRootError, noIssue⟩ := List.append_eq_nil_iff.mp none
    obtain ⟨item, others, compiledFirst, compiledRest, itemsAre⟩ :=
      (ofItems_cons registry first rest _).mp (Prod.ext rfl noIssue)
    have compiledToo := (ofItems_cons registry (first.withBare text) rest _).mpr
      ⟨_, others, ItemSchema.ofItem_withBare plain registry first given item compiledFirst,
        compiledRest, rfl⟩
    cases compiled
    refine ⟨item, others, itemsAre, ItemSchema.key_of_ofItem registry first item compiledFirst,
      ne_key_of_ofItems registry rest others compiledRest first.key only, ?_⟩
    rw [compiledToo, noRootError]
    rfl
  · cases compiled

end Dotenv
