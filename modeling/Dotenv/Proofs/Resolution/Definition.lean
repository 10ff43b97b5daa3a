import Dotenv.Proofs.Resolution.Exported
/-!
# The definition of a key in a document

A run that succeeds has each key of its document once, with what the last item of that key in the
document comes to. An override is the value of its key, and so is a literal where there is none.
-/

set_option autoImplicit false

namespace Dotenv

/-! ## Items and their schemas -/

theorem Schema.forall₂_of_ofItems (registry : Registry) (items : List Item)
    (schemas : List ItemSchema) (compiled : ofItems registry items = (schemas, [])) :
    List.Forall₂ (fun item schema => ItemSchema.ofItem registry item = .ok schema)
      items schemas := by
  induction items generalizing schemas with
  | nil =>
    cases compiled
    exact .nil
  | cons item rest ih =>
    obtain ⟨schema, others, ofItem, ofRest, rfl⟩ := (ofItems_cons registry item rest _).mp compiled
    exact .cons ofItem (ih others ofRest)

theorem Schema.map_key_of_ofItems (registry : Registry) (items : List Item)
    (schemas : List ItemSchema) (compiled : ofItems registry items = (schemas, [])) :
    schemas.map ItemSchema.key = items.map Item.key := by
  have each := forall₂_of_ofItems registry items schemas compiled
  refine List.forall₂_eq_eq_eq ▸ ?_
  rw [List.forall₂_map_left_iff, List.forall₂_map_right_iff]
  exact each.flip.imp fun schema item ofItem => ItemSchema.key_of_ofItem registry item schema ofItem

theorem Document.item?_of_split (document : Document) (front : List Item) (item : Item)
    (back : List Item) (items : document.items = front ++ item :: back)
    (last : ∀ later ∈ back, later.key ≠ item.key) : document.item? item.key = some item := by
  have none : back.filter (fun later => later.key = item.key) = [] := by
    apply List.filter_eq_nil_iff.mpr
    intro later member
    simp [last later member]
  rw [item?, items, List.filter_append, List.filter_cons_of_pos (by simp), none]
  exact List.getLast?_concat

theorem Schema.item?_of_ofItems (registry : Registry) (document : Document)
    (front : List ItemSchema) (schema : ItemSchema) (back : List ItemSchema)
    (compiled : ofItems registry document.items = (front ++ schema :: back, []))
    (last : ∀ later ∈ back, later.key ≠ schema.key) :
    ∃ item ∈ document.items, document.item? schema.key = some item ∧
      ItemSchema.ofItem registry item = .ok schema := by
  have each := forall₂_of_ofItems registry document.items _ compiled
  have behind := List.forall₂_drop_append _ front _ each
  obtain ⟨item, lower, ofItem, ofLower, isRest⟩ := List.forall₂_cons_right_iff.mp behind
  have isKey := ItemSchema.key_of_ofItem registry item schema ofItem
  have items : document.items = document.items.take front.length ++ item :: lower := by
    rw [← isRest, List.take_append_drop]
  have member : item ∈ document.items := by
    rw [items]
    exact List.mem_append_right _ List.mem_cons_self
  refine ⟨item, member, ?_, ofItem⟩
  rw [isKey] at last ⊢
  apply document.item?_of_split _ item lower items
  intro later member
  obtain ⟨after, inBack, compiledLater⟩ := Resolution.exists_mem_of_forall₂ ofLower.flip later member
  rw [← ItemSchema.key_of_ofItem registry later after compiledLater]
  exact last after inBack

/-! ## Values -/

namespace Progress

theorem reaches_evaluateItem_override (scope : Scope) (item : ItemSchema) (text : Text)
    (given : scope.options.overrides.get? item.key = some text)
    (result : Except ResolutionError Value) (ends : (evaluateItem scope item).Reaches result) :
    result = .ok (.text text) := by
  unfold evaluateItem at ends
  rw [given] at ends
  cases ends
  rfl

theorem reaches_evaluateItem_literal (scope : Scope) (item : ItemSchema) (value : Value)
    (isLiteral : item.value = .literal value)
    (free : scope.options.overrides.get? item.key = none)
    (result : Except ResolutionError Value) (ends : (evaluateItem scope item).Reaches result) :
    result = .ok value := by
  unfold evaluateItem at ends
  rw [free, isLiteral] at ends
  cases ends
  rfl

end Progress

/-! ## Runs -/

/-- How a run leaves a key: its last item in the document was evaluated under some options, and the
final state is what that means. -/
structure Evaluated.Leaves (registry : Registry) (settings : Options) (document : Document)
    (key : Text) (resolved : ResolvedItem) (item : Item) (entry : Evaluated) : Prop where
  member : item ∈ document.items
  isLast : document.item? key = some item
  compiled : ItemSchema.ofItem registry item = .ok entry.item
  ofKey : entry.item.key = key
  options : entry.scope.options = settings
  reached : (Progress.evaluateItem entry.scope entry.item).Reaches entry.result
  decides : ∃ root final, entry.Decides root final resolved

theorem Resolution.leaves_of_mem (registry : Registry) (settings : Options) (document : Document)
    (resolution : Resolution)
    (ends : (ofDocument registry settings document).run.Reaches (.ok resolution)) (key : Text)
    (resolved : ResolvedItem) (member : (key, resolved) ∈ resolution.items) :
    ∃ item entry, Evaluated.Leaves registry settings document key resolved item entry := by
  obtain ⟨schema, record, compiled, runs⟩ :=
    exists_record registry settings document resolution ends
  obtain ⟨records, finishes⟩ := reaches_recorded schema settings record resolution runs
  have items := items_of_records records
  obtain ⟨entry, last, decides⟩ :=
    decides_of_mem schema settings record resolution items finishes key resolved member
  have reached := records.reaches entry last.mem
  have options : entry.scope.options = settings := records.options entry last.mem
  obtain ⟨front, back, rfl, isKey, later⟩ := last
  have ofItems := Schema.items_of_ofDocument registry document schema compiled
  rw [← items, List.map_append, List.map_cons] at ofItems
  obtain ⟨item, inDocument, isLast, ofItem⟩ := Schema.item?_of_ofItems registry document _ entry.item
    _ ofItems (List.forall_mem_map.mpr (isKey ▸ later))
  exact ⟨item, entry, inDocument, isKey ▸ isLast, ofItem, isKey, options, reached, _, _, decides⟩

theorem Resolution.keys_of_reaches (registry : Registry) (settings : Options)
    (document : Document) (resolution : Resolution)
    (ends : (ofDocument registry settings document).run.Reaches (.ok resolution)) :
    resolution.items.keys = (document.items.map Item.key).eraseDups := by
  obtain ⟨schema, record, compiled, runs⟩ :=
    exists_record registry settings document resolution ends
  obtain ⟨_, finishes⟩ := reaches_recorded schema settings record resolution runs
  have ofItems := Schema.items_of_ofDocument registry document schema compiled
  rw [keys_of_reaches_finish schema _ resolution finishes,
    Schema.map_key_of_ofItems registry _ _ ofItems]

theorem Evaluated.checked_of_decides (root : RootSchema) (final : Scope) (entry : Evaluated)
    (resolved : ResolvedItem) (decides : entry.Decides root final resolved) (value : Value)
    (result : entry.result = .ok value) :
    ∃ isRequired, resolved.value = (entry.item.check value isRequired).1 ∧
      ∀ texts, ItemError.enumeration texts ∈ resolved.errors ↔
        ItemError.enumeration texts ∈ (entry.item.check value isRequired).2 := by
  obtain ⟨required, sensitive, -, -, rfl, -⟩ := decides
  refine ⟨required.toOption.getD false, ?_, fun texts => ?_⟩
  · simp only [Evaluated.resolved, checked, result]
  · have unlisted : ∀ attempt : Except ResolutionError Bool,
        ItemError.enumeration texts ∉ Resolution.listed attempt := by
      intro attempt
      cases attempt <;> simp [Resolution.listed]
    simp only [Evaluated.resolved, checked, result, List.mem_append, unlisted, false_or]

end Dotenv
