import Dotenv.Proofs.Resolution.Definition
import Dotenv.Proofs.Value.Conversion
/-!
# Exported texts as overrides

A conversion is settled. A document may be resolved once more with what it exported for the
overrides: booleans and lists that were converted come back as they were, unless the exported text
is empty, which counts as no value.
-/

set_option autoImplicit false

namespace Dotenv

def Document.Asks (registry : Registry) (document : Document) (key : Text) (type : ValueType) :
    Prop :=
  ∃ item schema, document.item? key = some item ∧
    ItemSchema.ofItem registry item = .ok schema ∧ schema.type = some type

namespace Resolution

variable {registry : Registry} {document : Document}

structure Reimports (registry : Registry) (document : Document) (first second : Resolution) :
    Prop where
  once : ∃ settings, (ofDocument registry settings document).run.Reaches (.ok first)
  again : ∃ settings : Options, settings.overrides = first.environment ∧
    (ofDocument registry settings document).run.Reaches (.ok second)

theorem get?_environment_of_run (settings : Options) (resolution : Resolution)
    (ends : (ofDocument registry settings document).run.Reaches (.ok resolution)) (key : Text)
    (resolved : ResolvedItem) (member : (key, resolved) ∈ resolution.items)
    (given : resolved.value.isEmpty = false) :
    resolution.environment.get? key = some resolved.value.display := by
  obtain ⟨schema, record, _, runs⟩ := exists_record registry settings document resolution ends
  obtain ⟨records, finishes⟩ := reaches_recorded schema settings record resolution runs
  exact get?_environment_of_reaches (items_of_records records) finishes key resolved member given

theorem value_of_override (settings : Options) (resolution : Resolution)
    (ends : (ofDocument registry settings document).run.Reaches (.ok resolution)) (key : Text)
    (resolved : ResolvedItem) (member : (key, resolved) ∈ resolution.items) (written : Text)
    (overridden : settings.overrides.get? key = some written) (type : ValueType)
    (asks : document.Asks registry key type) (typed : Value)
    (converted : (Value.text written).convert? type = some typed) :
    resolved.value = if written = [] then .text [] else typed := by
  obtain ⟨item, entry, leaves⟩ :=
    leaves_of_mem registry settings document resolution ends key resolved member
  obtain ⟨last, schema, isLast, compiled, asked⟩ := asks
  obtain rfl := Option.some.inj (isLast.symm.trans leaves.isLast)
  obtain rfl := Except.ok.inj (compiled.symm.trans leaves.compiled)
  have given : entry.scope.options.overrides.get? entry.item.key = some written := by
    rw [leaves.options, leaves.ofKey, overridden]
  have result := Progress.reaches_evaluateItem_override _ _ written given _ leaves.reached
  obtain ⟨root, final, decides⟩ := leaves.decides
  obtain ⟨isRequired, value, -⟩ := entry.checked_of_decides root final resolved decides _ result
  rw [value, ItemSchema.check]
  by_cases empty : written = []
  · subst empty
    rfl
  · have some : (Value.text written).isEmpty = false := decide_eq_false empty
    rw [some, ItemSchema.typed?, asked]
    simp only [converted, if_neg empty, Bool.false_eq_true, if_false]

theorem Reimports.exists_after {first second : Resolution}
    (runs : Reimports registry document first second) (key : Text) (before : ResolvedItem)
    (found : first.items.get? key = some before) (type : ValueType)
    (asks : document.Asks registry key type) (given : before.value.isEmpty = false)
    (typed : Value) (converted : (Value.text before.value.display).convert? type = some typed) :
    ∃ after, second.items.get? key = some after ∧
      after.value = if before.value.display = [] then .text [] else typed := by
  obtain ⟨settings, once⟩ := runs.once
  obtain ⟨others, overrides, again⟩ := runs.again
  have member := Keyed.mem_of_get? key first.items before found
  have override : others.overrides.get? key = some before.value.display := by
    rw [overrides]
    exact get?_environment_of_run settings first once key before member given
  -- Both runs have the keys of the document, so that the second has this one.
  have sameKeys : second.items.keys = first.items.keys := by
    rw [keys_of_reaches registry others document second again,
      keys_of_reaches registry settings document first once]
  cases stays : second.items.get? key with
  | none =>
    rw [Keyed.get?_eq_none_iff, sameKeys, ← Keyed.get?_eq_none_iff, found] at stays
    cases stays
  | some after =>
    refine ⟨after, rfl, ?_⟩
    have afterIn := Keyed.mem_of_get? key second.items after stays
    exact value_of_override others second again key after afterIn _ override type asks typed converted

/-- A conversion is settled, and the text of a value that was converted to a boolean or cut into a
list is converted back to it. A run that has the exports of a run for its overrides therefore ends
in the same value, unless its text is empty: it is then the list of the empty text, and the empty
override counts as no value. -/
theorem conversion_stable (type : ValueType) (value typed : Value)
    (converted : value.convert? type = some typed) :
    typed.convert? type = some typed ∧
    (type = .boolean ∨ type = .list → value ≠ .undefined → (∀ items, value ≠ .list items) →
      ∃ written, typed.exported = some written ∧
        (Value.text written).convert? type = some typed ∧
        (written = [] → typed = .list [.text []]) ∧
        ∀ registry document first second, Reimports registry document first second →
          ∀ key before, document.Asks registry key type → first.items.get? key = some before →
            before.value = typed →
            ∃ after, second.items.get? key = some after ∧
              after.value = if written = [] then .text [] else typed) := by
  refine ⟨Value.convert?_settled type value typed converted, ?_⟩
  intro isWritten defined notList
  have given := (Value.hasType_of_convert? type value typed defined converted).given
  obtain ⟨written, exported, back⟩ :=
    Value.convert?_exported type isWritten value typed defined notList converted
  refine ⟨written, exported, back, ?_, ?_⟩
  · rintro rfl
    exact Value.eq_of_convert?_nil type isWritten typed back
  · intro registry document first second runs key before asks found isTyped
    obtain rfl : typed.display = written :=
      Option.some.inj ((Value.exported_of_given given).symm.trans exported)
    subst isTyped
    exact runs.exists_after key before found type asks given _ back

def letters : Document :=
  { nodes := [.item (under "array" .flag (.new ['L'] (some (.literal (.bare "a, b,".toList)))))]
    trailingNewline := true }

theorem conversion_stable_letters :
    (Value.text "a, b,".toList).convert? .list =
      some (.list [.text ['a'], .text ['b'], .text []]) ∧
    ∃ first second after, overriding [] letters = .ok first ∧
      first.environment = [(['L'], "a,b,".toList)] ∧
      overriding first.environment letters = .ok second ∧
      second.items.get? ['L'] = some after ∧
      after.value = .list [.text ['a'], .text ['b'], .text []] := by
  have converted : (Value.text "a, b,".toList).convert? .list =
      some (.list [.text ['a'], .text ['b'], .text []]) := rfl
  have ran : ∃ first second before, overriding [] letters = .ok first ∧
      first.environment = [(['L'], "a,b,".toList)] ∧
      overriding [(['L'], "a,b,".toList)] letters = .ok second ∧
      first.items.get? ['L'] = some before ∧
      before.value = .list [.text ['a'], .text ['b'], .text []] :=
    ⟨_, _, _, rfl, rfl, rfl, rfl, rfl⟩
  obtain ⟨first, second, before, once, exports, again, found, value⟩ := ran
  rw [← exports] at again
  have runs : Reimports (.withBuiltins []) letters first second := by
    refine ⟨⟨_, reaches_of_overriding [] letters _ once⟩,
      ⟨_, ?_, reaches_of_overriding _ letters _ again⟩⟩
    rw [exports]
    rfl
  obtain ⟨-, back⟩ := conversion_stable .list _ _ converted
  obtain ⟨written, exported, -, -, rerun⟩ := back (.inr rfl) (by simp) (by simp)
  obtain ⟨after, stays, same⟩ :=
    rerun _ _ first second runs ['L'] before ⟨_, _, rfl, rfl, rfl⟩ found value
  have isWritten : "a,b,".toList = written := Option.some.inj exported
  rw [← isWritten, if_neg (by decide)] at same
  exact ⟨converted, first, second, after, once, exports, again, stays, same⟩

def blankList : Document :=
  { nodes :=
      [.item { Item.new ['A'] (some (.literal (.quoted [' '] .double))) with
        above := [.decorated (.new
          [⟨[], "array".toList, .flag⟩, ⟨[], "optional".toList, .flag⟩])] }]
    trailingNewline := true }

/-- The list of the empty text is exported as the empty text, which is no value for a key. -/
theorem blank_list_not_reimported :
    (Value.text [' ']).convert? .list = some (.list [.text []]) ∧
    ∃ first second before after, overriding [] blankList = .ok first ∧
      overriding first.environment blankList = .ok second ∧
      first.items.get? ['A'] = some before ∧ second.items.get? ['A'] = some after ∧
      before.value = .list [.text []] ∧ after.value = .text [] ∧ after.value ≠ before.value := by
  refine ⟨rfl, _, _, _, _, rfl, rfl, rfl, rfl, rfl, rfl, ?_⟩
  rintro ⟨⟩

end Resolution

end Dotenv
