import Dotenv.Proofs.Resolution.Definition
import Dotenv.Proofs.Value.Keeping
/-!
# Values that are listed

An enumeration lists texts, and the text of the converted value has to be one of them. A bare value
that is written as one of the bare arguments is accepted where the conversion keeps its text.
-/

set_option autoImplicit false

namespace Dotenv

/-! ## What an item lists -/

theorem Decorator.mem_literals (name : Text) (args : Args) (texts : List Text)
    (lists : literals name args = .ok texts) (literal : Literal)
    (member : ⟨none, .literal literal⟩ ∈ args.toList) : literal.scalar.display ∈ texts := by
  fun_induction literals name args generalizing texts with
  | case1 => cases member
  | case2 written rest ih =>
    cases others : literals name rest with
    | error error =>
      rw [others] at lists
      cases lists
    | ok more =>
      rw [others] at lists
      cases lists
      rcases List.mem_cons.mp member with same | member
      · cases same
        exact List.mem_cons_self
      · exact List.mem_cons_of_mem _ (ih more others member)
  | case3 => cases lists

namespace ItemSchema

theorem allowed_of_ofItem (registry : Registry) (item : Item) (decorator : Decorator)
    (found : item.decoratorsByName.get? "enum".toList = some decorator) (schema : ItemSchema)
    (compiled : ofItem registry item = .ok schema) :
    ∃ allowed, decorator.enumeration = .ok allowed ∧ schema.allowed = some allowed := by
  have isThere : ifThere item.decoratorsByName "enum" Decorator.enumeration =
      decorator.enumeration.map some := by
    rw [ifThere, found]
  simp only [ofItem, isThere] at compiled
  split at compiled
  · next noErrors =>
    simp only [List.append_eq_nil_iff] at noErrors
    cases lists : decorator.enumeration with
    | error error =>
      rw [lists] at noErrors
      simp [Checked.errors, Except.map] at noErrors
    | ok allowed =>
      rw [lists] at compiled
      cases compiled
      exact ⟨allowed, rfl, rfl⟩
  · cases compiled

theorem enumeration_mem_constraintErrors_iff (item : ItemSchema) (value : Value)
    (texts : List Text) : ItemError.enumeration texts ∈ item.constraintErrors value ↔
      item.allowed = some texts ∧ value.display ∉ texts := by
  rw [constraintErrors, List.mem_append, List.mem_append, or_iff_left, or_iff_right]
  rotate_left
  · cases item.pattern with
    | none => simp
    | some pattern => cases found : pattern.isFoundIn value.display <;> simp [found]
  · cases item.isInRange (measure value) <;> simp
  cases item.allowed with
  | none => simp
  | some allowed =>
    by_cases listed : value.display ∈ allowed
    · have isAllowed : allowed.contains value.display = true := List.contains_iff_mem.mpr listed
      simp only [isAllowed, if_true, List.not_mem_nil, Option.some.injEq, false_iff, not_and,
        not_not]
      rintro rfl
      exact listed
    · have notAllowed : ¬ allowed.contains value.display = true := mt List.contains_iff_mem.mp listed
      simp only [if_neg notAllowed, List.mem_singleton, ItemError.enumeration.injEq,
        Option.some.injEq]
      constructor
      · rintro rfl
        exact ⟨rfl, listed⟩
      · exact fun same => same.1.symm

theorem enumeration_not_mem_check_iff (item : ItemSchema) (value : Value) (isRequired : Bool)
    (typed : Value) (converted : item.typed? value = some typed) (allowed : List Text)
    (lists : item.allowed = some allowed) :
    (∀ texts, ItemError.enumeration texts ∉ (item.check value isRequired).2) ↔
      value.isEmpty = true ∨ typed.display ∈ allowed := by
  cases empty : value.isEmpty with
  | true =>
    refine iff_of_true ?_ (.inl rfl)
    intro texts
    rw [check, empty]
    cases isRequired <;> simp
  | false =>
    simp only [check, empty, converted, Bool.false_eq_true, if_false, false_or,
      enumeration_mem_constraintErrors_iff, lists, Option.some.injEq, not_and, not_not]
    exact forall_eq'

end ItemSchema

/-! ## Runs -/

namespace Resolution

/-- A bare value that is one of the bare arguments of its enumeration has its text listed. Where it
can be converted, it is accepted if it is undefined or its converted text is listed, as it is where
the type keeps the text. A list keeps a text without a comma. -/
theorem listed_accepted_iff (registry : Registry) (settings : Options) (document : Document)
    (resolution : Resolution)
    (ends : (ofDocument registry settings document).run.Reaches (.ok resolution))
    (key : Text) (resolved : ResolvedItem) (member : (key, resolved) ∈ resolution.items)
    (free : settings.overrides.get? key = none) (item : Item)
    (isLast : document.item? key = some item) (literal : Literal) (bare : literal.quote = none)
    (isValue : item.value = some (.literal literal)) (decorator : Decorator)
    (found : item.decoratorsByName.get? "enum".toList = some decorator) (args : Args)
    (source : Option Text) (enumerates : decorator.setting = .call args source)
    (listed : ⟨none, .literal literal⟩ ∈ args.toList) :
    ∃ schema allowed, ItemSchema.ofItem registry item = .ok schema ∧
      schema.allowed = some allowed ∧ literal.scalar.display ∈ allowed ∧
      ∀ typed, schema.typed? (.ofScalar literal.scalar) = some typed →
        ((∀ texts, ItemError.enumeration texts ∉ resolved.errors) ↔
          literal.scalar = .undefined ∨ typed.display ∈ allowed) ∧
        (literal.scalar ≠ .undefined →
          (typed.display = literal.scalar.display ↔ literal.scalar.KeepsText schema.type)) ∧
        (literal.scalar.KeepsText schema.type →
          ∀ texts, ItemError.enumeration texts ∉ resolved.errors) ∧
        (schema.type = some .list → ',' ∉ literal.raw →
          ∀ texts, ItemError.enumeration texts ∉ resolved.errors) := by
  obtain ⟨other, entry, leaves⟩ :=
    leaves_of_mem registry settings document resolution ends key resolved member
  obtain rfl := Option.some.inj (isLast.symm.trans leaves.isLast)
  obtain ⟨allowed, lists, isAllowed⟩ :=
    ItemSchema.allowed_of_ofItem registry item decorator found entry.item leaves.compiled
  have texts : Decorator.literals decorator.name args = .ok allowed := by
    rw [← lists, Decorator.enumeration, enumerates]
  have inTexts := Decorator.mem_literals decorator.name args allowed texts literal listed
  have isLiteral : entry.item.value = .literal (.ofScalar literal.scalar) := by
    apply ItemSchema.value_of_valueOf registry item _ _ entry.item leaves.compiled
    rw [ItemSchema.valueOf, isValue]
    rfl
  have unset : entry.scope.options.overrides.get? entry.item.key = none := by
    rw [leaves.options, leaves.ofKey, free]
  have result := Progress.reaches_evaluateItem_literal entry.scope entry.item _ isLiteral unset _
    leaves.reached
  obtain ⟨root, final, decides⟩ := leaves.decides
  obtain ⟨isRequired, -, errors⟩ := entry.checked_of_decides root final resolved decides _ result
  refine ⟨entry.item, allowed, leaves.compiled, isAllowed, inTexts, ?_⟩
  intro typed converted
  have accepts : (∀ texts, ItemError.enumeration texts ∉ resolved.errors) ↔
      literal.scalar = .undefined ∨ typed.display ∈ allowed := by
    simp only [errors, entry.item.enumeration_not_mem_check_iff _ isRequired typed converted allowed
      isAllowed, literal.isEmpty_scalar_iff bare]
  have keeps : literal.scalar ≠ .undefined →
      (typed.display = literal.scalar.display ↔ literal.scalar.KeepsText entry.item.type) := by
    intro defined
    rcases literal.scalar_cases bare with ⟨-, none⟩ | ⟨-, isBare, -⟩
    · exact absurd none defined
    · exact literal.scalar.display_typed_iff isBare entry.item typed converted
  have kept : literal.scalar.KeepsText entry.item.type →
      ∀ texts, ItemError.enumeration texts ∉ resolved.errors := by
    intro same
    rw [accepts, or_iff_not_imp_left]
    intro defined
    rw [(keeps defined).mpr same]
    exact inTexts
  refine ⟨accepts, keeps, kept, ?_⟩
  intro asked noComma
  apply kept
  rw [asked]
  exact literal.keepsText_list bare noComma

def listing (choices : List Text) : Decorator :=
  ⟨[], "enum".toList, .call (.positional (choices.map fun choice => .literal (.bare choice))) none⟩

def choosing (type : String) (choices : List Text) (value : Text) : Item :=
  { Item.new ['A'] (some (.literal (.bare value))) with
    above := [.decorated (.new [⟨[], type.toList, .flag⟩, listing choices])] }

def port : Item := choosing "number" ["80".toList, "443".toList] "443".toList

theorem listed_accepted_iff_port :
    ∃ resolution resolved, overriding [] ⟨[.item port], true⟩ = .ok resolution ∧
      resolution.items.get? ['A'] = some resolved ∧
      ∀ texts, ItemError.enumeration texts ∉ resolved.errors := by
  have ran : ∃ resolution resolved, overriding [] ⟨[.item port], true⟩ = .ok resolution ∧
      resolution.items.get? ['A'] = some resolved := ⟨_, _, rfl, rfl⟩
  obtain ⟨resolution, resolved, isResult, found⟩ := ran
  have ends := reaches_of_overriding [] ⟨[.item port], true⟩ _ isResult
  have member := Keyed.mem_of_get? ['A'] resolution.items resolved found
  have free : ((Options.ofEnvironment []).withOverrides []).overrides.get? ['A'] = none := rfl
  have isLast : Document.item? ⟨[.item port], true⟩ ['A'] = some port := by decide +kernel
  have isValue : port.value = some (.literal (.bare "443".toList)) := rfl
  have enumerated : port.decoratorsByName.get? "enum".toList =
      some (listing ["80".toList, "443".toList]) := by decide +kernel
  have accepted := listed_accepted_iff (.withBuiltins []) _ _ resolution ends ['A'] resolved member
    free port isLast (.bare "443".toList) rfl isValue _ enumerated _ none rfl (by decide)
  obtain ⟨schema, allowed, compiled, -, -, accepts⟩ := accepted
  cases compiled
  have isNumber : (Literal.bare "443".toList).scalar = .number (.ofNat 443) := by decide +kernel
  rw [isNumber] at accepts
  obtain ⟨-, -, kept, -⟩ := accepts (.number (.ofNat 443)) rfl
  exact ⟨resolution, resolved, isResult, found, kept ⟨_, rfl⟩⟩

def consent : Item := choosing "boolean" ["yes".toList, "no".toList] "yes".toList

/-- A word for a boolean may be listed, but what is compared is the text of the boolean. -/
theorem listed_word_refused :
    consent.value = some (.literal (.bare "yes".toList)) ∧
    consent.decoratorsByName.get? "enum".toList = some (listing ["yes".toList, "no".toList]) ∧
    (Value.text "yes".toList).convert? .boolean = some (.boolean true) ∧
    ∃ resolution resolved, overriding [] ⟨[.item consent], true⟩ = .ok resolution ∧
      resolution.items.get? ['A'] = some resolved ∧
      resolved.errors = [.enumeration ["yes".toList, "no".toList]] :=
  ⟨rfl, by decide +kernel, rfl, _, _, rfl, rfl, rfl⟩

end Resolution

end Dotenv
