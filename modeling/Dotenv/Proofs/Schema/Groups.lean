import Dotenv.Proofs.Success
import Dotenv.Schema.Reading
/-!
# Decorators that are checked together

Decorators are checked in groups, and a group is read up to its first fault. So what is wrong with a
decorator alone is reported of all decorators of an item or of a header, unless a decorator before it
in its group is wrong alone, or two before it exclude each other: then that is reported in its place.
-/

set_option autoImplicit false

namespace Dotenv

/-! ## Groups -/

def Setter.label {α : Type} (setter : Setter α) : Text := setter.name.toList

namespace Schema

/-- The decorators that are read one after the other up to the first fault, in this order. -/
def groups : List (List Text) :=
  ["defaultRequired".toList, "defaultSensitive".toList, "envFlag".toList] ::
    [ItemSchema.priorities.map Setter.label, ItemSchema.sensitivities.map Setter.label,
      ItemSchema.types.map Setter.label]

def Precedes (first second : Text) : Prop := ∃ group ∈ groups, [first, second].Sublist group

instance (first second : Text) : Decidable (Precedes first second) :=
  inferInstanceAs (Decidable (∃ group ∈ groups, [first, second].Sublist group))

/-- Faults that are found before a decorator is looked at: one before it in its group is wrong by
itself, or two before it exclude each other. -/
inductive Hides (wrongAlone : Decorator → SchemaError → Prop) (decorators : Keyed Decorator)
    (decorator : Decorator) : SchemaError → Prop where
  | wrong (other : Decorator) (error : SchemaError)
      (effect : decorators.get? other.name = some other)
      (earlier : Precedes other.name decorator.name) (wrong : wrongAlone other error) :
      Hides wrongAlone decorators decorator error
  | conflict (first second : Text) (firstSet : decorators.contains first = true)
      (secondSet : decorators.contains second = true) (order : Precedes first second)
      (earlier : Precedes second decorator.name) :
      Hides wrongAlone decorators decorator (.conflicting first second)

theorem Hides.imp {wrongAlone wider : Decorator → SchemaError → Prop}
    {decorators : Keyed Decorator} {decorator : Decorator} {error : SchemaError}
    (hides : Hides wrongAlone decorators decorator error)
    (widens : ∀ other error, wrongAlone other error → wider other error) :
    Hides wider decorators decorator error := by
  cases hides with
  | wrong other _ effect earlier wrong =>
    exact .wrong other error effect earlier (widens other error wrong)
  | conflict first second firstSet secondSet order earlier =>
    exact .conflict first second firstSet secondSet order earlier

/-- Checks of decorators that report what is wrong with each alone, or what hides it. -/
def Reports (errorsOf : Keyed Decorator → List SchemaError) : Prop :=
  ∀ (decorators : Keyed Decorator) (decorator : Decorator),
    (∀ name one, decorators.get? name = some one → one.name = name) →
    decorators.get? decorator.name = some decorator →
      ∀ error ∈ errorsOf [(decorator.name, decorator)], error ∈ errorsOf decorators ∨
        ∃ cover ∈ errorsOf decorators,
          Hides (fun other error => error ∈ errorsOf [(other.name, other)]) decorators decorator cover

theorem Reports.append {errorsOf others : Keyed Decorator → List SchemaError}
    (reports : Reports errorsOf) (othersReport : Reports others) :
    Reports fun decorators => errorsOf decorators ++ others decorators := by
  intro decorators decorator named effect error member
  rcases List.mem_append.mp member with inFirst | inSecond
  · rcases reports decorators decorator named effect error inFirst with found | ⟨cover, found, hides⟩
    · exact .inl (List.mem_append_left _ found)
    · refine .inr ⟨cover, List.mem_append_left _ found, hides.imp ?_⟩
      exact fun _ _ wrong => List.mem_append_left _ wrong
  · rcases othersReport decorators decorator named effect error inSecond with found | ⟨cover, found, hides⟩
    · exact .inl (List.mem_append_right _ found)
    · refine .inr ⟨cover, List.mem_append_right _ found, hides.imp ?_⟩
      exact fun _ _ wrong => List.mem_append_right _ wrong

end Schema

open Schema (Hides Precedes Reports)

/-! ## Single checks -/

theorem mem_errors_iff {α : Type} (checked : Checked α) (error : SchemaError) :
    error ∈ Checked.errors checked ↔ checked = .error error := by
  cases checked with
  | ok value => simp [Checked.errors]
  | error other => simp [Checked.errors, eq_comm]

theorem get?_alone (decorator : Decorator) (name : Text) :
    Keyed.get? name [(decorator.name, decorator)] =
      if decorator.name = name then some decorator else none := rfl

theorem ifThere_alone {α : Type} (decorator : Decorator) (name : String)
    (check : Decorator → Checked α) (error : SchemaError) :
    ifThere [(decorator.name, decorator)] name check = .error error ↔
      decorator.name = name.toList ∧ check decorator = .error error := by
  unfold ifThere
  rw [get?_alone]
  by_cases isNamed : decorator.name = name.toList
  · simp [isNamed, map_eq_error]
  · simp [isNamed]

theorem ifThere_foreign {α : Type} (decorator : Decorator) (name : String)
    (check : Decorator → Checked α) (foreign : decorator.name ≠ name.toList) :
    ifThere [(decorator.name, decorator)] name check = .ok none := by
  rw [ifThere, get?_alone, if_neg foreign]

theorem ifThere_of_effect {α : Type} (decorators : Keyed Decorator) (decorator : Decorator)
    (name : String) (check : Decorator → Checked α) (isNamed : decorator.name = name.toList)
    (effect : decorators.get? decorator.name = some decorator) :
    ifThere decorators name check = (check decorator).map some := by
  rw [isNamed] at effect
  rw [ifThere, effect]

theorem reports_ifThere {α : Type} (name : String) (check : Decorator → Checked α) :
    Reports fun decorators => Checked.errors (ifThere decorators name check) := by
  intro decorators decorator named effect error member
  obtain ⟨isNamed, fails⟩ := (ifThere_alone decorator name check error).mp
    ((mem_errors_iff _ error).mp member)
  refine .inl ((mem_errors_iff _ error).mpr ?_)
  rw [ifThere_of_effect decorators decorator name check isNamed effect, fails]
  rfl

/-! ## Decorators that exclude each other -/

namespace Setter

variable {α : Type} {registry : Registry} {decorators : Keyed Decorator} {unset : α}
  {chosen : Option (Text × Rule α)} {setter : Setter α} {rest : List (Setter α)}

theorem choose_of_error {error : SchemaError}
    (fails : switch registry setter.mayBeDynamic (decorators.get? setter.label) =
      .error error) : choose registry decorators unset chosen (setter :: rest) = .error error := by
  rw [label] at fails
  simp only [choose, fails]
  rfl

theorem choose_of_off
    (isOff : switch registry setter.mayBeDynamic (decorators.get? setter.label) = .ok .off) :
    choose registry decorators unset chosen (setter :: rest) =
      choose registry decorators unset chosen rest := by
  rw [label] at isOff
  simp only [choose, isOff]
  rfl

variable (unset chosen rest) in
theorem choose_of_set {found : Switch} (isSet : found ≠ .off)
    (switches : switch registry setter.mayBeDynamic (decorators.get? setter.label) =
      .ok found) :
    ∃ rule, choose registry decorators unset chosen (setter :: rest) =
      match chosen with
      | none => choose registry decorators unset (some (setter.label, rule)) rest
      | some (first, _) => .error (.conflicting first setter.label) := by
  rw [label] at switches
  cases found with
  | off => exact absurd rfl isSet
  | on =>
    refine ⟨.fixed setter.setting, ?_⟩
    simp only [choose, switches]
    cases chosen <;> rfl
  | dynamic expression =>
    refine ⟨.dynamic expression, ?_⟩
    simp only [choose, switches]
    cases chosen <;> rfl

theorem contains_of_set {found : Switch} (isSet : found ≠ .off) {mayBeDynamic : Bool} {name : Text}
    (switches : switch registry mayBeDynamic (decorators.get? name) = .ok found) :
    decorators.contains name = true := by
  unfold Keyed.contains
  cases isThere : decorators.get? name with
  | some decorator => rfl
  | none =>
    rw [isThere] at switches
    exact absurd (Except.ok.inj switches).symm isSet

variable (registry unset chosen rest) in
theorem choose_skip (decorator : Decorator) (front : List (Setter α))
    (absent : ∀ other ∈ front, decorator.name ≠ other.label) :
    choose registry [(decorator.name, decorator)] unset chosen (front ++ rest) =
      choose registry [(decorator.name, decorator)] unset chosen rest := by
  induction front with
  | nil => rfl
  | cons other more ih =>
    obtain ⟨first, others⟩ := List.forall_mem_cons.mp absent
    refine (choose_of_off ?_).trans (ih others)
    rw [get?_alone, if_neg first]
    rfl

variable (registry unset chosen) in
theorem choose_of_absent (decorator : Decorator) (setters : List (Setter α))
    (absent : ∀ other ∈ setters, decorator.name ≠ other.label) :
    ∃ rule, choose registry [(decorator.name, decorator)] unset chosen setters = .ok rule := by
  have skips := choose_skip registry unset chosen [] decorator setters absent
  rw [List.append_nil] at skips
  exact ⟨_, skips⟩

theorem choose_alone (decorator : Decorator) (front : List (Setter α)) (setter : Setter α)
    (back : List (Setter α)) (distinct : ((front ++ setter :: back).map Setter.name).Nodup)
    (isNamed : decorator.name = setter.label) (error : SchemaError) :
    choose registry [(decorator.name, decorator)] unset none (front ++ setter :: back) =
        .error error ↔
      switch registry setter.mayBeDynamic (some decorator) = .error error := by
  rw [List.map_append, List.map_cons, List.perm_middle.nodup_iff, List.nodup_cons] at distinct
  have foreign : ∀ other ∈ front ++ back, decorator.name ≠ other.label := by
    intro other member same
    apply distinct.1
    rw [String.toList_injective (isNamed.symm.trans same), ← List.map_append]
    exact List.mem_map_of_mem member
  obtain ⟨before, after⟩ := List.forall_mem_append.mp foreign
  have own : Keyed.get? setter.label [(decorator.name, decorator)] = some decorator := by
    rw [get?_alone, if_pos isNamed]
  rw [choose_skip registry unset none (setter :: back) decorator front before]
  cases switches : switch registry setter.mayBeDynamic (some decorator) with
  | error found => simp [choose_of_error (own.symm ▸ switches)]
  | ok found =>
    have succeeds : ∃ rule,
        choose registry [(decorator.name, decorator)] unset none (setter :: back) = .ok rule := by
      by_cases isOff : found = .off
      · rw [choose_of_off (own.symm ▸ isOff ▸ switches)]
        exact choose_of_absent registry unset none decorator back after
      · obtain ⟨rule, chooses⟩ := choose_of_set unset none back isOff (own.symm ▸ switches)
        rw [chooses]
        exact choose_of_absent registry unset _ decorator back after
    obtain ⟨rule, succeeds⟩ := succeeds
    rw [succeeds]
    simp

/-- What a group can end in before a member is read, given the names that count as read before some
of its members: one of these is wrong, or one is in conflict with what was set. -/
inductive Stops (registry : Registry) (decorators : Keyed Decorator) (names : List Text)
    (front : List (Setter α)) : SchemaError → Prop where
  | wrong (other : Setter α) (error : SchemaError) (member : other ∈ front)
      (fails : switch registry other.mayBeDynamic (decorators.get? other.label) = .error error) :
      Stops registry decorators names front error
  | conflict (first second : Text) (order : [first, second].Sublist (names ++ front.map label))
      (isMember : second ∈ front.map label) (firstSet : decorators.contains first = true)
      (secondSet : decorators.contains second = true) :
      Stops registry decorators names front (.conflicting first second)

theorem Stops.later {names before : List Text} {front : List (Setter α)} {other : Setter α}
    {error : SchemaError} (stops : Stops registry decorators names front error)
    (order : (names ++ front.map label).Sublist (before ++ (other :: front).map label)) :
    Stops registry decorators before (other :: front) error := by
  cases stops with
  | wrong one _ member fails => exact .wrong one error (List.mem_cons_of_mem other member) fails
  | conflict first second sublist isMember firstSet secondSet =>
    exact .conflict first second (sublist.trans order) (List.mem_cons_of_mem _ isMember) firstSet
      secondSet

variable (unset) in
theorem choose_of_wrong (setter : Setter α) (back : List (Setter α)) (error : SchemaError)
    (fails : switch registry setter.mayBeDynamic (decorators.get? setter.label) = .error error)
    (front : List (Setter α)) (isSet : ∀ one ∈ chosen, decorators.contains one.1 = true) :
    choose registry decorators unset chosen (front ++ setter :: back) = .error error ∨
      ∃ cover, choose registry decorators unset chosen (front ++ setter :: back) = .error cover ∧
        Stops registry decorators (chosen.map Prod.fst).toList front cover := by
  induction front generalizing chosen with
  | nil => exact .inl (choose_of_error fails)
  | cons other more ih =>
    rw [List.cons_append]
    cases switches : switch registry other.mayBeDynamic (decorators.get? other.label) with
    | error cover =>
      exact .inr ⟨cover, choose_of_error switches, .wrong other cover List.mem_cons_self switches⟩
    | ok found =>
      by_cases isOff : found = .off
      · rw [choose_of_off (isOff ▸ switches)]
        rcases ih isSet with ends | ⟨cover, ends, stops⟩
        · exact .inl ends
        · refine .inr ⟨cover, ends, stops.later ?_⟩
          exact (List.sublist_cons_self _ _).append_left _
      · have otherSet := contains_of_set isOff switches
        obtain ⟨rule, chooses⟩ := choose_of_set unset chosen (more ++ setter :: back) isOff switches
        rw [chooses]
        cases chosen with
        | none =>
          have onlyOther : ∀ one ∈ some (other.label, rule), decorators.contains one.1 = true := by
            intro one same
            cases same
            exact otherSet
          rcases ih onlyOther with ends | ⟨cover, ends, stops⟩
          · exact .inl ends
          · exact .inr ⟨cover, ends, stops.later (List.Sublist.refl _)⟩
        | some one =>
          have order : [one.1, other.label].Sublist (one.1 :: (other :: more).map label) :=
            ((List.nil_sublist _).cons_cons other.label).cons_cons one.1
          exact .inr ⟨_, rfl, .conflict one.1 other.label order List.mem_cons_self (isSet one rfl)
            otherSet⟩

end Setter

theorem reports_choose {α : Type} (registry : Registry) (unset : α) (setters : List (Setter α))
    (distinct : (setters.map Setter.name).Nodup) (isGroup : setters.map Setter.label ∈ Schema.groups) :
    Reports fun decorators =>
      Checked.errors (Setter.choose registry decorators unset none setters) := by
  intro decorators decorator named effect error member
  have fails := (mem_errors_iff _ error).mp member
  have isMember : ∃ setter ∈ setters, decorator.name = setter.label := by
    apply Classical.byContradiction
    intro missing
    have foreign : ∀ setter ∈ setters, decorator.name ≠ setter.label := by
      intro setter inGroup isNamed
      exact missing ⟨setter, inGroup, isNamed⟩
    obtain ⟨rule, succeeds⟩ := Setter.choose_of_absent registry unset none decorator setters foreign
    rw [succeeds] at fails
    cases fails
  obtain ⟨setter, inGroup, isNamed⟩ := isMember
  obtain ⟨front, back, rfl⟩ := List.append_of_mem inGroup
  have wrong := (Setter.choose_alone decorator front setter back distinct isNamed error).mp fails
  have own : Setter.switch registry setter.mayBeDynamic (decorators.get? setter.label) =
      .error error := by
    rw [← isNamed, effect, wrong]
  have precedes : ∀ name ∈ front.map Setter.label, Precedes name decorator.name := by
    intro name before
    refine ⟨_, isGroup, ?_⟩
    rw [List.map_append, List.map_cons, isNamed]
    exact (List.singleton_sublist.mpr before).append (List.cons_sublist_cons.mpr (List.nil_sublist _))
  have noneSet : ∀ one ∈ (none : Option (Text × Rule α)), decorators.contains one.1 = true := by
    intro one isThere
    cases isThere
  rcases Setter.choose_of_wrong unset setter back error own front noneSet with ends | ⟨cover, ends, stops⟩
  · exact .inl ((mem_errors_iff _ error).mpr ends)
  · refine .inr ⟨cover, (mem_errors_iff _ cover).mpr ends, ?_⟩
    cases stops with
    | wrong other _ before failsToo =>
      cases isThere : decorators.get? other.label with
      | none =>
        rw [isThere] at failsToo
        cases failsToo
      | some one =>
        have oneNamed := named other.label one isThere
        rw [isThere] at failsToo
        refine .wrong one cover (oneNamed.symm ▸ isThere) ?_ ?_
        · rw [oneNamed]
          exact precedes other.label (List.mem_map_of_mem before)
        · obtain ⟨upper, lower, isFront⟩ := List.append_of_mem before
          have isSetters : front ++ setter :: back = upper ++ other :: (lower ++ setter :: back) := by
            rw [isFront, List.append_assoc, List.cons_append]
          rw [isSetters] at distinct ⊢
          apply (mem_errors_iff _ cover).mpr
          exact (Setter.choose_alone one upper other _ distinct oneNamed cover).mpr failsToo
    | conflict first second order isMember firstSet secondSet =>
      refine .conflict first second firstSet secondSet ⟨_, isGroup, ?_⟩ (precedes second isMember)
      rw [List.map_append]
      exact order.trans (List.sublist_append_left _ _)

/-! ## The header -/

namespace RootSchema

theorem ofDecorators_eq_error_iff (decorators : Keyed Decorator) (error : SchemaError) :
    ofDecorators decorators = .error error ↔
      ifThere decorators "defaultRequired" requirement = .error error ∨
      (∃ required, ifThere decorators "defaultRequired" requirement = .ok required) ∧
        (ifThere decorators "defaultSensitive" secrecy = .error error ∨
        (∃ sensitive, ifThere decorators "defaultSensitive" secrecy = .ok sensitive) ∧
          ifThere decorators "envFlag" flag = .error error) := by
  unfold ofDecorators
  cases ifThere decorators "defaultRequired" requirement with
  | error first => simp [bind, Except.bind]
  | ok required =>
    cases ifThere decorators "defaultSensitive" secrecy with
    | error second => simp [bind, Except.bind]
    | ok sensitive => cases ifThere decorators "envFlag" flag <;> simp [bind, Except.bind, pure, Except.pure]

theorem hides_of_ifThere {α : Type} (decorators : Keyed Decorator) (decorator : Decorator)
    (named : ∀ name one, decorators.get? name = some one → one.name = name) (name : String)
    (check : Decorator → Checked α) (cover : SchemaError)
    (fails : ifThere decorators name check = .error cover)
    (earlier : Precedes name.toList decorator.name)
    (alone : ∀ one : Decorator, one.name = name.toList → check one = .error cover →
      ofDecorators [(one.name, one)] = .error cover) :
    Hides (fun other error => error ∈ Checked.errors (ofDecorators [(other.name, other)]))
      decorators decorator cover := by
  unfold ifThere at fails
  cases isThere : decorators.get? name.toList with
  | none =>
    rw [isThere] at fails
    cases fails
  | some one =>
    have oneNamed := named name.toList one isThere
    rw [isThere] at fails
    refine .wrong one cover (oneNamed.symm ▸ isThere) (oneNamed.symm ▸ earlier) ?_
    exact (mem_errors_iff _ cover).mpr (alone one oneNamed ((map_eq_error _ _ _).mp fails))

theorem requirement_alone (one : Decorator) (isNamed : one.name = "defaultRequired".toList)
    (error : SchemaError) (fails : requirement one = .error error) :
    ofDecorators [(one.name, one)] = .error error :=
  (ofDecorators_eq_error_iff _ error).mpr (.inl ((ifThere_alone one _ _ error).mpr ⟨isNamed, fails⟩))

theorem secrecy_alone (one : Decorator) (isNamed : one.name = "defaultSensitive".toList)
    (error : SchemaError) (fails : secrecy one = .error error) :
    ofDecorators [(one.name, one)] = .error error := by
  refine (ofDecorators_eq_error_iff _ error).mpr (.inr ⟨⟨none, ?_⟩, .inl ?_⟩)
  · apply ifThere_foreign
    rw [isNamed]
    decide
  · exact (ifThere_alone one _ _ error).mpr ⟨isNamed, fails⟩

theorem reports_ofDecorators :
    Reports fun decorators => Checked.errors (ofDecorators decorators) := by
  intro decorators decorator named effect error member
  have fails := (ofDecorators_eq_error_iff _ error).mp ((mem_errors_iff _ error).mp member)
  have ofWhole : ∀ {α : Type} (name : String) (check : Decorator → Checked α),
      ifThere [(decorator.name, decorator)] name check = .error error →
        decorator.name = name.toList ∧ ifThere decorators name check = .error error := by
    intro α name check alone
    obtain ⟨isNamed, wrong⟩ := (ifThere_alone decorator name check error).mp alone
    refine ⟨isNamed, ?_⟩
    rw [ifThere_of_effect decorators decorator name check isNamed effect, wrong]
    rfl
  have hiddenByFirst : Precedes "defaultRequired".toList decorator.name →
      ∀ cover, ifThere decorators "defaultRequired" requirement = .error cover →
        ∃ cover, cover ∈ Checked.errors (ofDecorators decorators) ∧ Hides
          (fun other error => error ∈ Checked.errors (ofDecorators [(other.name, other)]))
          decorators decorator cover := by
    intro earlier cover required
    have ends := (ofDecorators_eq_error_iff decorators cover).mpr (.inl required)
    exact ⟨cover, (mem_errors_iff _ cover).mpr ends, hides_of_ifThere decorators decorator named _ _
      cover required earlier fun one isNamed => requirement_alone one isNamed cover⟩
  rcases fails with first | ⟨-, second | ⟨-, third⟩⟩
  · obtain ⟨-, fails⟩ := ofWhole _ _ first
    have ends := (ofDecorators_eq_error_iff decorators error).mpr (.inl fails)
    exact .inl ((mem_errors_iff _ error).mpr ends)
  · obtain ⟨isNamed, fails⟩ := ofWhole _ _ second
    cases required : ifThere decorators "defaultRequired" requirement with
    | error cover => exact .inr (hiddenByFirst (isNamed ▸ by decide) cover required)
    | ok answer =>
      have ends := (ofDecorators_eq_error_iff decorators error).mpr
        (.inr ⟨⟨answer, required⟩, .inl fails⟩)
      exact .inl ((mem_errors_iff _ error).mpr ends)
  · obtain ⟨isNamed, fails⟩ := ofWhole _ _ third
    cases required : ifThere decorators "defaultRequired" requirement with
    | error cover => exact .inr (hiddenByFirst (isNamed ▸ by decide) cover required)
    | ok answer =>
      cases sensitive : ifThere decorators "defaultSensitive" secrecy with
      | error cover =>
        have ends := (ofDecorators_eq_error_iff decorators cover).mpr
          (.inr ⟨⟨answer, required⟩, .inl sensitive⟩)
        exact .inr ⟨cover, (mem_errors_iff _ cover).mpr ends, hides_of_ifThere decorators decorator
          named _ _ cover sensitive (isNamed ▸ by decide)
          fun one isNamed => secrecy_alone one isNamed cover⟩
      | ok hidden =>
        have ends := (ofDecorators_eq_error_iff decorators error).mpr
          (.inr ⟨⟨answer, required⟩, .inr ⟨⟨hidden, sensitive⟩, fails⟩⟩)
        exact .inl ((mem_errors_iff _ error).mpr ends)

end RootSchema

/-! ## Items -/

namespace ItemSchema

def decoratorErrors (registry : Registry) (decorators : Keyed Decorator) : List SchemaError :=
  let least := ifThere decorators "min" Decorator.number
  let most := ifThere decorators "max" Decorator.number
  Checked.errors (Setter.choose registry decorators .unset none priorities) ++
    (Checked.errors (Setter.choose registry decorators .unset none sensitivities) ++
    (Checked.errors (Setter.choose registry decorators none none types) ++
    (Checked.errors (ifThere decorators "pattern" (Decorator.pattern registry)) ++
    (Checked.errors (ifThere decorators "enum" Decorator.enumeration) ++
    (Checked.errors least ++ (Checked.errors most ++
    (rangeErrors (Checked.getD least none) (Checked.getD most none) ++
    (Checked.errors (ifThere decorators "desc" Decorator.text) ++
    (Checked.errors (ifThere decorators "example" Decorator.text) ++
    Checked.errors (ifThere decorators "alias" Decorator.texts))))))))))

def faults (registry : Registry) (item : Item) : List SchemaError :=
  Checked.errors (valueOf registry item) ++ decoratorErrors registry item.decoratorsByName

theorem ofItem_eq_error_iff (registry : Registry) (item : Item) (errors : List SchemaError) :
    ofItem registry item = .error errors ↔ errors = faults registry item ∧ errors ≠ [] := by
  simp only [ofItem, List.append_assoc]
  change (if faults registry item = [] then Except.ok _ else .error (faults registry item)) =
    .error errors ↔ _
  by_cases none : faults registry item = []
  · rw [if_pos none]
    constructor
    · intro same
      cases same
    · intro same
      exact absurd (same.1.trans none) same.2
  · simp only [if_neg none, Except.error.injEq]
    constructor
    · intro same
      exact ⟨same.symm, same ▸ none⟩
    · intro same
      exact same.1.symm

theorem reports_range : Reports fun decorators =>
    rangeErrors (Checked.getD (ifThere decorators "min" Decorator.number) none)
      (Checked.getD (ifThere decorators "max" Decorator.number) none) := by
  intro decorators decorator named effect error member
  exfalso
  dsimp only at member
  by_cases isMin : decorator.name = "min".toList
  · have notMax : decorator.name ≠ "max".toList := by
      rw [isMin]
      decide
    rw [ifThere_foreign decorator "max" Decorator.number notMax, rangeErrors] at member
    · cases member
    · intro _ _ _ isSome
      cases isSome
  · rw [ifThere_foreign decorator "min" Decorator.number isMin, rangeErrors] at member
    · cases member
    · intro _ _ isSome
      cases isSome

theorem reports_decoratorErrors (registry : Registry) : Reports (decoratorErrors registry) :=
  (reports_choose registry _ priorities (by decide) (by decide)).append <|
  (reports_choose registry _ sensitivities (by decide) (by decide)).append <|
  (reports_choose registry _ types (by decide) (by decide)).append <|
  (reports_ifThere _ _).append <| (reports_ifThere _ _).append <| (reports_ifThere _ _).append <|
  (reports_ifThere _ _).append <| reports_range.append <| (reports_ifThere _ _).append <|
  (reports_ifThere _ _).append <| reports_ifThere _ _

end ItemSchema

end Dotenv
