import Dotenv.Proofs.Action.Mirroring
import Dotenv.Proofs.Expression.Own
import Dotenv.Proofs.Keyed
import Dotenv.Proofs.Value.Likeness
/-!
# Expressions in scopes that are alike

Two scopes are alike when each key is the same in both, but for a plain text here and the value that
the text reads as there. An expression of the library's functions takes the same steps in both, and
comes to values that are alike: whatever a function does with a value, it does with its text.
-/

set_option autoImplicit false

namespace Dotenv

open Dotenv.Action (Mirrors Reflects SameEnd)

inductive Lookup.Alike (text : Text) : Lookup → Lookup → Prop where
  | overridden (given : Text) : Alike text (.overridden given) (.overridden given)
  | defined {value other : Value} (alike : value.Alike text other) :
    Alike text (.defined value) (.defined other)
  | typed : Alike text (.overridden text) (.defined (.ofBare text))
  | unknown : Alike text .unknown .unknown

/-- Two scopes that are alike as far as some keys go, or altogether when the keys are not known. -/
structure Scope.AlikeOn (text : Text) (reads : Option (List Text)) (scope other : Scope) :
    Prop where
  options : scope.options = { other.options with overrides := scope.options.overrides }
  envFlag : scope.envFlag = other.envFlag
  key : scope.key = other.key
  lookup : ∀ key, (∀ keys, reads = some keys → key ∈ keys) →
    Lookup.Alike text (scope.lookup key) (other.lookup key)
  environment : reads = none → scope.environment = other.environment

namespace Scope.AlikeOn

variable {text : Text} {scope other : Scope}

theorem anywhere (alike : scope.AlikeOn text none other) (reads : Option (List Text)) :
    scope.AlikeOn text reads other :=
  ⟨alike.options, alike.envFlag, alike.key, fun key _ => alike.lookup key (by simp),
    fun _ => alike.environment rfl⟩

theorem mono {keys fewer : List Text} (alike : scope.AlikeOn text (some keys) other)
    (included : ∀ key ∈ fewer, key ∈ keys) : scope.AlikeOn text (some fewer) other := by
  refine ⟨alike.options, alike.envFlag, alike.key, ?_, by simp⟩
  intro key member
  apply alike.lookup key
  rintro _ ⟨⟩
  exact included key (member fewer rfl)

theorem parts {first second : Option (List Text)}
    (alike : scope.AlikeOn text (do return (← first) ++ (← second)) other) :
    scope.AlikeOn text first other ∧ scope.AlikeOn text second other := by
  cases first with
  | none => exact ⟨alike.anywhere _, alike.anywhere _⟩
  | some keys =>
    cases second with
    | none => exact ⟨alike.anywhere _, alike.anywhere _⟩
    | some others =>
      constructor
      · exact alike.mono fun key member => List.mem_append_left others member
      · exact alike.mono fun key member => List.mem_append_right keys member

theorem forKey {reads : Option (List Text)} (alike : scope.AlikeOn text reads other) (key : Text) :
    (scope.forKey key).AlikeOn text reads (other.forKey key) :=
  ⟨alike.options, alike.envFlag, rfl, alike.lookup, alike.environment⟩

theorem strictRefs {reads : Option (List Text)} (alike : scope.AlikeOn text reads other) :
    scope.options.strictRefs = other.options.strictRefs := by
  rw [alike.options]

theorem currentEnv (plain : text.IsPlain) (alike : scope.AlikeOn text none other) :
    scope.currentEnv = other.currentEnv := by
  unfold Scope.currentEnv
  rw [alike.envFlag]
  cases other.envFlag with
  | none => rfl
  | some flag =>
    have same := alike.lookup flag (by simp)
    dsimp only
    generalize scope.lookup flag = here at same ⊢
    generalize other.lookup flag = there at same ⊢
    cases same with
    | overridden given => rfl
    | defined same => exact same.exported plain
    | typed => exact Value.Alike.typed.exported plain
    | unknown => rfl

end Scope.AlikeOn

structure Argument.Alike (text : Text) (argument other : Argument) : Prop where
  key : argument.key = other.key
  value : Reflects (Value.Alike text) argument.value other.value

def Bound.TakesAlike (text : Text) (bound : Bound) : Prop :=
  ∀ function arguments others scope other, scope.AlikeOn text bound.dependencies other →
    List.Forall₂ (Argument.Alike text) arguments others →
    Reflects (Value.Alike text) (bound.run ⟨function, arguments, scope⟩)
      (bound.run ⟨function, others, other⟩)

variable {text : Text}

namespace Invocation

variable (call other : Invocation)

theorem reflects_value
    (alike : List.Forall₂ (Argument.Alike text) call.arguments other.arguments) (index : Nat) :
    Reflects (Value.Alike text) (call.value index) (other.value index) := by
  rcases value_of_forall₂ call other alike index with
    ⟨argument, argument', same, here, there⟩ | ⟨here, there⟩
  · rw [here, there]
    exact same.value
  · rw [here, there]
    exact .pure (.same .undefined)

theorem reflects_text (plain : text.IsPlain)
    (alike : List.Forall₂ (Argument.Alike text) call.arguments other.arguments) (index : Nat) :
    Reflects Eq (call.text index) (other.text index) :=
  (reflects_value call other alike index).bind fun _ _ same => .pure (same.display plain)

theorem reflects_values
    (alike : List.Forall₂ (Argument.Alike text) call.arguments other.arguments) :
    Reflects (List.Forall₂ (Value.Alike text)) call.values other.values := by
  apply Mirrors.allUnlessError
  rw [List.forall₂_map_left_iff, List.forall₂_map_right_iff]
  exact alike.imp fun _ _ same => same.value

end Invocation

namespace Resolver

theorem lookUp_overridden (scope : Scope) (key given : Text) (named : key ≠ [])
    (found : scope.lookup key = .overridden given) : lookUp scope key = pure (.text given) := by
  simp only [lookUp, if_neg named, found]

theorem lookUp_defined (scope : Scope) (key : Text) (value : Value) (named : key ≠ [])
    (found : scope.lookup key = .defined value) (defined : value.isUndefined = false) :
    lookUp scope key = pure value := by
  simp only [lookUp, if_neg named, found]
  cases value with
  | undefined => cases defined
  | _ => rfl

theorem reflects_lookUp (plain : text.IsPlain) (reads : Option (List Text)) (scope other : Scope)
    (alike : scope.AlikeOn text reads other) (key : Text)
    (read : ∀ keys, reads = some keys → key ∈ keys) :
    Reflects (Value.Alike text) (lookUp scope key) (lookUp other key) := by
  by_cases named : key = []
  · simp only [lookUp, if_pos named]
    exact .throw _
  · have same := alike.lookup key read
    have defined := Value.isUndefined_ofBare plain
    generalize here : scope.lookup key = found at same
    generalize there : other.lookup key = found' at same
    cases same with
    | overridden given =>
      rw [lookUp_overridden scope key given named here,
        lookUp_overridden other key given named there]
      exact .pure (.same _)
    | typed =>
      rw [lookUp_overridden scope key text named here,
        lookUp_defined other key _ named there defined]
      exact .pure .typed
    | defined alikeValues =>
      cases alikeValues with
      | same =>
        simp only [lookUp, if_neg named, here, there, alike.strictRefs]
        exact .refl Value.Alike.same _
      | typed =>
        rw [lookUp_defined scope key _ named here rfl, lookUp_defined other key _ named there defined]
        exact .pure .typed
    | unknown =>
      simp only [lookUp, if_neg named, here, there, alike.strictRefs]
      exact .refl Value.Alike.same _

theorem reflects_firstMatch (plain : text.IsPlain) (wanted : Text) (arguments others : List Argument)
    (alike : List.Forall₂ (Argument.Alike text) arguments others) :
    Reflects Eq (firstMatch wanted arguments) (firstMatch wanted others) := by
  induction alike with
  | nil => exact .pure rfl
  | @cons first second more others same rest ih =>
    refine same.value.bind fun candidate candidate' alike => ?_
    rw [same.key, alike.exported plain]
    cases second.key with
    | none => exact ih
    | some key =>
      by_cases matched : candidate'.exported = some wanted
      · simp only [matched, if_true]
        exact .pure rfl
      · simp only [matched, if_false]
        exact ih

theorem reflects_lenient {attempt other : Attempt Value}
    (reflects : Reflects (Value.Alike text) attempt other) :
    Reflects (Value.Alike text) (lenient attempt) (lenient other) := by
  refine Mirrors.bind reflects fun result result' same => ?_
  cases same with
  | ok alike => exact .done (.ok alike)
  | error error => cases error <;> first | exact .done (.error _) | exact .done (.ok (.same _))

theorem reflects_firstAccepted (accepts : Value → Bool)
    (blind : ∀ value other, value.Alike text other → accepts value = accepts other)
    (arguments others : List Argument)
    (alike : List.Forall₂ (Argument.Alike text) arguments others) :
    Reflects (Value.Alike text) (firstAccepted accepts arguments) (firstAccepted accepts others) := by
  induction alike with
  | nil => exact .pure (.same _)
  | @cons first second more others same rest ih =>
    refine (reflects_lenient same.value).bind fun value value' alike => ?_
    rw [blind value value' alike]
    by_cases accepted : accepts value' = true
    · simp only [accepted, if_true]
      exact .pure alike
    · simp only [accepted]
      exact ih

theorem reflects_isForEnv (plain : text.IsPlain) (function : Text) {arguments others : List Argument}
    {scope other : Scope} (alike : scope.AlikeOn text none other)
    (same : List.Forall₂ (Argument.Alike text) arguments others) :
    Reflects (Value.Alike text) (isForEnv ⟨function, arguments, scope⟩)
      (isForEnv ⟨function, others, other⟩) := by
  have values := Invocation.reflects_values ⟨function, arguments, scope⟩
    ⟨function, others, other⟩ same
  unfold isForEnv
  simp only [alike.envFlag, alike.currentEnv plain]
  cases other.envFlag with
  | none => exact .throw _
  | some flag =>
    cases other.currentEnv with
    | none => exact .pure (.same _)
    | some current =>
      refine values.bind fun values values' each => ?_
      have compared : values.any (fun value => value.display == current) =
          values'.any (fun value => value.display == current) := by
        induction each with
        | nil => rfl
        | cons first rest ih => simp only [List.any_cons, first.display plain, ih]
      rw [compared]
      exact .pure (.same _)

theorem reflects_joined (plain : text.IsPlain) {call other : Invocation}
    (values : Reflects (List.Forall₂ (Value.Alike text)) call.values other.values) :
    Reflects (Value.Alike text) (joined call) (joined other) := by
  refine values.bind fun values values' each => ?_
  have same : values.flatMap Value.display = values'.flatMap Value.display := by
    induction each with
    | nil => rfl
    | cons first rest ih => simp only [List.flatMap_cons, first.display plain, ih]
  rw [same]
  exact .pure (.same _)

theorem reflects_replaced (plain : text.IsPlain) {call other : Invocation}
    (alike : List.Forall₂ (Argument.Alike text) call.arguments other.arguments) :
    Reflects (Value.Alike text) (replaced call) (replaced other) := by
  refine (Invocation.reflects_value call other alike 0).bind fun value value' same => ?_
  rw [same.isUndefined plain]
  by_cases undefined : value'.isUndefined = true
  · simp only [undefined, if_true]
    exact .pure (.same _)
  · simp only [undefined]
    refine (Invocation.reflects_text call other plain alike 1).bind ?_
    rintro search _ rfl
    refine (Invocation.reflects_text call other plain alike 2).bind ?_
    rintro replacement _ rfl
    rw [same.display plain]
    exact .pure (.same _)

theorem reflects_remapped (plain : text.IsPlain) {call other : Invocation}
    (alike : List.Forall₂ (Argument.Alike text) call.arguments other.arguments) :
    Reflects (Value.Alike text) (remapped call) (remapped other) := by
  refine (Invocation.reflects_value call other alike 0).bind fun value value' same => ?_
  rw [same.exported plain]
  cases value'.exported with
  | none => exact .pure same
  | some wanted =>
    refine (reflects_firstMatch plain wanted _ _ (List.forall₂_drop 1 alike)).bind ?_
    rintro found _ rfl
    cases found with
    | none => exact .pure same
    | some key => exact .pure (.same _)

theorem runScript_alike {scope other : Scope} (alike : scope.AlikeOn text none other)
    (script : Text) : runScript scope script = runScript other script := by
  simp only [runScript, alike.key, alike.environment rfl]
  rw [alike.options]

end Resolver

theorem Bound.IsLibrary.takesAlike (plain : text.IsPlain) {bound : Bound}
    (library : bound.IsLibrary) : bound.TakesAlike text := by
  intro function arguments others scope other alike same
  have given := Invocation.reflects_text ⟨function, arguments, scope⟩ ⟨function, others, other⟩
    plain same
  have values := Invocation.reflects_values ⟨function, arguments, scope⟩
    ⟨function, others, other⟩ same
  cases library with
  | refTo key =>
    refine Resolver.reflects_lookUp plain (some [key]) scope other alike key ?_
    rintro _ ⟨⟩
    exact List.mem_cons_self
  | refComputed =>
    refine (given 0).bind ?_
    rintro key _ rfl
    exact Resolver.reflects_lookUp plain none scope other alike key (by simp)
  | forEnv => exact Resolver.reflects_isForEnv plain function alike same
  | concat => exact Resolver.reflects_joined plain values
  | replace => exact Resolver.reflects_replaced plain same
  | remap => exact Resolver.reflects_remapped plain same
  | fallback =>
    refine Resolver.reflects_firstAccepted _ ?_ arguments others same
    intro value other alike
    rw [alike.isEmpty plain]
  | coalesce =>
    refine Resolver.reflects_firstAccepted _ ?_ arguments others same
    intro value other alike
    rw [alike.isUndefined plain]
  | exec =>
    refine (given 0).bind ?_
    rintro script _ rfl
    rw [Resolver.runScript_alike alike script]
    exact .refl Value.Alike.same _
  | secret name store =>
    refine (given 0).bind ?_
    rintro key _ rfl
    exact .refl Value.Alike.same _

/-! ## Expressions -/

mutual

theorem Expr.reflects_evaluate (scope other : Scope) :
    ∀ expr : Expr, expr.EachBound (Bound.TakesAlike text) →
      scope.AlikeOn text expr.dependencies other →
      Reflects (Value.Alike text) (expr.evaluate scope) (expr.evaluate other)
  | .literal value, _, _ => .pure (.same value)
  | .call name _ _ args, takes, alike =>
    takes.1 name _ _ scope other alike.parts.1
      (Exprs.alike_arguments scope other args takes.2 alike.parts.2)

theorem Exprs.alike_arguments (scope other : Scope) :
    ∀ exprs : Exprs, exprs.EachBound (Bound.TakesAlike text) →
      scope.AlikeOn text exprs.dependencies other →
      List.Forall₂ (Argument.Alike text) (exprs.arguments scope) (exprs.arguments other)
  | .nil, _, _ => .nil
  | .cons _ value rest, takes, alike =>
    .cons ⟨rfl, Expr.reflects_evaluate scope other value takes.1 alike.parts.1⟩
      (Exprs.alike_arguments scope other rest takes.2 alike.parts.2)

end

/-! ## Overridden scopes

A key that is overridden here with a plain text, and there has the value that the text reads as. Such
scopes are alike once the key is defined. Before that they are alike as far as the other keys go. -/

theorem Options.overrides_withOverrides (options : Options) (key text : Text) :
    (options.withOverrides [(key, text)]).overrides = options.overrides.set key text := rfl

structure Scope.StandsIn (key text : Text) (scope other : Scope) : Prop where
  options : scope.options = other.options.withOverrides [(key, text)]
  absent : other.options.overrides.get? key = none
  envFlag : scope.envFlag = other.envFlag
  current : scope.key = other.key
  values : scope.values.Alike (Value.Alike text) other.values

namespace Scope.StandsIn

variable {key : Text} {scope other : Scope}

theorem insert (stands : scope.StandsIn key text other) (next : Text) {value value' : Value}
    (alike : value.Alike text value') :
    (scope.insert next value).StandsIn key text (other.insert next value') :=
  ⟨stands.options, stands.absent, stands.envFlag, stands.current, stands.values.set next alike⟩

theorem overrides_get? (stands : scope.StandsIn key text other) (wanted : Text) :
    scope.options.overrides.get? wanted =
      if key = wanted then some text else other.options.overrides.get? wanted := by
  rw [stands.options, Options.overrides_withOverrides, Keyed.get?_set]

theorem lookup_of_ne (stands : scope.StandsIn key text other) (wanted : Text)
    (differs : key ≠ wanted) :
    Lookup.Alike text (scope.lookup wanted) (other.lookup wanted) := by
  unfold Scope.lookup
  rw [stands.overrides_get? wanted, if_neg differs]
  cases other.options.overrides.get? wanted with
  | some given => exact .overridden given
  | none =>
    have found := stands.values.get? wanted
    cases here : scope.values.get? wanted with
    | none =>
      cases there : other.values.get? wanted with
      | none => exact .unknown
      | some value =>
        rw [here, there] at found
        cases found
    | some value =>
      cases there : other.values.get? wanted with
      | none =>
        rw [here, there] at found
        cases found
      | some value' =>
        rw [here, there] at found
        cases found with
        | some alike => exact .defined alike

theorem alikeOn (stands : scope.StandsIn key text other) (reads : List Text)
    (unread : key ∉ reads) : scope.AlikeOn text (some reads) other := by
  refine ⟨?_, stands.envFlag, stands.current, ?_, by simp⟩
  · rw [stands.options]
    rfl
  · intro wanted read
    apply stands.lookup_of_ne wanted
    rintro rfl
    exact unread (read reads rfl)

theorem exported_alike (plain : text.IsPlain) (values others : Keyed Value)
    (alike : values.Alike (Value.Alike text) others) :
    (values.filterMap fun entry => entry.2.exported.map fun text => (entry.1, text)) =
      others.filterMap fun entry => entry.2.exported.map fun text => (entry.1, text) := by
  induction alike with
  | nil => rfl
  | cons same rest ih => simp only [List.filterMap_cons, same.1, same.2.exported plain, ih]

theorem alike (plain : text.IsPlain) (stands : scope.StandsIn key text other)
    (defined : other.values.get? key = some (.ofBare text)) : scope.AlikeOn text none other := by
  refine ⟨?_, stands.envFlag, stands.current, ?_, fun _ => ?_⟩
  · rw [stands.options]
    rfl
  · intro wanted _
    by_cases same : key = wanted
    · subst same
      unfold Scope.lookup
      rw [stands.overrides_get? key, if_pos rfl, stands.absent, defined]
      exact .typed
    · exact stands.lookup_of_ne wanted same
  · have exported : (Value.ofBare text).exported = some text := by
      rw [Value.exported, Value.isUndefined_ofBare plain, Value.display_ofBare plain]
      rfl
    unfold Scope.environment
    rw [exported_alike plain scope.values other.values stands.values, stands.options,
      Options.overrides_withOverrides]
    apply Keyed.setAll_set_of_found key text
    · exact stands.absent
    · exact Keyed.get?_filterMap_of_found Value.exported key other.values _ text defined exported

end Scope.StandsIn

end Dotenv
