import Dotenv.Proofs.Action.Endings
import Dotenv.Proofs.Expression.Own
/-!
# Strict references

With strict references a reference to a key that nothing defines is an error, and otherwise it is
undefined. That should only turn values into errors. It does so for every function but the
choices: a choice takes an argument for undefined when an unknown reference stops it anywhere
inside, where the same argument, not stopped, may have a value that the choice accepts. So an
expression keeps its value as long as no choice passes over such an argument.
-/

set_option autoImplicit false

namespace Dotenv

variable {α β ε : Type} {outside : Outside}

/-- When a first attempt succeeds, a second one does, with the same value. -/
def Within (outside : Outside) (first second : ExceptT ε Action α) : Prop :=
  ∀ value, first.run.answer outside = .ok value → second.run.answer outside = .ok value

namespace Within

theorem refl (attempt : ExceptT ε Action α) : Within outside attempt attempt :=
  fun _ ends => ends

theorem bind {first second : ExceptT ε Action α} {next after : α → ExceptT ε Action β}
    (within : Within outside first second)
    (each : ∀ value, Within outside (next value) (after value)) :
    Within outside (first >>= next) (second >>= after) := by
  intro result ends
  rw [Action.answer_ok_bind] at ends ⊢
  obtain ⟨value, firstEnds, nextEnds⟩ := ends
  exact ⟨value, within value firstEnds, each value result nextEnds⟩

end Within

namespace Scope

def withStrictRefs (scope : Scope) (strict : Bool) : Scope :=
  { scope with options := { scope.options with strictRefs := strict } }

variable (scope : Scope) (strict : Bool)

@[simp]
theorem strictRefs_withStrictRefs : (scope.withStrictRefs strict).options.strictRefs = strict := rfl

@[simp]
theorem lookup_withStrictRefs (key : Text) :
    (scope.withStrictRefs strict).lookup key = scope.lookup key := rfl

end Scope

/-! ## The functions other than choices -/

/-- An argument in two scopes, with the same key and no other values in the first. -/
structure Argument.Within (outside : Outside) (strict loose : Argument) : Prop where
  key : strict.key = loose.key
  value : Dotenv.Within outside strict.value loose.value

theorem Argument.succeed_of_within {strict loose : List Argument}
    (within : List.Forall₂ (Argument.Within outside) strict loose) (results : List Value)
    (each : List.Forall₂ (fun argument value => argument.value.run.answer outside = .ok value)
      strict results) :
    List.Forall₂ (fun argument value => argument.value.run.answer outside = .ok value)
      loose results := by
  induction within generalizing results with
  | nil => exact each
  | cons first rest ih =>
    cases each with
    | cons firstEnds restEnds => exact .cons (first.value _ firstEnds) (ih _ restEnds)

namespace Invocation

variable (strict loose : Invocation)

theorem within_value
    (within : List.Forall₂ (Argument.Within outside) strict.arguments loose.arguments)
    (index : Nat) : Within outside (strict.value index) (loose.value index) := by
  rcases value_of_forall₂ strict loose within index with
    ⟨argument, argument', same, here, there⟩ | ⟨here, there⟩
  · rw [here, there]
    exact same.value
  · rw [here, there]
    exact .refl _

theorem within_text
    (within : List.Forall₂ (Argument.Within outside) strict.arguments loose.arguments)
    (index : Nat) : Within outside (strict.text index) (loose.text index) :=
  .bind (within_value strict loose within index) fun _ => .refl _

theorem within_values
    (within : List.Forall₂ (Argument.Within outside) strict.arguments loose.arguments) :
    Within outside strict.values loose.values := by
  intro results ends
  have each := (Action.answer_allUnlessError_ok outside _ results).mp ends
  refine (Action.answer_allUnlessError_ok outside _ results).mpr ?_
  rw [List.forall₂_map_left_iff] at each ⊢
  exact Argument.succeed_of_within within results each

end Invocation

namespace Resolver

theorem lookUp_withStrictRefs (outside : Outside) (scope : Scope) (key : Text) :
    (lookUp (scope.withStrictRefs true) key = throw (.unknownReference key) ∧
      lookUp (scope.withStrictRefs false) key = pure .undefined) ∨
    (lookUp (scope.withStrictRefs true) key = lookUp (scope.withStrictRefs false) key ∧
      ∀ missing, (lookUp (scope.withStrictRefs true) key).run.answer outside ≠
        .error (.unknownReference missing)) := by
  by_cases empty : key = []
  · right
    simp only [lookUp, empty, if_true, true_and]
    intro missing stops
    cases stops
  · simp only [lookUp, empty, if_false, Scope.lookup_withStrictRefs,
      Scope.strictRefs_withStrictRefs]
    cases scope.lookup key with
    | overridden text => exact .inr ⟨rfl, by rintro _ ⟨⟩⟩
    | defined value => cases value <;> exact .inr ⟨rfl, by rintro _ ⟨⟩⟩
    | unknown => exact .inl ⟨rfl, rfl⟩

theorem within_lookUp (scope : Scope) (key : Text) :
    Within outside (lookUp (scope.withStrictRefs true) key)
      (lookUp (scope.withStrictRefs false) key) := by
  rcases lookUp_withStrictRefs outside scope key with ⟨stops, _⟩ | ⟨same, _⟩
  · rw [stops]
    intro value ends
    cases ends
  · rw [same]
    exact .refl _

theorem within_firstMatch (wanted : Text) (strict loose : List Argument)
    (within : List.Forall₂ (Argument.Within outside) strict loose) :
    Within outside (firstMatch wanted strict) (firstMatch wanted loose) := by
  induction within with
  | nil => exact .refl _
  | @cons first second more others same rest ih =>
    refine .bind same.value fun candidate => ?_
    rw [same.key]
    cases second.key with
    | none => exact ih
    | some key =>
      by_cases matched : candidate.exported = some wanted
      · simp only [matched, if_true]
        exact .refl _
      · simp only [matched, if_false]
        exact ih

theorem within_isForEnv (scope : Scope) {function : Text} {strict loose : List Argument}
    (within : List.Forall₂ (Argument.Within outside) strict loose) :
    Within outside (isForEnv ⟨function, strict, scope.withStrictRefs true⟩)
      (isForEnv ⟨function, loose, scope.withStrictRefs false⟩) := by
  change Within outside (isForEnv ⟨function, strict, scope⟩) (isForEnv ⟨function, loose, scope⟩)
  have values := Invocation.within_values ⟨function, strict, scope⟩ ⟨function, loose, scope⟩ within
  unfold isForEnv
  cases scope.envFlag with
  | none =>
    intro value ends
    cases ends
  | some flag =>
    cases scope.currentEnv with
    | none => exact .refl _
    | some current => exact .bind values fun _ => .refl _

end Resolver

/-! ## Choices -/

def Bound.choice (accepts : Value → Bool) : Bound :=
  ⟨some [], fun call => Resolver.firstAccepted accepts call.arguments⟩

theorem Bound.choice_injective (accepts other : Value → Bool)
    (same : Bound.choice accepts = Bound.choice other) : accepts = other := by
  funext value
  let failing : ResolutionError := .invalidValue []
  have runs := congrArg (fun bound => (bound.run
    ⟨[], [⟨none, pure value⟩, ⟨none, throw failing⟩], default⟩).run) same
  -- A choice among a value and a failure fails just when it does not accept the value.
  have ends : ∀ accepts : Value → Bool,
      ((Bound.choice accepts).run ⟨[], [⟨none, pure value⟩, ⟨none, throw failing⟩],
        default⟩).run = .done (if accepts value then .ok value else .error failing) := by
    intro accepts
    by_cases accepted : accepts value = true
    · simp only [accepted, if_true]
      change (if accepts value then pure value else _ : Attempt Value).run = _
      simp only [accepted, if_true]
      rfl
    · simp only [accepted]
      change (if accepts value then pure value else _ : Attempt Value).run = _
      simp only [accepted]
      rfl
  rw [ends accepts, ends other] at runs
  by_cases first : accepts value = true
  · by_cases second : other value = true
    · rw [first, second]
    · simp [first, second] at runs
  · by_cases second : other value = true
    · simp [first, second] at runs
    · rw [Bool.not_eq_true] at first second
      rw [first, second]

/-- Where an unknown reference stops an argument, the choice passes over undefined, and it passes
over the value that the argument has when references are not strict. -/
def Argument.Skipped (outside : Outside) (accepts : Value → Bool) (strict loose : Argument) :
    Prop :=
  ∀ key, strict.value.run.answer outside = .error (.unknownReference key) →
    accepts .undefined = false ∧
      ∃ value, loose.value.run.answer outside = .ok value ∧ accepts value = false

namespace Resolver

theorem answer_lenient (attempt : Attempt Value) (value : Value) :
    (lenient attempt).run.answer outside = .ok value ↔
      attempt.run.answer outside = .ok value ∨
        ∃ key, attempt.run.answer outside = .error (.unknownReference key) ∧
          value = .undefined := by
  change (attempt.run.bind _).answer outside = Except.ok value ↔ _
  rw [Action.answer_bind]
  cases ends : attempt.run.answer outside with
  | ok found => simp [Action.answer, pure]
  | error error => cases error <;> simp [Action.answer, pure, eq_comm]

theorem lenient_not_stopped (attempt : Attempt Value) (key : Text) :
    (lenient attempt).run.answer outside ≠ .error (.unknownReference key) := by
  intro stops
  refine absurd ((Action.answer_bind outside _ attempt.run).symm.trans stops) ?_
  cases attempt.run.answer outside with
  | ok found => simp [Action.answer, pure]
  | error error => cases error <;> simp [Action.answer, pure]

theorem within_firstAccepted (accepts : Value → Bool) (strict loose : List Argument)
    (within : List.Forall₂ (Argument.Within outside) strict loose)
    (skipped : List.Forall₂ (Argument.Skipped outside accepts) strict loose) :
    Within outside (firstAccepted accepts strict) (firstAccepted accepts loose) := by
  induction within with
  | nil => exact .refl _
  | @cons first second more others same rest ih =>
    cases skipped with
    | cons skips skipsRest =>
      intro result ends
      simp only [firstAccepted] at ends ⊢
      rw [Action.answer_ok_bind] at ends ⊢
      obtain ⟨value, firstEnds, chosen⟩ := ends
      rcases (answer_lenient first.value value).mp firstEnds with firstEnds | ⟨key, stops, rfl⟩
      · have secondEnds := same.value value firstEnds
        refine ⟨value, (answer_lenient second.value value).mpr (.inl secondEnds), ?_⟩
        by_cases accepted : accepts value = true
        · simp only [accepted, if_true] at chosen ⊢
          exact chosen
        · simp only [accepted] at chosen ⊢
          exact ih skipsRest result chosen
      · obtain ⟨passes, value, secondEnds, passesToo⟩ := skips key stops
        refine ⟨value, (answer_lenient second.value value).mpr (.inl secondEnds), ?_⟩
        simp only [passes, passesToo] at chosen ⊢
        exact ih skipsRest result chosen

end Resolver

/-- One call of one of the library's own functions: strict references give it no new value, where
they give its arguments none and a choice passes over the arguments that they stop. -/
theorem Bound.IsOwn.within {bound : Bound} (own : bound.IsOwn) (scope : Scope) (function : Text)
    (strict loose : List Argument)
    (within : List.Forall₂ (Argument.Within outside) strict loose)
    (skipped : ∀ accepts, bound = .choice accepts →
      List.Forall₂ (Argument.Skipped outside accepts) strict loose) :
    Within outside (bound.run ⟨function, strict, scope.withStrictRefs true⟩)
      (bound.run ⟨function, loose, scope.withStrictRefs false⟩) := by
  have value := Invocation.within_value ⟨function, strict, scope.withStrictRefs true⟩
    ⟨function, loose, scope.withStrictRefs false⟩ within
  have text := Invocation.within_text ⟨function, strict, scope.withStrictRefs true⟩
    ⟨function, loose, scope.withStrictRefs false⟩ within
  cases own with
  | refTo key => exact Resolver.within_lookUp scope key
  | refComputed => exact .bind (text 0) fun key => Resolver.within_lookUp scope key
  | forEnv => exact Resolver.within_isForEnv scope within
  | concat => exact .bind (Invocation.within_values _ _ within) fun _ => .refl _
  | replace =>
    refine .bind (value 0) fun first => ?_
    by_cases undefined : first.isUndefined = true
    · simp only [undefined, if_true]
      exact .refl _
    · simp only [undefined]
      exact .bind (text 1) fun _ => .bind (text 2) fun _ => .refl _
  | remap =>
    refine .bind (value 0) fun first => ?_
    cases first.exported with
    | none => exact .refl _
    | some wanted =>
      have others : List.Forall₂ (Argument.Within outside) (strict.drop 1) (loose.drop 1) :=
        List.forall₂_drop 1 within
      exact .bind (Resolver.within_firstMatch wanted _ _ others) fun _ => .refl _
  | choice accepts =>
    exact Resolver.within_firstAccepted accepts strict loose within (skipped accepts rfl)
  | exec => exact .bind (text 0) fun _ => .refl _
  | secret name store => exact .bind (text 0) fun _ => .refl _

/-! ## Expressions -/

mutual

/-- Every choice in an expression passes over the arguments that an unknown reference stops,
whether references are strict or not. -/
def Expr.Tolerant (outside : Outside) (scope : Scope) : Expr → Prop
  | .literal _ => True
  | .call _ _ bound args =>
    (∀ accepts, bound = .choice accepts →
      List.Forall₂ (Argument.Skipped outside accepts)
        (args.arguments (scope.withStrictRefs true))
        (args.arguments (scope.withStrictRefs false))) ∧
      args.Tolerant outside scope

def Exprs.Tolerant (outside : Outside) (scope : Scope) : Exprs → Prop
  | .nil => True
  | .cons _ value rest => value.Tolerant outside scope ∧ rest.Tolerant outside scope

end

mutual

theorem Expr.within_evaluate (scope : Scope) :
    ∀ expr : Expr, expr.EachBound Bound.IsOwn → expr.Tolerant outside scope →
      Within outside (expr.evaluate (scope.withStrictRefs true))
        (expr.evaluate (scope.withStrictRefs false))
  | .literal _, _, _ => .refl _
  | .call name _ _ args, own, tolerant =>
    own.1.within scope name _ _ (Exprs.within_arguments scope args own.2 tolerant.2) tolerant.1

theorem Exprs.within_arguments (scope : Scope) :
    ∀ exprs : Exprs, exprs.EachBound Bound.IsOwn → exprs.Tolerant outside scope →
      List.Forall₂ (Argument.Within outside) (exprs.arguments (scope.withStrictRefs true))
        (exprs.arguments (scope.withStrictRefs false))
  | .nil, _, _ => .nil
  | .cons _ value rest, own, tolerant =>
    .cons ⟨rfl, Expr.within_evaluate scope value own.1 tolerant.1⟩
      (Exprs.within_arguments scope rest own.2 tolerant.2)

end

/-! ## References with defaults -/

/-- A call of which references with defaults are made: a reference to a written key, or a choice
that passes over undefined. -/
inductive Bound.IsPlain : Bound → Prop where
  | refTo (key : Text) : IsPlain (Resolver.refTo key)
  | choice (accepts : Value → Bool) (passes : accepts .undefined = false) :
    IsPlain (.choice accepts)

theorem Bound.IsPlain.passes {bound : Bound} (plain : bound.IsPlain) (accepts : Value → Bool)
    (isChoice : bound = .choice accepts) : accepts .undefined = false := by
  cases plain with
  | refTo key => cases congrArg Bound.dependencies isChoice
  | choice other passes =>
    rw [← Bound.choice_injective other accepts isChoice]
    exact passes

theorem Resolver.firstAccepted_not_stopped (accepts : Value → Bool) (arguments : List Argument)
    (key : Text) :
    (firstAccepted accepts arguments).run.answer outside ≠ .error (.unknownReference key) := by
  induction arguments with
  | nil =>
    intro stops
    cases stops
  | cons argument rest ih =>
    intro stops
    simp only [firstAccepted, Action.answer_run_bind] at stops
    cases taken : (lenient argument.value).run.answer outside with
    | ok value =>
      rw [taken] at stops
      by_cases accepted : accepts value = true
      · simp only [Except.bind, accepted, if_true] at stops
        cases stops
      · simp only [Except.bind, accepted] at stops
        exact ih stops
    | error error =>
      rw [taken] at stops
      cases stops
      exact lenient_not_stopped argument.value key taken

/-- An unknown reference stops a reference with defaults only where it has none, and there it is
undefined when references are not strict. -/
theorem Expr.undefined_of_stopped (scope : Scope) (expr : Expr)
    (plain : expr.EachBound Bound.IsPlain) (key : Text)
    (stops : (expr.evaluate (scope.withStrictRefs true)).run.answer outside =
      .error (.unknownReference key)) :
    (expr.evaluate (scope.withStrictRefs false)).run.answer outside = .ok .undefined := by
  cases expr with
  | literal value => cases stops
  | call name resolver bound args =>
    simp only [Expr.evaluate] at stops ⊢
    cases plain.1 with
    | refTo wanted =>
      rcases Resolver.lookUp_withStrictRefs outside scope wanted with ⟨_, loose⟩ | ⟨_, goes⟩
      · exact congrArg (fun attempt => attempt.run.answer outside) loose
      · exact absurd stops (goes key)
    | choice accepts passes =>
      exact absurd stops (Resolver.firstAccepted_not_stopped accepts _ key)

theorem Exprs.skipped_of_plain (scope : Scope) (accepts : Value → Bool)
    (passes : accepts .undefined = false) :
    ∀ exprs : Exprs, exprs.EachBound Bound.IsPlain →
      List.Forall₂ (Argument.Skipped outside accepts)
        (exprs.arguments (scope.withStrictRefs true))
        (exprs.arguments (scope.withStrictRefs false))
  | .nil, _ => .nil
  | .cons _ value rest, plain => by
    refine .cons ?_ (skipped_of_plain scope accepts passes rest plain.2)
    intro key stops
    exact ⟨passes, .undefined, value.undefined_of_stopped scope plain.1 key stops, passes⟩

mutual

theorem Expr.tolerant_of_plain (scope : Scope) :
    ∀ expr : Expr, expr.EachBound Bound.IsPlain → expr.Tolerant outside scope
  | .literal _, _ => trivial
  | .call _ _ bound args, plain => by
    refine ⟨?_, Exprs.tolerant_of_plain scope args plain.2⟩
    intro accepts isChoice
    subst isChoice
    apply Exprs.skipped_of_plain scope accepts _ args plain.2
    exact plain.1.passes accepts rfl

theorem Exprs.tolerant_of_plain (scope : Scope) :
    ∀ exprs : Exprs, exprs.EachBound Bound.IsPlain → exprs.Tolerant outside scope
  | .nil, _ => trivial
  | .cons _ value rest, plain =>
    ⟨Expr.tolerant_of_plain scope value plain.1, Exprs.tolerant_of_plain scope rest plain.2⟩

end

/-! ## Strict values -/

/-- A value that an expression has with strict references is its value without them, unless a
choice passes over an argument that an unknown reference stops and that has an acceptable value
otherwise. -/
theorem Expr.strict_value_kept (outside : Outside) (registry : Registry)
    (binds : registry.Binds Bound.IsOwn) (term : Term) (expr : Expr)
    (compiled : Expr.ofTerm registry term = .ok expr) (scope : Scope)
    (tolerant : expr.Tolerant outside scope) (value : Value)
    (ends : (expr.evaluate (scope.withStrictRefs true)).run.answer outside = .ok value) :
    (expr.evaluate (scope.withStrictRefs false)).run.answer outside = .ok value := by
  have own := Expr.eachBound_of_ofTerm binds term expr compiled
  exact expr.within_evaluate scope own tolerant value ends

def Outside.idle : Outside :=
  { outcome := fun _ => .notStarted "no shell".toList
    reply := fun secret => .error (.store "vault".toList secret.key .notFound []) }

/-- `fallback(ref(A), b)`, where nothing defines `A`. -/
theorem Expr.strict_value_kept_default :
    let term := Term.applyNamed "fallback"
      [.applyNamed "ref" [.literal (.bare ['A'])], .literal (.bare ['b'])]
    let scope : Scope := ⟨[], .ofEnvironment [], none, none⟩
    ∃ expr, Expr.ofTerm (.withBuiltins []) term = .ok expr ∧ expr.Tolerant .idle scope ∧
      (expr.evaluate (scope.withStrictRefs true)).run.answer .idle = .ok (.text ['b']) ∧
      (expr.evaluate (scope.withStrictRefs false)).run.answer .idle = .ok (.text ['b']) := by
  intro term scope
  have binds : (Registry.withBuiltins []).Binds Bound.IsOwn :=
    Registry.each_withBuiltins [] Resolver.builtins_isOwn (by simp)
  have tolerant : ∀ expr, Expr.ofTerm (.withBuiltins []) term = .ok expr →
      expr.Tolerant .idle scope := by
    intro expr compiled
    apply Expr.tolerant_of_plain
    cases compiled
    exact ⟨.choice _ rfl, ⟨.refTo ['A'], trivial, trivial⟩, trivial, trivial⟩
  refine ⟨_, rfl, tolerant _ rfl, rfl, ?_⟩
  exact Expr.strict_value_kept .idle _ binds term _ rfl scope (tolerant _ rfl) (.text ['b']) rfl

/-- What an unknown reference stops inside a choice is passed over, and accepted otherwise. -/
example :
    let term := Term.applyNamed "fallback"
      [.applyNamed "concat" [.literal (.bare ['a']), .applyNamed "ref" [.literal (.bare ['A'])]],
        .literal (.bare ['b'])]
    let scope : Scope := ⟨[], .ofEnvironment [], none, none⟩
    ∃ expr, Expr.ofTerm (.withBuiltins []) term = .ok expr ∧
      (expr.evaluate (scope.withStrictRefs true)).run.answer .idle = .ok (.text ['b']) ∧
      (expr.evaluate (scope.withStrictRefs false)).run.answer .idle = .ok (.text ['a']) :=
  ⟨_, rfl, rfl, rfl⟩

end Dotenv
