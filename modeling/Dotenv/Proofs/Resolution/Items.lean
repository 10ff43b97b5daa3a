import Dotenv.Proofs.Action.Reaching
import Dotenv.Proofs.Expression.Evaluation
import Dotenv.Proofs.Keyed
import Dotenv.Resolution.Evaluation
/-!
# What a run does for an item

An item runs commands when its value is evaluated, and again for its rules when all waves are over.
Then its value, or the failure that is remembered, is checked and listed. An item without stores and
commands is evaluated and checked at once, and all that is reported of it is that it has a value, or
an override.
-/

set_option autoImplicit false

namespace Dotenv

open Dotenv.Action (Closed EachCommand saying)

variable {holds : Command → Prop}

/-! ## What is done for an item -/

namespace Action.Closed

variable (closed : Closed) {whole : Expr → Prop}

theorem truth (expr : Expr) (scope : Scope) (each : closed.Holds (expr.evaluate scope).run) :
    closed.Holds (ItemSchema.truth expr scope).run :=
  closed.ok_bind each fun _ => closed.done _

theorem isRequired (root : RootSchema) (scope : Scope) (item : ItemSchema)
    (each : item.priority.Each whole)
    (evaluates : ∀ expr, whole expr → closed.Holds (expr.evaluate scope).run) :
    closed.Holds (item.isRequired root scope).run := by
  unfold ItemSchema.isRequired
  cases rule : item.priority with
  | fixed priority => exact closed.done _
  | dynamic expression =>
    rw [rule] at each
    exact closed.truth expression scope (evaluates expression each)

theorem isSensitive (root : RootSchema) (scope : Scope) (item : ItemSchema)
    (each : item.sensitivity.Each whole)
    (evaluates : ∀ expr, whole expr → closed.Holds (expr.evaluate scope).run) :
    closed.Holds (item.isSensitive root scope).run := by
  unfold ItemSchema.isSensitive
  cases rule : item.sensitivity with
  | fixed sensitivity => cases sensitivity <;> exact closed.done _
  | dynamic expression =>
    rw [rule] at each
    exact closed.truth expression scope (evaluates expression each)

theorem absorb (attempt : Attempt Bool) (default : Bool) (each : closed.Holds attempt.run) :
    closed.Holds (Resolution.absorb attempt default) := by
  refine closed.bind each fun result => ?_
  cases result with
  | ok answer => exact closed.done _
  | error error => exact closed.done _

theorem finishItem (root : RootSchema) (progress : Progress) (item : ItemSchema)
    (each : item.Each whole)
    (evaluates : ∀ expr, whole expr →
      closed.Holds (expr.evaluate (progress.scope.forKey item.key)).run) :
    closed.Holds (Resolution.finishItem root progress item) := by
  have required := closed.isRequired root _ item each.priority evaluates
  have sensitive := closed.isSensitive root _ item each.sensitivity evaluates
  refine closed.bind (closed.absorb _ false required) fun _ => ?_
  exact closed.bind (closed.absorb _ true sensitive) fun _ => closed.done _

end Action.Closed

/-! ## Commands -/

theorem Progress.eachCommand_evaluateItem_of_value (scope : Scope) (item : ItemSchema)
    (each : (item.value.evaluate (scope.forKey item.key)).run.EachCommand holds) :
    (evaluateItem scope item).EachCommand holds := by
  unfold evaluateItem
  cases scope.options.overrides.get? item.key with
  | some text => exact trivial
  | none =>
    apply EachCommand.bind each
    intro result
    cases result <;> exact trivial

theorem Progress.eachCommand_evaluateItem (scope : Scope)
    (item : ItemSchema) (shows : item.value.EachBound Bound.ShowsScope)
    (sees : item.value.dependencies = none →
      ∀ command : Command, command.environment = scope.environment → holds command) :
    (evaluateItem scope item).EachCommand holds :=
  eachCommand_evaluateItem_of_value scope item
    (item.value.eachCommand_evaluate (fun scope command => command.environment = scope.environment)
      (scope.forKey item.key) shows sees)

theorem Progress.eachCommand_evaluateItem_of_known (scope : Scope) (item : ItemSchema)
    (quiet : item.value.EachBound Bound.IsQuiet) (known : item.value.dependencies ≠ none) :
    (evaluateItem scope item).EachCommand holds :=
  eachCommand_evaluateItem_of_value scope item
    (item.value.eachCommand_evaluate (fun _ _ => True) (scope.forKey item.key) quiet
      fun unknown => absurd unknown known)

theorem Resolution.eachCommand_finishItem (root : RootSchema) (progress : Progress)
    (item : ItemSchema) (shows : item.Each (Expr.EachBound Bound.ShowsScope))
    (sees : ∀ command : Command, command.environment = progress.scope.environment →
      holds command) :
    (finishItem root progress item).EachCommand holds :=
  (Closed.eachCommand holds).finishItem root progress item shows fun expr shows =>
    expr.eachCommand_evaluate (fun scope command => command.environment = scope.environment) _ shows
      fun _ => sees

/-! ## The end of a run -/

namespace Resolution

def listed : Except ResolutionError Bool → List ItemError
  | .ok _ => []
  | .error error => [.resolution error]

theorem mem_listed (result : Except ResolutionError Bool) (error : ResolutionError) :
    .resolution error ∈ listed result ↔ result = .error error := by
  cases result with
  | ok answer => simp [listed]
  | error other => simp [listed, eq_comm]

theorem reaches_absorb (attempt : Attempt Bool) (default : Bool) (found : Bool × List ItemError)
    (reaches : (absorb attempt default).Reaches found) :
    ∃ result, attempt.run.Reaches result ∧
      found = (result.toOption.getD default, listed result) := by
  obtain ⟨result, ends, rest⟩ := (Action.reaches_bind _ _ _).mp reaches
  refine ⟨result, ends, ?_⟩
  cases result with
  | ok answer =>
    cases rest
    rfl
  | error error =>
    cases rest
    rfl

theorem not_mem_check (item : ItemSchema) (value : Value) (isRequired : Bool)
    (error : ResolutionError) : .resolution error ∉ (item.check value isRequired).2 := by
  unfold ItemSchema.check
  split
  · split <;> simp
  · split
    · unfold ItemSchema.constraintErrors
      simp only [List.mem_append, not_or]
      refine ⟨⟨?_, ?_⟩, ?_⟩
      · split
        · split <;> simp
        · simp
      · split
        · split <;> simp
        · simp
      · split <;> simp
    · simp

def finished (progress : Progress) (item : ItemSchema)
    (required sensitive : Except ResolutionError Bool) : ResolvedItem :=
  let value := (progress.scope.values.get? item.key).getD .undefined
  let isRequired := required.toOption.getD false
  let found :=
    match progress.failures.get? item.key with
    | some error => (value, [ItemError.resolution error])
    | none => item.check value isRequired
  { key := item.key, value := found.1, required := isRequired
    sensitive := sensitive.toOption.getD true
    overridden := progress.scope.options.overrides.contains item.key
    description := item.description, aliases := item.aliases
    errors := listed required ++ listed sensitive ++ found.2 }

theorem reaches_finishItem (root : RootSchema) (progress : Progress) (item : ItemSchema)
    (resolved : ResolvedItem) (finishes : (finishItem root progress item).Reaches resolved) :
    ∃ required sensitive,
      (item.isRequired root (progress.scope.forKey item.key)).run.Reaches required ∧
      (item.isSensitive root (progress.scope.forKey item.key)).run.Reaches sensitive ∧
      resolved = finished progress item required sensitive := by
  obtain ⟨_, requires, finishes⟩ := (Action.reaches_bind _ _ _).mp finishes
  obtain ⟨_, hides, finishes⟩ := (Action.reaches_bind _ _ _).mp finishes
  obtain ⟨required, requiredEnds, rfl⟩ := reaches_absorb _ _ _ requires
  obtain ⟨sensitive, sensitiveEnds, rfl⟩ := reaches_absorb _ _ _ hides
  refine ⟨required, sensitive, requiredEnds, sensitiveEnds, ?_⟩
  cases finishes
  unfold finished
  cases progress.failures.get? item.key <;> rfl

theorem mem_errors_finished (progress : Progress) (item : ItemSchema)
    (required sensitive : Except ResolutionError Bool) (error : ResolutionError) :
    ItemError.resolution error ∈ (finished progress item required sensitive).errors ↔
      (required = .error error ∨ sensitive = .error error) ∨
        progress.failures.get? item.key = some error := by
  simp only [finished, List.mem_append, mem_listed]
  refine or_congr_right ?_
  cases failed : progress.failures.get? item.key with
  | none => simp [not_mem_check]
  | some failure => simp [eq_comm]

theorem reaches_finishAll (root : RootSchema) (progress : Progress) (entries : Keyed ItemSchema)
    (items : Keyed ResolvedItem)
    (finishes : (finishAll root progress entries).run.Reaches (.ok items)) :
    List.Forall₂ (fun entry resolved => resolved.1 = entry.1 ∧
      (finishItem root progress entry.2).Reaches resolved.2) entries items := by
  induction entries generalizing items with
  | nil =>
    cases finishes
    exact .nil
  | cons entry rest ih =>
    obtain ⟨resolved, first, finishes⟩ := (Action.reaches_ok_bind _ _ _).mp finishes
    have ofRest : (do return (entry.1, resolved) :: (← finishAll root progress rest) :
        Resolving (Keyed ResolvedItem)).run.Reaches (.ok items) := by
      cases errors : resolved.errors with
      | nil =>
        simp only [errors] at finishes
        exact finishes
      | cons error others =>
        simp only [errors] at finishes
        obtain ⟨_, _, finishes⟩ := (Action.reaches_ok_bind _ _ _).mp finishes
        by_cases failFast : progress.scope.options.failFast = true
        · simp only [failFast, if_true] at finishes
          obtain ⟨_, stops, _⟩ := (Action.reaches_ok_bind _ _ _).mp finishes
          cases stops
        · simp only [failFast] at finishes
          exact finishes
    obtain ⟨others, restEnds, same⟩ := (Action.reaches_ok_bind _ _ _).mp ofRest
    cases same
    exact .cons ⟨rfl, (Action.reaches_lift _ _).mp first⟩ (ih others restEnds)

theorem reaches_ofDocument (registry : Registry) (options : Options) (document : Document)
    (resolution : Resolution)
    (ends : (ofDocument registry options document).run.Reaches (.ok resolution)) :
    ∃ schema, Schema.ofDocument registry document = .ok schema ∧
      (ofSchema schema options).run.Reaches (.ok resolution) := by
  unfold ofDocument at ends
  cases compiled : Schema.ofDocument registry document with
  | error issues =>
    rw [compiled] at ends
    cases ends
  | ok schema =>
    rw [compiled] at ends
    exact ⟨schema, rfl, ends⟩

end Resolution

/-! ## Items that run nothing -/

namespace Progress

def told (options : Options) (key : Text) (result : Except ResolutionError Value) : List Event :=
  if options.overrides.contains key then [.usingOverride key]
  else
    match result with
    | .ok value => [.resolvedItem key value.redacted]
    | .error _ => []

theorem evaluateItem_saying (scope : Scope) (item : ItemSchema)
    (isLocal : item.value.EachBound Bound.IsLocal) :
    ∃ result, evaluateItem scope item = saying result (told scope.options item.key result) := by
  unfold evaluateItem told Keyed.contains
  cases scope.options.overrides.get? item.key with
  | some text => exact ⟨.ok (.text text), rfl⟩
  | none =>
    obtain ⟨result, evaluates⟩ := item.value.immediate_evaluate (scope.forKey item.key) isLocal
    refine ⟨result, ?_⟩
    simp only [evaluates]
    cases result with
    | ok value => rfl
    | error error => rfl

end Progress

theorem Resolution.finishItem_eq_done (root : RootSchema) (progress : Progress) (item : ItemSchema)
    (isLocal : item.Each (Expr.EachBound Bound.IsLocal)) :
    ∃ required sensitive,
      finishItem root progress item = .done (finished progress item required sensitive) := by
  obtain ⟨resolved, isDone⟩ := Closed.immediate.finishItem root progress item isLocal
    fun expr => expr.immediate_evaluate _
  have finishes : (finishItem root progress item).Reaches resolved := by
    rw [isDone]
    rfl
  obtain ⟨required, sensitive, _, _, rfl⟩ := reaches_finishItem root progress item resolved finishes
  exact ⟨required, sensitive, isDone⟩

/-! ## Documents -/

/-- A document whose calls are of the library's own functions, but not of the one that runs
commands. -/
def Document.IsLocal (registry : Registry) (document : Document) : Prop :=
  ∀ schema, Schema.ofDocument registry document = .ok schema →
    ∀ item ∈ schema.items, item.Each (Expr.EachCall registry.IsLocal)

theorem Document.IsLocal.eachBound {registry : Registry} {document : Document}
    (isLocal : document.IsLocal registry) {schema : Schema}
    (compiled : Schema.ofDocument registry document = .ok schema) :
    ∀ item ∈ schema.items, item.Each (Expr.EachBound Bound.IsLocal) := by
  intro item member
  have bound := Schema.each_of_ofDocument document schema compiled item member
  have named := isLocal schema compiled item member
  exact (bound.and named).imp fun expr each => each.1.isLocal each.2

end Dotenv
