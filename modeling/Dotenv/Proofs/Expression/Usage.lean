import Dotenv.Proofs.Action.Reaching
import Dotenv.Resolver.Builtin
import Dotenv.Resolver.Secret
/-!
# How functions use their arguments

A function meets the arguments of its call one by one, by their indices, and an index or a key
that is not there goes unnoticed: it reads as undefined. Here the library's own functions, and
those of stores, are told again as programs that ask for each argument. Carried out on the
arguments of a call they do what the functions do, and which arguments they ask for can be told
beforehand.
-/

set_option autoImplicit false

namespace Dotenv

def Invocation.key? (call : Invocation) (index : Nat) : Option Text :=
  call.arguments[index]?.bind Argument.key

inductive Usage where
  | finish (result : Attempt Value)
  | evaluate (index : Nat) (next : Except ResolutionError Value → Usage)
  | lookAt (index : Nat) (next : Option Text → Usage)
  /-- The arguments before an index are evaluated side by side. -/
  | evaluateAll (count : Nat) (next : Except ResolutionError (List Value) → Usage)

namespace Usage

def run (call : Invocation) : Usage → Attempt Value
  | finish result => result
  | evaluate index next => .mk do ((next (← (call.value index).run)).run call).run
  | lookAt index next => (next (call.key? index)).run call
  | evaluateAll count next => .mk do
    let results ← Action.allUnlessError
      ((List.range count).map fun index => (call.value index).run)
    ((next results).run call).run

/-- Everything that is asked for is there, whatever the arguments come to: an index is that of an
argument, and an argument whose key is looked at has one. -/
def Finds (keys : List (Option Text)) : Usage → Prop
  | finish _ => True
  | evaluate index next => index < keys.length ∧ ∀ result, (next result).Finds keys
  | lookAt index next => ∃ name, keys[index]? = some (some name) ∧ (next (some name)).Finds keys
  | evaluateAll count next => count ≤ keys.length ∧ ∀ results, (next results).Finds keys

def needs (index : Nat) (next : Value → Usage) : Usage :=
  evaluate index fun
    | .ok value => next value
    | .error error => finish (throw error)

/-- The arguments before an index are evaluated, and the first error is passed on. -/
def needsAll (count : Nat) (next : List Value → Usage) : Usage :=
  evaluateAll count fun
    | .ok values => next values
    | .error error => finish (throw error)

def choosing (accepts : Value → Bool) : List Nat → Usage
  | [] => finish (pure .undefined)
  | index :: rest => evaluate index fun
    | .error (.unknownReference _) =>
      if accepts .undefined then finish (pure .undefined) else choosing accepts rest
    | .error error => finish (throw error)
    | .ok value => if accepts value then finish (pure value) else choosing accepts rest

def matching (value : Value) (wanted : Text) : List Nat → Usage
  | [] => finish (pure value)
  | index :: rest => needs index fun candidate =>
    if candidate.exported = some wanted then
      lookAt index fun
        | some name => finish (pure (.text name))
        | none => matching value wanted rest
    else matching value wanted rest

/-! ### What is asked for -/

section
variable {keys : List (Option Text)}

theorem finds_needs {index : Nat} {next : Value → Usage} (inside : index < keys.length)
    (after : ∀ value, (next value).Finds keys) : (needs index next).Finds keys := by
  refine ⟨inside, fun result => ?_⟩
  cases result with
  | ok value => exact after value
  | error error => exact trivial

theorem finds_needsAll {next : List Value → Usage} (after : ∀ values, (next values).Finds keys) :
    (needsAll keys.length next).Finds keys := by
  refine ⟨Nat.le_refl _, fun results => ?_⟩
  cases results with
  | ok values => exact after values
  | error error => exact trivial

theorem finds_choosing (accepts : Value → Bool) (indices : List Nat)
    (inside : ∀ index ∈ indices, index < keys.length) : (choosing accepts indices).Finds keys := by
  induction indices with
  | nil => exact trivial
  | cons index rest ih =>
    obtain ⟨here, others⟩ := List.forall_mem_cons.mp inside
    have goesOn : ∀ value,
        (if accepts value then finish (pure value) else choosing accepts rest).Finds keys := by
      intro value
      split
      · exact trivial
      · exact ih others
    refine ⟨here, fun result => ?_⟩
    rcases result with error | value
    · cases error with
      | unknownReference key => exact goesOn .undefined
      | _ => exact trivial
    · exact goesOn value

theorem finds_matching (value : Value) (wanted : Text) (indices : List Nat)
    (named : ∀ index ∈ indices, ∃ name, keys[index]? = some (some name)) :
    (matching value wanted indices).Finds keys := by
  induction indices with
  | nil => exact trivial
  | cons index rest ih =>
    obtain ⟨⟨name, here⟩, others⟩ := List.forall_mem_cons.mp named
    obtain ⟨inside, _⟩ := List.getElem?_eq_some_iff.mp here
    refine finds_needs inside fun candidate => ?_
    split
    · exact ⟨name, here, trivial⟩
    · exact ih others

end

/-! ### What comes of it -/

section
variable (call : Invocation)

theorem run_needs (index : Nat) (next : Value → Usage) :
    (needs index next).run call = (do (next (← call.value index)).run call) := by
  change Action.bind _ (call.value index).run = Action.bind _ (call.value index).run
  congr 1
  funext result
  cases result with
  | ok value => rfl
  | error error => rfl

def argumentAt (index : Nat) : Argument := ⟨call.key? index, call.value index⟩

theorem arguments_eq :
    call.arguments = (List.range call.arguments.length).map (argumentAt call) := by
  apply List.ext_getElem
  · simp
  · intro index inside _
    simp [argumentAt, Invocation.key?, Invocation.value, List.getElem?_eq_getElem inside]

theorem drop_arguments :
    call.arguments.drop 1 =
      (List.range' 1 (call.arguments.length - 1)).map (argumentAt call) := by
  conv_lhs => rw [arguments_eq call]
  rw [← List.map_drop, List.range_eq_range', List.drop_range']

theorem run_needsAll (next : List Value → Usage) :
    (needsAll call.arguments.length next).run call =
      (do (next (← call.values)).run call) := by
  have same : ((List.range call.arguments.length).map fun index => (call.value index).run) =
      call.arguments.map fun argument => argument.value.run := by
    conv_rhs => rw [arguments_eq call, List.map_map]
    rfl
  unfold Invocation.values
  rw [← same]
  change Action.bind _ (Action.allUnlessError _) = Action.bind _ (Action.allUnlessError _)
  congr 1
  funext results
  cases results with
  | ok values => rfl
  | error error => rfl

theorem run_choosing (accepts : Value → Bool) (indices : List Nat) :
    (choosing accepts indices).run call =
      Resolver.firstAccepted accepts (indices.map (argumentAt call)) := by
  induction indices with
  | nil => rfl
  | cons index rest ih =>
    have goesOn : ∀ value,
        (if accepts value then finish (pure value) else choosing accepts rest).run call =
          if accepts value then pure value
          else Resolver.firstAccepted accepts (rest.map (argumentAt call)) := by
      intro value
      split
      · rfl
      · exact ih
    rw [List.map_cons, Resolver.firstAccepted]
    change ((call.value index).run >>= _ : Action _) =
      (((call.value index).run >>= _ : Action _) >>= _ : Action _)
    rw [bind_assoc]
    refine bind_congr fun result => ?_
    rcases result with error | value
    · cases error with
      | unknownReference key => exact goesOn .undefined
      | _ => rfl
    · exact goesOn value

theorem run_matching (value : Value) (wanted : Text) (indices : List Nat) :
    (matching value wanted indices).run call = (do
      match ← Resolver.firstMatch wanted (indices.map (argumentAt call)) with
      | some name => return .text name
      | none => return value) := by
  induction indices with
  | nil => rfl
  | cons index rest ih =>
    rw [matching, run_needs, List.map_cons, Resolver.firstMatch, bind_assoc]
    refine bind_congr fun candidate => ?_
    simp only [argumentAt]
    split
    · rw [run]
      cases call.key? index with
      | none => exact ih
      | some name => rfl
    · rw [ih]
      cases call.key? index with
      | none => rfl
      | some name => rfl

end

end Usage

/-! ## The functions -/

inductive Routine where
  | refTo (key : Text)
  | refComputed
  | forEnv
  | concat
  | replace
  | remap
  | fallback
  | coalesce
  | exec
  | secret (name : Text) (store : Nat)

namespace Routine

def name : Routine → Text
  | refTo _ | refComputed => Resolver.ref.name
  | forEnv => Resolver.forEnv.name
  | concat => Resolver.concat.name
  | replace => Resolver.replace.name
  | remap => Resolver.remap.name
  | fallback => Resolver.fallback.name
  | coalesce => Resolver.coalesce.name
  | exec => Resolver.exec.name
  | secret name _ => name

def bound : Routine → Bound
  | refTo key => Resolver.refTo key
  | refComputed => Resolver.refComputed
  | forEnv => ⟨none, Resolver.isForEnv⟩
  | concat => ⟨some [], Resolver.joined⟩
  | replace => ⟨some [], Resolver.replaced⟩
  | remap => ⟨some [], Resolver.remapped⟩
  | fallback =>
    ⟨some [], fun call => Resolver.firstAccepted (fun value => !value.isEmpty) call.arguments⟩
  | coalesce =>
    ⟨some [], fun call => Resolver.firstAccepted (fun value => !value.isUndefined) call.arguments⟩
  | exec => ⟨none, fun call => do Resolver.runScript call.scope (← call.text 0)⟩
  | secret name store => ⟨some [], Resolver.secretOf name store⟩

/-- What the function does with the arguments of a call, of which there are `count`. -/
def usage (scope : Scope) (count : Nat) : Routine → Usage
  | refTo key => .finish (Resolver.lookUp scope key)
  | refComputed => .needs 0 fun key => .finish (Resolver.lookUp scope key.display)
  | forEnv =>
    if scope.envFlag.isNone then
      .finish (throw
        (.invalidArgument "forEnv".toList "no @envFlag decorator in the header".toList))
    else
      match scope.currentEnv with
      | none => .finish (pure (.boolean false))
      | some current => .needsAll count fun values =>
        .finish (pure (.boolean (values.any fun value => value.display == current)))
  | concat => .needsAll count fun values =>
    .finish (pure (.text (values.flatMap Value.display)))
  | replace => .needs 0 fun value =>
    if value.isUndefined then .finish (pure .undefined)
    else .needs 1 fun search => .needs 2 fun replacement => .finish (pure (.text
      (Text.replaceFirst search.display replacement.display value.display)))
  | remap => .needs 0 fun value =>
    match value.exported with
    | none => .finish (pure value)
    | some wanted => .matching value wanted (List.range' 1 (count - 1))
  | fallback => .choosing (fun value => !value.isEmpty) (List.range count)
  | coalesce => .choosing (fun value => !value.isUndefined) (List.range count)
  | exec => .needs 0 fun script => .finish (Resolver.runScript scope script.display)
  | secret name store => .needs 0 fun key => .finish
    (if key.display = [] then
      throw (.invalidArgument name "key resolved to an empty string".toList)
    else .mk (Action.ask ⟨store, key.display⟩))

theorem run_usage (routine : Routine) (call : Invocation) :
    (routine.usage call.scope call.arguments.length).run call = routine.bound.run call := by
  cases routine with
  | refTo key => rfl
  | refComputed =>
    rw [usage, Usage.run_needs]
    simp only [Usage.run, bound, Resolver.refComputed, Invocation.text, bind_assoc, pure_bind]
  | forEnv =>
    simp only [usage, bound, Resolver.isForEnv]
    split
    · rfl
    · cases call.scope.currentEnv with
      | none => rfl
      | some current =>
        rw [Usage.run_needsAll]
        rfl
  | concat =>
    rw [usage, Usage.run_needsAll]
    rfl
  | replace =>
    rw [usage, Usage.run_needs]
    refine bind_congr fun value => ?_
    split
    · rfl
    · simp only [Usage.run_needs, Usage.run, Invocation.text, bind_assoc, pure_bind]
  | remap =>
    rw [usage, Usage.run_needs]
    refine bind_congr fun value => ?_
    cases value.exported with
    | none => rfl
    | some wanted =>
      have found := Usage.run_matching call value wanted
        (List.range' 1 (call.arguments.length - 1))
      rw [← Usage.drop_arguments] at found
      exact found
  | fallback =>
    rw [usage, Usage.run_choosing, ← Usage.arguments_eq]
    rfl
  | coalesce =>
    rw [usage, Usage.run_choosing, ← Usage.arguments_eq]
    rfl
  | exec =>
    rw [usage, Usage.run_needs]
    simp only [Usage.run, bound, Invocation.text, bind_assoc, pure_bind]
  | secret name store =>
    rw [usage, Usage.run_needs]
    simp only [Usage.run, bound, Resolver.secretOf, Invocation.text, bind_assoc, pure_bind]
    refine bind_congr fun key => ?_
    split
    · rfl
    · rfl

end Routine

end Dotenv
