import Dotenv.Proofs.Action.Closed
import Dotenv.Proofs.Expression.Binding
import Dotenv.Resolver.Builtin
import Dotenv.Resolver.Secret
import Mathlib.Data.List.Forall2
/-!
# The library's own functions

What calls of the library's own functions, and of the functions of stores, are bound to. This
is all that can be told of such a call without carrying it out.
-/

set_option autoImplicit false

namespace Dotenv

inductive Bound.IsOwn : Bound → Prop where
  | refTo (key : Text) : IsOwn (Resolver.refTo key)
  | refComputed : IsOwn Resolver.refComputed
  | forEnv : IsOwn ⟨none, Resolver.isForEnv⟩
  | concat : IsOwn ⟨some [], Resolver.joined⟩
  | replace : IsOwn ⟨some [], Resolver.replaced⟩
  | remap : IsOwn ⟨some [], Resolver.remapped⟩
  | choice (accepts : Value → Bool) :
    IsOwn ⟨some [], fun call => Resolver.firstAccepted accepts call.arguments⟩
  | exec : IsOwn ⟨none, fun call => do Resolver.runScript call.scope (← call.text 0)⟩
  | secret (name : Text) (store : Nat) : IsOwn ⟨some [], Resolver.secretOf name store⟩

inductive Bound.IsLibrary : Bound → Prop where
  | refTo (key : Text) : IsLibrary (Resolver.refTo key)
  | refComputed : IsLibrary Resolver.refComputed
  | forEnv : IsLibrary ⟨none, Resolver.isForEnv⟩
  | concat : IsLibrary ⟨some [], Resolver.joined⟩
  | replace : IsLibrary ⟨some [], Resolver.replaced⟩
  | remap : IsLibrary ⟨some [], Resolver.remapped⟩
  | fallback : IsLibrary
    ⟨some [], fun call => Resolver.firstAccepted (fun value => !value.isEmpty) call.arguments⟩
  | coalesce : IsLibrary
    ⟨some [], fun call => Resolver.firstAccepted (fun value => !value.isUndefined) call.arguments⟩
  | exec : IsLibrary ⟨none, fun call => do Resolver.runScript call.scope (← call.text 0)⟩
  | secret (name : Text) (store : Nat) : IsLibrary ⟨some [], Resolver.secretOf name store⟩

/-- A call bound to one of the library's own functions that run no command. -/
inductive Bound.IsLocal : Bound → Prop where
  | refTo (key : Text) : IsLocal (Resolver.refTo key)
  | refComputed : IsLocal Resolver.refComputed
  | forEnv : IsLocal ⟨none, Resolver.isForEnv⟩
  | concat : IsLocal ⟨some [], Resolver.joined⟩
  | replace : IsLocal ⟨some [], Resolver.replaced⟩
  | remap : IsLocal ⟨some [], Resolver.remapped⟩
  | fallback : IsLocal
    ⟨some [], fun call => Resolver.firstAccepted (fun value => !value.isEmpty) call.arguments⟩
  | coalesce : IsLocal
    ⟨some [], fun call => Resolver.firstAccepted (fun value => !value.isUndefined) call.arguments⟩

theorem Bound.IsLocal.isLibrary {bound : Bound} (isLocal : bound.IsLocal) : bound.IsLibrary := by
  cases isLocal with
  | refTo key => exact .refTo key
  | refComputed => exact .refComputed
  | forEnv => exact .forEnv
  | concat => exact .concat
  | replace => exact .replace
  | remap => exact .remap
  | fallback => exact .fallback
  | coalesce => exact .coalesce

theorem Bound.IsLibrary.isOwn {bound : Bound} (library : bound.IsLibrary) : bound.IsOwn := by
  cases library with
  | refTo key => exact .refTo key
  | refComputed => exact .refComputed
  | forEnv => exact .forEnv
  | concat => exact .concat
  | replace => exact .replace
  | remap => exact .remap
  | fallback => exact .choice _
  | coalesce => exact .choice _
  | exec => exact .exec
  | secret name store => exact .secret name store

/-- In two calls with arguments that belong together, the values at a place are those of arguments
that belong together, or both calls have none there. -/
theorem Invocation.value_of_forall₂ {rel : Argument → Argument → Prop} (call other : Invocation)
    (related : List.Forall₂ rel call.arguments other.arguments) (index : Nat) :
    (∃ argument argument', rel argument argument' ∧ call.value index = argument.value ∧
        other.value index = argument'.value) ∨
      (call.value index = pure .undefined ∧ other.value index = pure .undefined) := by
  have same := related.length_eq
  unfold value
  by_cases inside : index < call.arguments.length
  · have insideToo : index < other.arguments.length := same ▸ inside
    rw [List.getElem?_eq_getElem inside, List.getElem?_eq_getElem insideToo]
    exact .inl ⟨_, _, (List.forall₂_iff_get.mp related).2 index inside insideToo, rfl, rfl⟩
  · have outsideToo : ¬ index < other.arguments.length := same ▸ inside
    rw [List.getElem?_eq_none (Nat.le_of_not_lt inside),
      List.getElem?_eq_none (Nat.le_of_not_lt outsideToo)]
    exact .inr ⟨rfl, rfl⟩

namespace Resolver

theorem ref_isLocal : ref.Binds Bound.IsLocal := by
  intro function args bound success
  obtain ⟨_, _, success⟩ := (bind_eq_ok _ _ _).mp success
  obtain ⟨_, _, success⟩ := (bind_eq_ok _ _ _).mp success
  split at success
  · exact absurd success (throw_ne_ok _ _)
  · cases success
    exact .refTo _
  · cases success
    exact .refComputed

theorem forEnv_isLocal : forEnv.Binds Bound.IsLocal := by
  intro function args bound success
  obtain ⟨_, _, success⟩ := (bind_eq_ok _ _ _).mp success
  obtain ⟨_, _, success⟩ := (bind_eq_ok _ _ _).mp success
  cases success
  exact .forEnv

theorem concat_isLocal : concat.Binds Bound.IsLocal := by
  intro function args bound success
  obtain ⟨_, _, success⟩ := (bind_eq_ok _ _ _).mp success
  cases success
  exact .concat

theorem replace_isLocal : replace.Binds Bound.IsLocal := by
  intro function args bound success
  obtain ⟨_, _, success⟩ := (bind_eq_ok _ _ _).mp success
  obtain ⟨_, _, success⟩ := (bind_eq_ok _ _ _).mp success
  cases success
  exact .replace

theorem remap_isLocal : remap.Binds Bound.IsLocal := by
  intro function args bound success
  obtain ⟨_, _, success⟩ := (bind_eq_ok _ _ _).mp success
  split at success
  · obtain ⟨_, refused, _⟩ := (bind_eq_ok _ _ _).mp success
    exact absurd refused (throw_ne_ok _ _)
  · cases success
    exact .remap

theorem choice_binds {holds : Bound → Prop} (name : String) (accepts : Value → Bool)
    (chosen : holds ⟨some [], fun call => firstAccepted accepts call.arguments⟩) :
    (choice name accepts).Binds holds := by
  intro function args bound success
  obtain ⟨_, _, success⟩ := (bind_eq_ok _ _ _).mp success
  cases success
  exact chosen

theorem exec_isLibrary : exec.Binds Bound.IsLibrary := by
  intro function args bound success
  obtain ⟨_, _, success⟩ := (bind_eq_ok _ _ _).mp success
  obtain ⟨_, _, success⟩ := (bind_eq_ok _ _ _).mp success
  cases success
  exact .exec

theorem secret_isLibrary (name : Text) (store : Nat) :
    (secret name store).Binds Bound.IsLibrary := by
  intro function args bound success
  obtain ⟨_, _, success⟩ := (bind_eq_ok _ _ _).mp success
  obtain ⟨_, _, success⟩ := (bind_eq_ok _ _ _).mp success
  split at success
  · obtain ⟨_, refused, _⟩ := (bind_eq_ok _ _ _).mp success
    exact absurd refused (throw_ne_ok _ _)
  · cases success
    exact .secret name store

theorem builtins_isLocal (resolver : Resolver) (member : resolver ∈ builtins)
    (runsNone : resolver.name ≠ exec.name) : resolver.Binds Bound.IsLocal := by
  simp only [builtins, List.mem_cons, List.not_mem_nil, or_false] at member
  rcases member with rfl | rfl | rfl | rfl | rfl | rfl | rfl | rfl
  · exact ref_isLocal
  · exact forEnv_isLocal
  · exact concat_isLocal
  · exact replace_isLocal
  · exact remap_isLocal
  · exact choice_binds _ _ .fallback
  · exact choice_binds _ _ .coalesce
  · exact absurd rfl runsNone

theorem builtins_isLibrary (resolver : Resolver) (member : resolver ∈ builtins) :
    resolver.Binds Bound.IsLibrary := by
  by_cases runs : resolver.name = exec.name
  · have isExec : resolver = exec := by
      simp only [builtins, List.mem_cons, List.not_mem_nil, or_false] at member
      rcases member with rfl | rfl | rfl | rfl | rfl | rfl | rfl | rfl <;>
        first | rfl | exact absurd runs (by decide)
    rw [isExec]
    exact exec_isLibrary
  · exact (builtins_isLocal resolver member runs).imp fun _ isLocal => isLocal.isLibrary

theorem builtins_isOwn (resolver : Resolver) (member : resolver ∈ builtins) :
    resolver.Binds Bound.IsOwn :=
  (builtins_isLibrary resolver member).imp fun _ library => library.isOwn

theorem secret_isOwn (name : Text) (store : Nat) : (secret name store).Binds Bound.IsOwn :=
  (secret_isLibrary name store).imp fun _ library => library.isOwn

end Resolver

/-! ## What calls do -/

namespace Action.Closed

variable (closed : Closed) {call : Invocation}

theorem value (each : ∀ argument ∈ call.arguments, closed.Holds argument.value.run) (index : Nat) :
    closed.Holds (call.value index).run := by
  unfold Invocation.value
  split
  · rename_i argument found
    exact each argument (List.mem_of_getElem? found)
  · exact closed.done _

theorem text (each : ∀ argument ∈ call.arguments, closed.Holds argument.value.run) (index : Nat) :
    closed.Holds (call.text index).run :=
  closed.ok_bind (closed.value each index) fun _ => closed.done _

theorem values (each : ∀ argument ∈ call.arguments, closed.Holds argument.value.run)
    (together : ∀ actions : List (Action Reply), (∀ action ∈ actions, closed.Holds action) →
      closed.Holds (Action.allUnlessError actions)) : closed.Holds call.values.run := by
  refine together _ fun action member => ?_
  obtain ⟨argument, inCall, rfl⟩ := List.mem_map.mp member
  exact each argument inCall

theorem lookUp (scope : Scope) (key : Text) : closed.Holds (Resolver.lookUp scope key).run := by
  unfold Resolver.lookUp
  split
  · exact closed.done _
  · split
    · exact closed.done _
    · exact closed.done _
    · exact closed.done _
    · split <;> exact closed.done _

theorem isForEnv (values : closed.Holds call.values.run) :
    closed.Holds (Resolver.isForEnv call).run := by
  unfold Resolver.isForEnv
  split
  · dsimp only
    split <;> exact closed.done _
  · dsimp only
    split
    · exact closed.done _
    · exact closed.ok_bind values fun _ => closed.done _

theorem replaced (each : ∀ argument ∈ call.arguments, closed.Holds argument.value.run) :
    closed.Holds (Resolver.replaced call).run := by
  refine closed.ok_bind (closed.value each 0) fun value => ?_
  split
  · exact closed.done _
  · refine closed.ok_bind (closed.text each 1) fun search => ?_
    exact closed.ok_bind (closed.text each 2) fun replacement => closed.done _

theorem firstMatch (wanted : Text) (arguments : List Argument)
    (each : ∀ argument ∈ arguments, closed.Holds argument.value.run) :
    closed.Holds (Resolver.firstMatch wanted arguments).run := by
  induction arguments with
  | nil => exact closed.done _
  | cons argument rest ih =>
    obtain ⟨first, others⟩ := List.forall_mem_cons.mp each
    refine closed.ok_bind first fun candidate => ?_
    split
    · split
      · exact closed.done _
      · exact ih others
    · exact ih others

theorem remapped (each : ∀ argument ∈ call.arguments, closed.Holds argument.value.run) :
    closed.Holds (Resolver.remapped call).run := by
  refine closed.ok_bind (closed.value each 0) fun value => ?_
  split
  · exact closed.done _
  · have others : ∀ argument ∈ call.arguments.drop 1, closed.Holds argument.value.run :=
      fun argument member => each argument (List.mem_of_mem_drop member)
    refine closed.ok_bind (closed.firstMatch _ _ others) fun found => ?_
    split <;> exact closed.done _

theorem firstAccepted (accepts : Value → Bool) (arguments : List Argument)
    (each : ∀ argument ∈ arguments, closed.Holds argument.value.run) :
    closed.Holds (Resolver.firstAccepted accepts arguments).run := by
  induction arguments with
  | nil => exact closed.done _
  | cons argument rest ih =>
    obtain ⟨first, others⟩ := List.forall_mem_cons.mp each
    have tolerant : closed.Holds (Resolver.lenient argument.value).run := by
      refine closed.bind first fun result => ?_
      split <;> exact closed.done _
    refine closed.ok_bind tolerant fun value => ?_
    split
    · exact closed.done _
    · exact ih others

theorem run_of_isLocal {bound : Bound} (isLocal : bound.IsLocal)
    (each : ∀ argument ∈ call.arguments, closed.Holds argument.value.run)
    (values : closed.Holds call.values.run) : closed.Holds (bound.run call).run := by
  cases isLocal with
  | refTo key => exact closed.lookUp _ key
  | refComputed => exact closed.ok_bind (closed.text each 0) fun key => closed.lookUp _ key
  | forEnv => exact closed.isForEnv values
  | concat => exact closed.ok_bind values fun _ => closed.done _
  | replace => exact closed.replaced each
  | remap => exact closed.remapped each
  | fallback => exact closed.firstAccepted _ _ each
  | coalesce => exact closed.firstAccepted _ _ each

/-- A call of the library's own functions, or of those of stores, does no more than its arguments,
but for questions to stores, and for a script where it may read any key. -/
theorem run_of_isOwn {bound : Bound} (own : bound.IsOwn)
    (each : ∀ argument ∈ call.arguments, closed.Holds argument.value.run)
    (values : closed.Holds call.values.run)
    (asks : ∀ secret, closed.Holds (Action.ask secret))
    (runs : bound.dependencies = none →
      ∀ script, closed.Holds (Resolver.runScript call.scope script).run) :
    closed.Holds (bound.run call).run := by
  cases own with
  | refTo key => exact closed.run_of_isLocal (.refTo key) each values
  | refComputed => exact closed.run_of_isLocal .refComputed each values
  | forEnv => exact closed.run_of_isLocal .forEnv each values
  | concat => exact closed.run_of_isLocal .concat each values
  | replace => exact closed.run_of_isLocal .replace each values
  | remap => exact closed.run_of_isLocal .remap each values
  | choice accepts => exact closed.firstAccepted accepts _ each
  | exec => exact closed.ok_bind (closed.text each 0) fun script => runs rfl script
  | secret name store =>
    refine closed.ok_bind (closed.text each 0) fun key => ?_
    split
    · exact closed.done _
    · exact asks _

end Action.Closed

/-! ## Registries -/

namespace Registry

def Each (holds : Resolver → Prop) (registry : Registry) : Prop :=
  ∀ name resolver, registry.get? name = some resolver → holds resolver

variable {holds : Resolver → Prop} {registry : Registry}

theorem each_register (each : registry.Each holds) (resolver : Resolver) (next : holds resolver) :
    (registry.register resolver).Each holds := by
  intro name found isFound
  simp only [Registry.register, Registry.get?, Keyed.get?_set] at isFound
  split at isFound
  · cases isFound
    exact next
  · exact each name found isFound

theorem each_registerAll (resolvers : List Resolver) (each : registry.Each holds)
    (more : ∀ resolver ∈ resolvers, holds resolver) :
    (resolvers.foldl register registry).Each holds := by
  induction resolvers generalizing registry with
  | nil => exact each
  | cons first rest ih =>
    apply ih
    · exact each_register each first (more first List.mem_cons_self)
    · exact fun resolver member => more resolver (List.mem_cons_of_mem first member)

theorem each_addAlias (each : registry.Each holds) (name target : Text) :
    (registry.addAlias name target).Each holds := by
  unfold addAlias addAlias?
  cases under : registry.get? target with
  | none => exact each
  | some resolver =>
    intro other found isFound
    simp only [Option.map_some, Option.getD_some, get?, Keyed.get?_set] at isFound
    split at isFound
    · cases isFound
      exact each target resolver under
    · exact each other found isFound

theorem each_withBuiltins (others : List Resolver)
    (own : ∀ resolver ∈ Resolver.builtins, holds resolver)
    (each : ∀ resolver ∈ others, holds resolver) : (withBuiltins others).Each holds := by
  have none : empty.Each holds := by
    rintro _ _ ⟨⟩
  have builtins := each_registerAll Resolver.builtins none own
  exact each_registerAll others (each_addAlias builtins _ _) each

end Registry

end Dotenv
