import Dotenv.Proofs.Action.Reordered
import Dotenv.Proofs.Expression.Own
import Dotenv.Proofs.Keyed
/-!
# Expressions in scopes of another order

The values of a scope may stand in any order. What a key is does not depend on it, and of what an
expression does only the order of the variables that its commands see.
-/

set_option autoImplicit false

namespace Dotenv

open Dotenv.Action (Reordered)

structure Scope.Reordered (scope other : Scope) : Prop where
  options : scope.options = other.options
  envFlag : scope.envFlag = other.envFlag
  key : scope.key = other.key
  values : scope.values.Reordered other.values

namespace Scope.Reordered

variable {scope other : Scope}

theorem forKey (reordered : scope.Reordered other) (key : Text) :
    (scope.forKey key).Reordered (other.forKey key) :=
  ⟨reordered.options, reordered.envFlag, rfl, reordered.values⟩

theorem insert (reordered : scope.Reordered other) (key : Text) (value : Value) :
    (scope.insert key value).Reordered (other.insert key value) :=
  ⟨reordered.options, reordered.envFlag, reordered.key, reordered.values.set key value⟩

theorem lookup (reordered : scope.Reordered other) (key : Text) :
    scope.lookup key = other.lookup key := by
  simp only [Scope.lookup, reordered.options, reordered.values.same key]

theorem currentEnv (reordered : scope.Reordered other) : scope.currentEnv = other.currentEnv := by
  simp only [Scope.currentEnv, reordered.envFlag, reordered.lookup]

theorem environment (reordered : scope.Reordered other) :
    scope.environment.Perm other.environment := by
  unfold Scope.environment
  rw [reordered.options]
  exact ((reordered.values.filterMap Value.exported).setAll _).perm

end Scope.Reordered

/-- An argument that takes the same steps to the same value, but for the order of the variables that
its commands see. -/
structure Argument.Reordered (argument other : Argument) : Prop where
  key : argument.key = other.key
  value : argument.value.run.Reordered other.value.run

/-- A call that does not depend on the order of the values in its scope: in another order of them it
takes the same steps to the same value, but for the order of the variables that commands see. -/
def Bound.IgnoresOrder (bound : Bound) : Prop :=
  ∀ function arguments others scope other, scope.Reordered other →
    List.Forall₂ Argument.Reordered arguments others →
    (bound.run ⟨function, arguments, scope⟩).run.Reordered
      (bound.run ⟨function, others, other⟩).run

namespace Invocation

variable (call other : Invocation)

theorem reordered_value (same : List.Forall₂ Argument.Reordered call.arguments other.arguments)
    (index : Nat) : (call.value index).run.Reordered (other.value index).run := by
  rcases value_of_forall₂ call other same index with
    ⟨argument, argument', reordered, here, there⟩ | ⟨here, there⟩
  · rw [here, there]
    exact reordered.value
  · rw [here, there]
    exact .refl _

theorem reordered_text (same : List.Forall₂ Argument.Reordered call.arguments other.arguments)
    (index : Nat) : (call.text index).run.Reordered (other.text index).run :=
  .ok_bind (reordered_value call other same index) fun _ => .refl _

theorem reordered_values (same : List.Forall₂ Argument.Reordered call.arguments other.arguments) :
    call.values.run.Reordered other.values.run := by
  apply Reordered.allUnlessError
  rw [List.forall₂_map_left_iff, List.forall₂_map_right_iff]
  exact same.imp fun _ _ reordered => reordered.value

end Invocation

namespace Resolver

variable {scope other : Scope}

theorem lookUp_reordered (reordered : scope.Reordered other) (key : Text) :
    lookUp scope key = lookUp other key := by
  simp only [lookUp, reordered.lookup, reordered.options]

theorem reordered_firstMatch (wanted : Text) {arguments others : List Argument}
    (same : List.Forall₂ Argument.Reordered arguments others) :
    (firstMatch wanted arguments).run.Reordered (firstMatch wanted others).run := by
  induction same with
  | nil => exact .refl _
  | @cons first second more others same rest ih =>
    refine .ok_bind same.value fun candidate => ?_
    rw [same.key]
    cases second.key with
    | none => exact ih
    | some key =>
      dsimp only
      split
      · exact .refl _
      · exact ih

theorem reordered_firstAccepted (accepts : Value → Bool) {arguments others : List Argument}
    (same : List.Forall₂ Argument.Reordered arguments others) :
    (firstAccepted accepts arguments).run.Reordered (firstAccepted accepts others).run := by
  induction same with
  | nil => exact .refl _
  | cons first _ ih =>
    refine .ok_bind (first.value.bind fun result => .refl _) fun value => ?_
    split
    · exact .refl _
    · exact ih

theorem reordered_runScript (reordered : scope.Reordered other) (script : Text) :
    (runScript scope script).run.Reordered (runScript other script).run := by
  simp only [runScript, reordered.key, reordered.options]
  exact .note _ (.command (.intro _ reordered.environment) fun outcome => .refl _)

end Resolver

theorem Bound.IsOwn.ignoresOrder (bound : Bound) (own : bound.IsOwn) : bound.IgnoresOrder := by
  intro function arguments others scope other reordered same
  have value := Invocation.reordered_value ⟨function, arguments, scope⟩ ⟨function, others, other⟩
    same
  have given := Invocation.reordered_text ⟨function, arguments, scope⟩ ⟨function, others, other⟩
    same
  have values := Invocation.reordered_values ⟨function, arguments, scope⟩
    ⟨function, others, other⟩ same
  cases own with
  | refTo key =>
    simp only [Resolver.refTo, Resolver.lookUp_reordered reordered key]
    exact .refl _
  | refComputed =>
    refine .ok_bind (given 0) fun key => ?_
    rw [Resolver.lookUp_reordered reordered key]
    exact .refl _
  | forEnv =>
    simp only [Resolver.isForEnv, reordered.envFlag, reordered.currentEnv]
    cases other.envFlag with
    | none => exact .refl _
    | some flag =>
      cases other.currentEnv with
      | none => exact .refl _
      | some current => exact .ok_bind values fun _ => .refl _
  | concat => exact .ok_bind values fun _ => .refl _
  | replace =>
    refine .ok_bind (value 0) fun first => ?_
    split
    · exact .refl _
    · exact .ok_bind (given 1) fun _ => .ok_bind (given 2) fun _ => .refl _
  | remap =>
    refine .ok_bind (value 0) fun first => ?_
    split
    · exact .refl _
    · exact .ok_bind (Resolver.reordered_firstMatch _ (List.forall₂_drop 1 same)) fun _ => .refl _
  | choice accepts => exact Resolver.reordered_firstAccepted accepts same
  | exec =>
    exact .ok_bind (given 0) fun script => Resolver.reordered_runScript reordered script
  | secret name store => exact .ok_bind (given 0) fun _ => .refl _

/-! ## Expressions -/

mutual

theorem Expr.reordered_evaluate {scope other : Scope} (reordered : scope.Reordered other) :
    ∀ expr : Expr, expr.EachBound Bound.IgnoresOrder →
      (expr.evaluate scope).run.Reordered (expr.evaluate other).run
  | .literal _, _ => .refl _
  | .call name _ _ args, ignores =>
    ignores.1 name _ _ scope other reordered
      (Exprs.reordered_arguments reordered args ignores.2)

theorem Exprs.reordered_arguments {scope other : Scope} (reordered : scope.Reordered other) :
    ∀ exprs : Exprs, exprs.EachBound Bound.IgnoresOrder →
      List.Forall₂ Argument.Reordered (exprs.arguments scope) (exprs.arguments other)
  | .nil, _ => .nil
  | .cons _ value rest, ignores =>
    .cons ⟨rfl, Expr.reordered_evaluate reordered value ignores.1⟩
      (Exprs.reordered_arguments reordered rest ignores.2)

end

end Dotenv
