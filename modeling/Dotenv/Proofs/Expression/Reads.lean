import Dotenv.Action.World
import Dotenv.Proofs.Expression.Own
/-!
# What expressions read

An expression whose dependencies are known does the same in any two scopes that agree on
these keys: not only its value is the same, but every step on the way to it. Functions from
elsewhere may see more of a scope than its values, so for them all else has to be the same. The
library's own functions, and those of stores, see no more than what each key is that they name
and whether references are strict.
-/

set_option autoImplicit false

namespace Dotenv

/-- Two scopes that tell the same of some keys, and of everything but the values. -/
structure Scope.AgreesOn (keys : List Text) (scope other : Scope) : Prop where
  options : scope.options = other.options
  envFlag : scope.envFlag = other.envFlag
  key : scope.key = other.key
  values : ∀ key ∈ keys, scope.values.get? key = other.values.get? key

namespace Scope.AgreesOn

variable {keys : List Text} {scope other : Scope}

theorem forKey (agree : scope.AgreesOn keys other) (key : Text) :
    (scope.forKey key).AgreesOn keys (other.forKey key) :=
  ⟨agree.options, agree.envFlag, rfl, agree.values⟩

theorem lookup (agree : scope.AgreesOn keys other) (key : Text) (member : key ∈ keys) :
    scope.lookup key = other.lookup key := by
  simp only [Scope.lookup, agree.options, agree.values key member]

end Scope.AgreesOn

/-! ## Calls -/

/-- A call that does the same in two scopes when all the keys that it names are alike in them. Of a
call that may read any key nothing is asked. -/
def Bound.SameWhere (alike : Text → Prop) (scope other : Scope) (bound : Bound) : Prop :=
  ∀ keys, bound.dependencies = some keys → (∀ key ∈ keys, alike key) →
    ∀ function arguments,
      bound.run ⟨function, arguments, scope⟩ = bound.run ⟨function, arguments, other⟩

def Bound.NamesReads (bound : Bound) : Prop :=
  ∀ keys, bound.dependencies = some keys →
    ∀ function arguments scope other, scope.AgreesOn keys other →
      bound.run ⟨function, arguments, scope⟩ = bound.run ⟨function, arguments, other⟩

theorem Bound.NamesReads.sameWhere {bound : Bound} (namesReads : bound.NamesReads)
    {scope other : Scope} (options : scope.options = other.options)
    (envFlag : scope.envFlag = other.envFlag) (key : scope.key = other.key) :
    bound.SameWhere (fun key => scope.values.get? key = other.values.get? key) scope other :=
  fun keys known values function arguments =>
    namesReads keys known function arguments scope other ⟨options, envFlag, key, values⟩

theorem Resolver.lookUp_congr {scope other : Scope}
    (strict : scope.options.strictRefs = other.options.strictRefs) (key : Text)
    (same : scope.lookup key = other.lookup key) : lookUp scope key = lookUp other key := by
  simp only [lookUp, same, strict]

/-- The library's own functions, and those of stores, see nothing of their scope but what the keys
that they name are, and whether references are strict. -/
theorem Bound.IsOwn.sameWhere {bound : Bound} (own : bound.IsOwn) {scope other : Scope}
    (strict : scope.options.strictRefs = other.options.strictRefs) :
    bound.SameWhere (fun key => scope.lookup key = other.lookup key) scope other := by
  intro keys known same function arguments
  cases own with
  | refTo key =>
    cases known
    exact Resolver.lookUp_congr strict key (same key List.mem_cons_self)
  -- Three functions may read any key, and the others see nothing but their arguments.
  | refComputed => cases known
  | forEnv => cases known
  | exec => cases known
  | concat => rfl
  | replace => rfl
  | remap => rfl
  | choice accepts => rfl
  | secret name store => rfl

theorem Bound.IsOwn.namesReads (bound : Bound) (own : bound.IsOwn) : bound.NamesReads := by
  intro keys known function arguments scope other agree
  have strict : scope.options.strictRefs = other.options.strictRefs :=
    congrArg Options.strictRefs agree.options
  exact own.sameWhere strict keys known agree.lookup function arguments

/-! ## Expressions -/

section
variable {holds : Bound → Prop} {alike : Text → Prop} {scope other : Scope}

mutual

theorem Expr.evaluate_of_sameWhere
    (same : ∀ bound, holds bound → bound.SameWhere alike scope other) :
    ∀ (expr : Expr) (keys : List Text), expr.EachBound holds →
      expr.dependencies = some keys → (∀ key ∈ keys, alike key) →
      expr.evaluate scope = expr.evaluate other
  | .literal value, keys, _, _, _ => rfl
  | .call name _ bound args, keys, each, known, areAlike => by
    simp only [Expr.dependencies, Option.bind_eq_bind, Option.bind_eq_some_iff,
      Option.some.injEq] at known
    obtain ⟨own, ownKnown, others, othersKnown, rfl⟩ := known
    obtain ⟨ownAlike, othersAlike⟩ := List.forall_mem_append.mp areAlike
    simp only [Expr.evaluate]
    rw [Exprs.arguments_of_sameWhere same args others each.2 othersKnown othersAlike]
    exact same bound each.1 own ownKnown ownAlike name _

theorem Exprs.arguments_of_sameWhere
    (same : ∀ bound, holds bound → bound.SameWhere alike scope other) :
    ∀ (exprs : Exprs) (keys : List Text), exprs.EachBound holds →
      exprs.dependencies = some keys → (∀ key ∈ keys, alike key) →
      exprs.arguments scope = exprs.arguments other
  | .nil, _, _, _, _ => rfl
  | .cons key value rest, keys, each, known, areAlike => by
    simp only [Exprs.dependencies, Option.bind_eq_bind, Option.bind_eq_some_iff,
      Option.some.injEq] at known
    obtain ⟨first, firstKnown, others, othersKnown, rfl⟩ := known
    obtain ⟨firstAlike, othersAlike⟩ := List.forall_mem_append.mp areAlike
    simp only [Exprs.arguments]
    rw [Expr.evaluate_of_sameWhere same value first each.1 firstKnown firstAlike,
      Exprs.arguments_of_sameWhere same rest others each.2 othersKnown othersAlike]

end

end

theorem Expr.evaluate_of_agreesOn (scope other : Scope) (expr : Expr) (keys : List Text)
    (promised : expr.EachBound Bound.NamesReads) (known : expr.dependencies = some keys)
    (agree : scope.AgreesOn keys other) : expr.evaluate scope = expr.evaluate other :=
  expr.evaluate_of_sameWhere
    (fun _ namesReads => namesReads.sameWhere agree.options agree.envFlag agree.key)
    keys promised known agree.values

/-- Of its scope, an expression of the library's own functions and those of stores reads the keys
that it is known to read, and nothing else. Where each of these is the same in two scopes, and
references are strict in both or in neither, it asks the same of the world step by step, and so it
comes to the same value or to the same error, whatever it is answered. The other values and
overrides make no difference, nor does the key that tells the environment's name, nor the key that
is being given a value. -/
theorem Expr.reads_only_dependencies (stores : List (Text × Nat)) (term : Term) (expr : Expr)
    (compiled : Expr.ofTerm
      (.withBuiltins (stores.map fun store => .secret store.1 store.2)) term = .ok expr)
    (keys : List Text) (known : expr.dependencies = some keys) (scope other : Scope)
    (strict : scope.options.strictRefs = other.options.strictRefs)
    (same : ∀ key ∈ keys, scope.lookup key = other.lookup key) :
    expr.evaluate scope = expr.evaluate other := by
  have binds : Registry.Binds Bound.IsOwn
      (.withBuiltins (stores.map fun store => .secret store.1 store.2)) := by
    refine Registry.each_withBuiltins _ Resolver.builtins_isOwn fun resolver member => ?_
    obtain ⟨store, _, rfl⟩ := List.mem_map.mp member
    exact Resolver.secret_isOwn store.1 store.2
  have own := Expr.eachBound_of_ofTerm binds term expr compiled
  exact expr.evaluate_of_sameWhere (fun _ own => own.sameWhere strict) keys own known same

/-- `concat(fallback(ref(A), vault(k)), ref(B))`, where `A` is defined and has no value, an override
hides that `B` has another value in each scope, and only one scope has a value for `C`. -/
theorem Expr.reads_only_dependencies_overridden :
    let applied (name : String) (argument : Char) : Term :=
      .applyNamed name [.literal (.bare [argument])]
    let term := Term.applyNamed "concat"
      [.applyNamed "fallback" [applied "ref" 'A', applied "vault" 'k'], applied "ref" 'B']
    let options := (Options.ofEnvironment []).withOverrides [(['B'], ['o'])]
    let scope : Scope := ⟨[(['A'], .undefined), (['B'], .text ['b'])], options, none, some ['X']⟩
    let other : Scope :=
      ⟨[(['C'], .text ['c']), (['B'], .boolean true), (['A'], .undefined)], options, none,
        some ['Y']⟩
    let store : Store Unit :=
      { vault :=
          { secrets := [(['k'], ['s'])], failures := [], poison := none, abort := none,
            requests := [] }
        coalescer := .new false }
    ∃ expr, Expr.ofTerm (.withBuiltins [.secret "vault".toList 0]) term = .ok expr ∧
      expr.dependencies = some [['A'], ['B']] ∧
      scope.options.strictRefs = other.options.strictRefs ∧
      (∀ key ∈ [['A'], ['B']], scope.lookup key = other.lookup key) ∧
      expr.evaluate scope = expr.evaluate other ∧
      ((expr.evaluate scope).run.perform (World.new [] [store])).result.toOption.map Value.display =
        some ['s', 'o'] := by
  intro applied term options scope other store
  have same : ∀ key ∈ [['A'], ['B']], scope.lookup key = other.lookup key := by
    simp only [List.forall_mem_cons, List.not_mem_nil, false_implies, implies_true, and_true]
    exact ⟨rfl, rfl⟩
  exact ⟨_, rfl, rfl, rfl, same,
    Expr.reads_only_dependencies [("vault".toList, 0)] term _ rfl _ rfl scope other rfl same,
    by decide +kernel⟩

end Dotenv
