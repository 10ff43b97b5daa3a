import Dotenv.Proofs.Action.Endings
import Dotenv.Proofs.Expression.Own
/-!
# What evaluating an expression does

An expression is evaluated by evaluating its calls, so a property that passes from the arguments of a
call to the call passes from the calls to the expression. Three of them are told here.

A command that an expression runs sees the values so far as variables. Only a call that may read any
key runs commands of its own, so an expression whose dependencies are known runs none.

Where the answers from outside are fixed, an expression has one result in a scope, whatever the
stores have at hand. There is one reservation: the arguments of a call are evaluated side by side,
and which of several errors comes first may depend on what is at hand. So a call is asked to report
the error of the first argument that fails.

An expression whose calls are of the library's own functions, but for the one that runs commands,
has its value at once: evaluating it reports nothing and asks nothing of the world.
-/

set_option autoImplicit false

namespace Dotenv

open Dotenv.Action (Closed EachCommand Immediate)

variable {α β ε : Type} {holds : Command → Prop} {outside : Outside}

/-! ## Expressions and their parts -/

structure Expr.Hereditary (whole : Expr → Prop) (parts : Exprs → Prop) : Prop where
  arguments {name resolver : Text} {bound : Bound} {args : Exprs} :
    whole (.call name resolver bound args) → parts args
  first {key : Option Text} {value : Expr} {rest : Exprs} : parts (.cons key value rest) → whole value
  rest {key : Option Text} {value : Expr} {rest : Exprs} : parts (.cons key value rest) → parts rest

namespace Expr.Hereditary

theorem and {whole also : Expr → Prop} {parts alsoParts : Exprs → Prop}
    (hereditary : Hereditary whole parts) (other : Hereditary also alsoParts) :
    Hereditary (fun expr => whole expr ∧ also expr) (fun exprs => parts exprs ∧ alsoParts exprs) where
  arguments both := ⟨hereditary.arguments both.1, other.arguments both.2⟩
  first both := ⟨hereditary.first both.1, other.first both.2⟩
  rest both := ⟨hereditary.rest both.1, other.rest both.2⟩

theorem eachBound (holds : Bound → Prop) :
    Hereditary (Expr.EachBound holds) (Exprs.EachBound holds) where
  arguments each := each.2
  first each := each.1
  rest each := each.2

theorem ofUnknown (needed : Prop) :
    Hereditary (fun expr => expr.dependencies = none → needed)
      (fun exprs => exprs.dependencies = none → needed) where
  arguments {_ _ bound _} needs unknown := by
    apply needs
    simp only [Expr.dependencies, unknown, Option.bind_eq_bind, Option.bind_none]
    cases bound.dependencies <;> rfl
  first needs unknown := by
    apply needs
    simp only [Exprs.dependencies, unknown, Option.bind_eq_bind, Option.bind_none]
  rest {_ value _} needs unknown := by
    apply needs
    simp only [Exprs.dependencies, unknown, Option.bind_eq_bind, Option.bind_none]
    cases value.dependencies <;> rfl

end Expr.Hereditary

section
variable {whole : Expr → Prop} {parts : Exprs → Prop} (hereditary : Expr.Hereditary whole parts)
variable (closed : Closed) (scope : Scope)

def Expr.KeptBy (closed : Closed) (scope : Scope) (whole : Expr → Prop) : Prop :=
  ∀ (name resolver : Text) (bound : Bound) (args : Exprs),
    whole (.call name resolver bound args) →
    (∀ argument ∈ args.arguments scope, closed.Holds argument.value.run) →
    closed.Holds (bound.run ⟨name, args.arguments scope, scope⟩).run

include hereditary

mutual

theorem Expr.holds_evaluate (kept : Expr.KeptBy closed scope whole) :
    ∀ expr : Expr, whole expr → closed.Holds (expr.evaluate scope).run
  | .literal _, _ => closed.done _
  | .call name resolver bound args, every =>
    kept name resolver bound args every
      (Exprs.holds_arguments kept args (hereditary.arguments every))

theorem Exprs.holds_arguments (kept : Expr.KeptBy closed scope whole) :
    ∀ exprs : Exprs, parts exprs →
      ∀ argument ∈ exprs.arguments scope, closed.Holds argument.value.run
  | .nil, _ => fun argument member => nomatch member
  | .cons key value rest, every => by
    simp only [Exprs.arguments, List.forall_mem_cons]
    exact ⟨Expr.holds_evaluate kept value (hereditary.first every),
      Exprs.holds_arguments kept rest (hereditary.rest every)⟩

end

end

/-! ## Commands -/

/-- The commands of a call are those of its arguments. Where the call may read any key, there may be
others that its scope allows. -/
def Bound.RunsOnly (allowed : Scope → Command → Prop) (bound : Bound) : Prop :=
  ∀ (call : Invocation) (holds : Command → Prop),
    (∀ argument ∈ call.arguments, argument.value.run.EachCommand holds) →
    (bound.dependencies = none → ∀ command : Command, allowed call.scope command → holds command) →
    (bound.run call).run.EachCommand holds

/-- A call that runs commands of its own only where it may read any key. -/
def Bound.IsQuiet (bound : Bound) : Prop := bound.RunsOnly fun _ _ => True

/-- The commands of a call are those of its arguments. Where the call may read any key, there may be
others, which see the scope of the call. -/
def Bound.ShowsScope (bound : Bound) : Prop :=
  ∀ (call : Invocation) (holds : Command → Prop),
    (∀ argument ∈ call.arguments, argument.value.run.EachCommand holds) →
    (bound.dependencies = none →
      ∀ command : Command, command.environment = call.scope.environment → holds command) →
    (bound.run call).run.EachCommand holds

theorem Resolver.eachCommand_ask (secret : SecretRef) : (Action.ask secret).EachCommand holds := by
  intro held
  cases held with
  | none => exact fun _ => trivial
  | some value => exact trivial

/-- The library's own functions, and those of stores, show their scope to commands and have none
where the keys that they read are known. -/
theorem Bound.IsOwn.showsScope (bound : Bound) (own : bound.IsOwn) : bound.ShowsScope := by
  intro call holds each sees
  apply (Closed.eachCommand holds).run_of_isOwn own each
  · exact (Closed.eachCommand holds).values each fun _ => Action.eachCommand_allUnlessError
  · exact Resolver.eachCommand_ask
  · intro unknown script
    exact ⟨sees unknown _ rfl, fun _ _ => trivial⟩

theorem Bound.ShowsScope.isQuiet {bound : Bound} (shows : bound.ShowsScope) : bound.IsQuiet :=
  fun call holds each sees => shows call holds each fun unknown command _ =>
    sees unknown command trivial

/-- The commands of an expression are allowed by its scope, and there are none where the keys that it
reads are known. -/
theorem Expr.eachCommand_evaluate (allowed : Scope → Command → Prop) (scope : Scope) (expr : Expr)
    (runs : expr.EachBound (Bound.RunsOnly allowed))
    (sees : expr.dependencies = none → ∀ command : Command, allowed scope command → holds command) :
    (expr.evaluate scope).run.EachCommand holds := by
  have hereditary := (Hereditary.eachBound (Bound.RunsOnly allowed)).and
    (.ofUnknown (∀ command : Command, allowed scope command → holds command))
  refine holds_evaluate hereditary (.eachCommand holds) scope ?_ expr ⟨runs, sees⟩
  intro name resolver bound args every each
  refine every.1.1 _ holds each fun unknown => every.2 ?_
  simp only [Expr.dependencies, unknown, Option.bind_eq_bind, Option.bind_none]

/-! ## One result -/

def Settled (outside : Outside) (attempt : ExceptT ε Action α) : Prop :=
  attempt.run.Determined outside

namespace Settled

theorem pure (value : α) : Settled outside (pure value : ExceptT ε Action α) :=
  Action.determined_done _

theorem throw (error : ε) : Settled outside (throw error : ExceptT ε Action α) :=
  Action.determined_done _

theorem bind {attempt : ExceptT ε Action α} {next : α → ExceptT ε Action β}
    (first : Settled outside attempt) (second : ∀ value, Settled outside (next value)) :
    Settled outside (attempt >>= next) :=
  (Action.Closed.determined outside).ok_bind first second

theorem lift {action : Action α} (determined : action.Determined outside) :
    Settled outside (ExceptT.lift action : ExceptT ε Action α) :=
  Action.Determined.bind determined fun _ => Action.determined_done _

end Settled

def Invocation.inOrder (outside : Outside) (call : Invocation) :
    Except ResolutionError (List Value) :=
  call.arguments.mapM fun argument => argument.value.run.answer outside

def Invocation.ReportsFirst (outside : Outside) (call : Invocation) : Prop :=
  ∀ result, call.values.run.EndsIn outside result → result = call.inOrder outside

/-- A call with one result, provided that its arguments have one and that it reports the first
of those that fail. -/
def Bound.IsFixed (outside : Outside) (bound : Bound) : Prop :=
  ∀ call : Invocation, (∀ argument ∈ call.arguments, Settled outside argument.value) →
    call.ReportsFirst outside → Settled outside (bound.run call)

theorem Invocation.ReportsFirst.settled {call : Invocation}
    (reports : call.ReportsFirst outside) : Settled outside call.values := by
  intro result ends
  rw [reports result ends]
  exact (reports _ (Action.endsIn_answer outside call.values.run)).symm

theorem Resolver.settled_ask (secret : SecretRef) : Settled outside (.mk (Action.ask secret)) := by
  rintro result ⟨held, mayHold, ends⟩
  cases held with
  | none => exact ends.symm
  | some value => exact ends.symm.trans mayHold.symm

theorem Bound.IsOwn.isFixed (bound : Bound) (own : bound.IsOwn) : bound.IsFixed outside := by
  intro call settled reports
  apply (Closed.determined outside).run_of_isOwn own settled
  · exact reports.settled
  · exact Resolver.settled_ask
  · exact fun _ script result ends => ends.symm

mutual

def Expr.ReportsFirst (outside : Outside) : Expr → Prop
  | .literal _ => True
  | .call name _ _ args =>
    (∀ scope, Invocation.ReportsFirst outside ⟨name, args.arguments scope, scope⟩) ∧
      args.ReportsFirst outside

def Exprs.ReportsFirst (outside : Outside) : Exprs → Prop
  | .nil => True
  | .cons _ value rest => value.ReportsFirst outside ∧ rest.ReportsFirst outside

end

theorem Expr.settled_evaluate (scope : Scope) (expr : Expr)
    (fixed : expr.EachBound (Bound.IsFixed outside)) (reports : expr.ReportsFirst outside) :
    Settled outside (expr.evaluate scope) := by
  have passes : Hereditary (Expr.ReportsFirst outside) (Exprs.ReportsFirst outside) :=
    ⟨And.right, And.left, And.right⟩
  have hereditary := (Hereditary.eachBound (Bound.IsFixed outside)).and passes
  refine holds_evaluate hereditary (.determined outside) scope ?_ expr ⟨fixed, reports⟩
  intro name resolver bound args every settled
  exact every.1.1 _ settled (every.2.1 scope)

/-! ## Nothing run -/

theorem Expr.immediate_evaluate (scope : Scope) (expr : Expr)
    (isLocal : expr.EachBound Bound.IsLocal) : (expr.evaluate scope).run.Immediate := by
  refine holds_evaluate (.eachBound Bound.IsLocal) .immediate scope ?_ expr isLocal
  intro name resolver bound args every immediate
  apply Closed.immediate.run_of_isLocal every.1 immediate
  exact Closed.immediate.values immediate fun _ => Immediate.allUnlessError

/-! ## Names of calls -/

mutual

def Expr.EachCall (named : Text → Prop) : Expr → Prop
  | .literal _ => True
  | .call name _ _ args => named name ∧ args.EachCall named

def Exprs.EachCall (named : Text → Prop) : Exprs → Prop
  | .nil => True
  | .cons _ value rest => value.EachCall named ∧ rest.EachCall named

end

/-- Whether a name stands for one of the library's own functions that run no command. -/
def Registry.IsLocal (registry : Registry) (name : Text) : Prop :=
  ∃ resolver ∈ Resolver.builtins, resolver.name ≠ Resolver.exec.name ∧
    registry.get? name = some resolver

section
variable {registry : Registry}

mutual

theorem Expr.eachBound_of_eachCall :
    ∀ (term : Term) (expr : Expr), Expr.ofTerm registry term = .ok expr →
      expr.EachCall registry.IsLocal → expr.EachBound Bound.IsLocal
  | .literal written, expr, success, _ => by
    cases success
    exact trivial
  | .call name args _ _, expr, success, eachCall => by
    simp only [Expr.ofTerm] at success
    cases found : registry.get? name with
    | none => simp [found] at success
    | some resolver =>
      simp only [found, bind_eq_ok, Except.ok.injEq] at success
      obtain ⟨exprs, argsSuccess, bound, bindSuccess, rfl⟩ := success
      obtain ⟨⟨builtin, member, runsNone, isBuiltin⟩, argsCall⟩ := eachCall
      cases found.symm.trans isBuiltin
      exact ⟨Resolver.builtins_isLocal resolver member runsNone name args bound bindSuccess,
        Exprs.eachBound_of_eachCall args exprs argsSuccess argsCall⟩

theorem Exprs.eachBound_of_eachCall :
    ∀ (args : Args) (exprs : Exprs), Exprs.ofArgs registry args = .ok exprs →
      exprs.EachCall registry.IsLocal → exprs.EachBound Bound.IsLocal
  | .nil, exprs, success, _ => by
    cases success
    exact trivial
  | .cons key value rest, exprs, success, eachCall => by
    simp only [Exprs.ofArgs, bind_eq_ok, Except.ok.injEq] at success
    obtain ⟨first, firstSuccess, others, othersSuccess, rfl⟩ := success
    exact ⟨Expr.eachBound_of_eachCall value first firstSuccess eachCall.1,
      Exprs.eachBound_of_eachCall rest others othersSuccess eachCall.2⟩

end

theorem Expr.IsOf.isLocal {expr : Expr} (isOf : expr.IsOf registry)
    (eachCall : expr.EachCall registry.IsLocal) : expr.EachBound Bound.IsLocal := by
  rcases isOf with rfl | ⟨term, success⟩
  · exact trivial
  · exact Expr.eachBound_of_eachCall term expr success eachCall

end

end Dotenv
