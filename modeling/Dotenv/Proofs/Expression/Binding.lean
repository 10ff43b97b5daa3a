import Dotenv.Proofs.Success
import Dotenv.Schema.Reading
/-!
# What expressions are bound to

An expression takes all that it does from the functions of a registry. What holds of every
call that they bind holds of every call in an expression, and every expression in the schema
of a document is one.
-/

set_option autoImplicit false

namespace Dotenv

mutual

def Expr.EachBound (holds : Bound → Prop) : Expr → Prop
  | .literal _ => True
  | .call _ _ bound args => holds bound ∧ args.EachBound holds

def Exprs.EachBound (holds : Bound → Prop) : Exprs → Prop
  | .nil => True
  | .cons _ value rest => value.EachBound holds ∧ rest.EachBound holds

end

def Resolver.Binds (holds : Bound → Prop) (resolver : Resolver) : Prop :=
  ∀ function args bound, resolver.bind function args = .ok bound → holds bound

theorem Resolver.Binds.imp {holds other : Bound → Prop} {resolver : Resolver}
    (binds : resolver.Binds holds) (implies : ∀ bound, holds bound → other bound) :
    resolver.Binds other :=
  fun function args bound success => implies bound (binds function args bound success)

/-- The functions of a registry bind calls only to what has some property. -/
def Registry.Binds (holds : Bound → Prop) (registry : Registry) : Prop :=
  ∀ name resolver, registry.get? name = some resolver → resolver.Binds holds

variable {holds : Bound → Prop} {registry : Registry}

mutual

theorem Expr.eachBound_of_ofTerm (binds : registry.Binds holds) :
    ∀ (term : Term) (expr : Expr), Expr.ofTerm registry term = .ok expr → expr.EachBound holds
  | .literal written, expr, success => by
    simp only [Expr.ofTerm, Except.ok.injEq] at success
    subst success
    exact trivial
  | .call name args _ _, expr, success => by
    simp only [Expr.ofTerm] at success
    cases found : registry.get? name with
    | none => simp [found] at success
    | some resolver =>
      simp only [found, bind_eq_ok, Except.ok.injEq] at success
      obtain ⟨exprs, argsSuccess, bound, bindSuccess, rfl⟩ := success
      exact ⟨binds name resolver found name args bound bindSuccess,
        Exprs.eachBound_of_ofArgs binds args exprs argsSuccess⟩

theorem Exprs.eachBound_of_ofArgs (binds : registry.Binds holds) :
    ∀ (args : Args) (exprs : Exprs),
      Exprs.ofArgs registry args = .ok exprs → exprs.EachBound holds
  | .nil, exprs, success => by
    simp only [Exprs.ofArgs, Except.ok.injEq] at success
    subst success
    exact trivial
  | .cons key value rest, exprs, success => by
    simp only [Exprs.ofArgs, bind_eq_ok, Except.ok.injEq] at success
    obtain ⟨first, firstSuccess, others, othersSuccess, rfl⟩ := success
    exact ⟨Expr.eachBound_of_ofTerm binds value first firstSuccess,
      Exprs.eachBound_of_ofArgs binds rest others othersSuccess⟩

end

/-- An expression that is bound to the functions of a registry, or stands for no value. -/
def Expr.IsOf (registry : Registry) (expr : Expr) : Prop :=
  expr = .literal .undefined ∨ ∃ term, Expr.ofTerm registry term = .ok expr

theorem Expr.IsOf.eachBound (binds : registry.Binds holds) (expr : Expr)
    (isOf : expr.IsOf registry) : expr.EachBound holds := by
  rcases isOf with rfl | ⟨term, success⟩
  · exact trivial
  · exact Expr.eachBound_of_ofTerm binds term expr success

def Rule.Each {α : Type} (holds : Expr → Prop) : Rule α → Prop
  | .fixed _ => True
  | .dynamic expression => holds expression

structure ItemSchema.Each (holds : Expr → Prop) (item : ItemSchema) : Prop where
  value : holds item.value
  priority : item.priority.Each holds
  sensitivity : item.sensitivity.Each holds

theorem Rule.Each.imp {α : Type} {holds other : Expr → Prop} {rule : Rule α}
    (each : rule.Each holds) (implies : ∀ expr, holds expr → other expr) : rule.Each other := by
  cases rule with
  | fixed setting => exact trivial
  | dynamic expression => exact implies expression each

theorem ItemSchema.Each.imp {holds other : Expr → Prop} {item : ItemSchema}
    (each : item.Each holds) (implies : ∀ expr, holds expr → other expr) : item.Each other :=
  ⟨implies item.value each.value, each.priority.imp implies, each.sensitivity.imp implies⟩

theorem Rule.Each.and {α : Type} {holds other : Expr → Prop} {rule : Rule α}
    (each : rule.Each holds) (also : rule.Each other) :
    rule.Each fun expr => holds expr ∧ other expr := by
  cases rule with
  | fixed setting => exact trivial
  | dynamic expression => exact ⟨each, also⟩

theorem ItemSchema.Each.and {holds other : Expr → Prop} {item : ItemSchema}
    (each : item.Each holds) (also : item.Each other) :
    item.Each fun expr => holds expr ∧ other expr :=
  ⟨⟨each.value, also.value⟩, each.priority.and also.priority,
    each.sensitivity.and also.sensitivity⟩

theorem Setter.isOf_of_switch (mayBeDynamic : Bool) (decorator : Option Decorator)
    (expression : Expr)
    (success : switch registry mayBeDynamic decorator = .ok (.dynamic expression)) :
    expression.IsOf registry := by
  cases decorator with
  | none => simp [switch] at success
  | some decorator =>
    simp only [switch] at success
    split at success
    · simp only [bind_eq_ok, pure_eq_ok, Switch.dynamic.injEq] at success
      obtain ⟨expr, exprSuccess, rfl⟩ := success
      exact .inr ⟨_, exprSuccess⟩
    · simp only [bind_eq_ok, pure_eq_ok] at success
      obtain ⟨scalar, _, isOn⟩ := success
      split at isOn <;> cases isOn

theorem Setter.each_of_choose {α : Type} (decorators : Keyed Decorator) (unset : α)
    (setters : List (Setter α)) (chosen : Option (Text × Rule α)) (rule : Rule α)
    (chosenEach : ∀ entry, chosen = some entry → entry.2.Each (Expr.IsOf registry))
    (success : choose registry decorators unset chosen setters = .ok rule) :
    rule.Each (Expr.IsOf registry) := by
  induction setters generalizing chosen with
  | nil =>
    simp only [choose, Except.ok.injEq] at success
    subst success
    cases chosen with
    | none => exact trivial
    | some entry => exact chosenEach entry rfl
  | cons setter rest ih =>
    simp only [choose, bind_eq_ok, pure_bind] at success
    obtain ⟨state, switched, success⟩ := success
    have restEach : ∀ next : Rule α, next.Each (Expr.IsOf registry) →
        choose registry decorators unset (some (setter.name.toList, next)) rest = .ok rule →
        rule.Each (Expr.IsOf registry) := by
      intro next nextEach success
      refine ih (some (setter.name.toList, next)) ?_ success
      rintro entry same
      cases same
      exact nextEach
    cases state with
    | off => exact ih chosen chosenEach success
    | on =>
      cases chosen with
      | none => exact restEach (.fixed setter.setting) trivial success
      | some entry => simp at success
    | dynamic expression =>
      cases chosen with
      | none => exact restEach (.dynamic expression) (isOf_of_switch _ _ _ switched) success
      | some entry => simp at success

theorem Checked.getD_cases {α : Type} {holds : α → Prop} (checked : Checked α) (default : α)
    (defaultHolds : holds default) (okHolds : ∀ value, checked = .ok value → holds value) :
    holds (checked.getD default) := by
  cases checked with
  | ok value => exact okHolds value rfl
  | error error => exact defaultHolds

theorem ItemSchema.each_of_ofItem (item : Item) (schema : ItemSchema)
    (success : ofItem registry item = .ok schema) : schema.Each (Expr.IsOf registry) := by
  simp only [ofItem] at success
  split at success
  · simp only [Except.ok.injEq] at success
    subst success
    constructor
    · refine Checked.getD_cases _ _ (.inl rfl) ?_
      intro expr valueIs
      unfold valueOf at valueIs
      split at valueIs
      · simp only [Except.ok.injEq] at valueIs
        exact .inl valueIs.symm
      · exact .inr ⟨_, valueIs⟩
    · refine Checked.getD_cases _ _ trivial ?_
      intro rule chosen
      exact Setter.each_of_choose _ _ _ none rule (by simp) chosen
    · refine Checked.getD_cases _ _ trivial ?_
      intro rule chosen
      exact Setter.each_of_choose _ _ _ none rule (by simp) chosen
  · cases success

theorem Schema.each_of_ofItems (items : List Item) :
    ∀ schema ∈ (ofItems registry items).1, schema.Each (Expr.IsOf registry) := by
  induction items with
  | nil => simp [ofItems]
  | cons item rest ih =>
    intro schema member
    simp only [ofItems] at member
    cases itemIs : ItemSchema.ofItem registry item with
    | error errors => exact ih schema (by simpa [itemIs] using member)
    | ok first =>
      simp only [itemIs, List.mem_cons] at member
      rcases member with rfl | member
      · exact ItemSchema.each_of_ofItem item schema itemIs
      · exact ih schema member

theorem Schema.each_of_ofDocument (document : Document) (schema : Schema)
    (success : ofDocument registry document = .ok schema) :
    ∀ item ∈ schema.items, item.Each (Expr.IsOf registry) := by
  simp only [ofDocument] at success
  split at success
  · simp only [Except.ok.injEq] at success
    subst success
    exact each_of_ofItems document.items
  · cases success

theorem Schema.eachBound_of_ofDocument (binds : registry.Binds holds) (document : Document)
    (schema : Schema) (success : ofDocument registry document = .ok schema) :
    ∀ item ∈ schema.items, item.Each (Expr.EachBound holds) := by
  intro item member
  have bound := each_of_ofDocument document schema success item member
  exact bound.imp fun expr isOf => isOf.eachBound binds

end Dotenv
