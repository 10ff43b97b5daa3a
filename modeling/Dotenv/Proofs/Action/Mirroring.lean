import Dotenv.Proofs.Action.Reaching
import Mathlib.Data.List.Forall2
/-!
# Actions that mirror each other

Two actions mirror each other when they want the same of what lies outside, step by step, and end
in results that belong together, whatever they are answered. What they report may differ. Carried
out in one world, they leave the same world behind.
-/

set_option autoImplicit false

namespace Dotenv.Action

variable {σ α α' β β' ε : Type} [Host σ]

inductive Mirrors (rel : α → α' → Prop) : Action α → Action α' → Prop where
  | done {result other} (related : rel result other) : Mirrors rel (.done result) (.done other)
  | note (event other : Event) {first second} (rest : Mirrors rel first second) :
    Mirrors rel (.note event first) (.note other second)
  | command (c : Command) {first second} (rest : ∀ outcome, Mirrors rel (first outcome)
      (second outcome)) : Mirrors rel (.command c first) (.command c second)
  | seek (secret : SecretRef) {first second} (rest : ∀ held, Mirrors rel (first held)
      (second held)) : Mirrors rel (.seek secret first) (.seek secret second)
  | await {first second} (rest : ∀ replies, Mirrors rel (first replies) (second replies)) :
    Mirrors rel (.await first) (.await second)

inductive SameEnd (rel : α → α' → Prop) : Except ε α → Except ε α' → Prop where
  | error (error : ε) : SameEnd rel (.error error) (.error error)
  | ok {value other} (related : rel value other) : SameEnd rel (.ok value) (.ok other)

instance [DecidableEq ε] (rel : α → α' → Prop) [∀ value other, Decidable (rel value other)] :
    ∀ (result : Except ε α) (result' : Except ε α'), Decidable (SameEnd rel result result')
  | .error error, .error error' =>
    decidable_of_iff (error = error') ⟨fun same => same ▸ .error error, fun | .error _ => rfl⟩
  | .ok value, .ok other => decidable_of_iff (rel value other) ⟨.ok, fun | .ok related => related⟩
  | .error _, .ok _ => .isFalse fun same => nomatch same
  | .ok _, .error _ => .isFalse fun same => nomatch same

def Reflects (rel : α → α' → Prop) (first : ExceptT ε Action α) (second : ExceptT ε Action α') :
    Prop :=
  Mirrors (SameEnd rel) first.run second.run

variable {rel : α → α' → Prop} {other : β → β' → Prop}

theorem Mirrors.refl {rel : α → α → Prop} (reflexive : ∀ result, rel result result)
    (action : Action α) : Mirrors rel action action := by
  induction action with
  | done result => exact .done (reflexive result)
  | note event rest ih => exact .note event event ih
  | command c rest ih => exact .command c ih
  | seek secret rest ih => exact .seek secret ih
  | await rest ih => exact .await ih

theorem Mirrors.bind {first : Action α} {second : Action α'} {next : α → Action β}
    {after : α' → Action β'} (mirrors : Mirrors rel first second)
    (each : ∀ result result', rel result result' → Mirrors other (next result) (after result')) :
    Mirrors other (first >>= next) (second >>= after) := by
  induction mirrors with
  | done related => exact each _ _ related
  | note event other rest ih => exact .note event other ih
  | command c rest ih => exact .command c ih
  | seek secret rest ih => exact .seek secret ih
  | await rest ih => exact .await ih

theorem Mirrors.imp {wider : α → α' → Prop} {first : Action α} {second : Action α'}
    (mirrors : Mirrors rel first second)
    (implies : ∀ result result', rel result result' → wider result result') :
    Mirrors wider first second := by
  induction mirrors with
  | done related => exact .done (implies _ _ related)
  | note event other rest ih => exact .note event other ih
  | command c rest ih => exact .command c ih
  | seek secret rest ih => exact .seek secret ih
  | await rest ih => exact .await ih

theorem Mirrors.perform {first : Action α} {second : Action α'} (mirrors : Mirrors rel first second)
    (world : σ) :
    rel (first.perform world).result (second.perform world).result ∧
      (first.perform world).world = (second.perform world).world := by
  induction mirrors generalizing world with
  | done related => exact ⟨related, rfl⟩
  | note event other rest ih => exact ih world
  | command c rest ih => exact ih _ _
  | seek secret rest ih => exact ih _ _
  | await rest ih => exact ih _ _

theorem Mirrors.reaching {first : Action α} {second : Action α'}
    (mirrors : Mirrors rel first second) :
    Mirrors (fun result result' => rel result result' ∧ first.Reaches result) first second := by
  induction mirrors with
  | done related => exact .done ⟨related, rfl⟩
  | note event other rest ih => exact .note event other ih
  | command c rest ih =>
    refine .command c fun outcome => (ih outcome).imp fun result result' related => ?_
    exact ⟨related.1, outcome, related.2⟩
  | seek secret rest ih =>
    refine .seek secret fun held => (ih held).imp fun result result' related => ?_
    exact ⟨related.1, held, related.2⟩
  | await rest ih =>
    refine .await fun replies => (ih replies).imp fun result result' related => ?_
    exact ⟨related.1, replies, related.2⟩

/-! ## Side by side -/

def Together (rel : α → α' → Prop) (other : β → β' → Prop) (results : α × β)
    (results' : α' × β') : Prop :=
  rel results.1 results'.1 ∧ other results.2 results'.2

theorem Mirrors.both {first : Action α} {first' : Action α'} {second : Action β}
    {second' : Action β'} (firsts : Mirrors rel first first') (seconds : Mirrors other second second') :
    Mirrors (Together rel other) (both first second) (both first' second') := by
  induction firsts generalizing second second' with
  | done related =>
    exact seconds.bind fun result result' also => .done ⟨related, also⟩
  | note event other rest ih => exact .note event other (ih seconds)
  | command c rest ih => exact .command c fun outcome => ih outcome seconds
  | seek secret rest ih => exact .seek secret fun held => ih held seconds
  | await rest ih =>
    simp only [Action.both]
    -- Up to where the second waits too, only the second takes steps.
    induction seconds with
    | done also => exact .await fun replies => ih replies (.done also)
    | note event other more step => exact .note event other step
    | command c more step => exact .command c step
    | seek secret more step => exact .seek secret step
    | await more step => exact .await fun replies => ih replies (more replies)

theorem Mirrors.all {actions : List (Action α)} {actions' : List (Action α')}
    (mirrors : List.Forall₂ (Mirrors rel) actions actions') :
    Mirrors (List.Forall₂ rel) (all actions) (all actions') := by
  induction mirrors with
  | nil => exact .done .nil
  | cons first rest ih =>
    exact (first.both ih).bind fun results results' related => .done (.cons related.1 related.2)

theorem Mirrors.bothUnlessError {first : Action (Except ε α)} {first' : Action (Except ε α')}
    {second : Action (Except ε β)} {second' : Action (Except ε β')}
    (firsts : Mirrors (SameEnd rel) first first')
    (seconds : Mirrors (SameEnd other) second second') :
    Mirrors (SameEnd (Together rel other)) (bothUnlessError first second)
      (bothUnlessError first' second') := by
  induction firsts generalizing second second' with
  | done related =>
    cases related with
    | error error => exact .done (.error error)
    | ok related =>
      refine seconds.bind fun result result' also => ?_
      cases also with
      | error error => exact .done (.error error)
      | ok also => exact .done (.ok ⟨related, also⟩)
  | note event other rest ih => exact .note event other (ih seconds)
  | command c rest ih => exact .command c fun outcome => ih outcome seconds
  | seek secret rest ih => exact .seek secret fun held => ih held seconds
  | await rest ih =>
    simp only [Action.bothUnlessError]
    induction seconds with
    | done also =>
      cases also with
      | error error => exact .done (.error error)
      | ok also => exact .await fun replies => ih replies (.done (.ok also))
    | note event other more step => exact .note event other step
    | command c more step => exact .command c step
    | seek secret more step => exact .seek secret step
    | await more step => exact .await fun replies => ih replies (more replies)

theorem Mirrors.allUnlessError {actions : List (Action (Except ε α))}
    {actions' : List (Action (Except ε α'))}
    (mirrors : List.Forall₂ (Mirrors (SameEnd rel)) actions actions') :
    Mirrors (SameEnd (List.Forall₂ rel)) (allUnlessError actions) (allUnlessError actions') := by
  induction mirrors with
  | nil => exact .done (.ok .nil)
  | cons first rest ih =>
    refine (first.bothUnlessError ih).bind fun results results' related => ?_
    cases related with
    | error error => exact .done (.error error)
    | ok related => exact .done (.ok (.cons related.1 related.2))

/-! ## Attempts -/

namespace Reflects

theorem refl {rel : α → α → Prop} (reflexive : ∀ value, rel value value)
    (attempt : ExceptT ε Action α) : Reflects rel attempt attempt := by
  refine Mirrors.refl ?_ attempt.run
  intro result
  cases result with
  | error error => exact .error error
  | ok value => exact .ok (reflexive value)

theorem pure {value : α} {value' : α'} (related : rel value value') :
    Reflects rel (pure value : ExceptT ε Action α) (Pure.pure value') :=
  .done (.ok related)

theorem throw (error : ε) :
    Reflects rel (throw error : ExceptT ε Action α) (throw error : ExceptT ε Action α') :=
  .done (.error error)

theorem bind_reaching {first : ExceptT ε Action α} {second : ExceptT ε Action α'}
    {next : α → ExceptT ε Action β} {after : α' → ExceptT ε Action β'}
    (reflects : Reflects rel first second)
    (each : ∀ value value', rel value value' → first.run.Reaches (.ok value) →
      Reflects other (next value) (after value')) :
    Reflects other (first >>= next) (second >>= after) := by
  refine Mirrors.bind (Mirrors.reaching reflects) fun result result' same => ?_
  obtain ⟨same, reaches⟩ := same
  cases same with
  | error error => exact .done (.error error)
  | ok related => exact each _ _ related reaches

theorem bind {first : ExceptT ε Action α} {second : ExceptT ε Action α'}
    {next : α → ExceptT ε Action β} {after : α' → ExceptT ε Action β'}
    (reflects : Reflects rel first second)
    (each : ∀ value value', rel value value' → Reflects other (next value) (after value')) :
    Reflects other (first >>= next) (second >>= after) :=
  reflects.bind_reaching fun value value' related _ => each value value' related

theorem lift {first : Action α} {second : Action α'} (mirrors : Mirrors rel first second) :
    Reflects rel (ExceptT.lift first : ExceptT ε Action α) (ExceptT.lift second) :=
  mirrors.bind fun _ _ related => .done (.ok related)

end Reflects

end Dotenv.Action
