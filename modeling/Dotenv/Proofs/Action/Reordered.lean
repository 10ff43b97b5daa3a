import Dotenv.Proofs.Action.Endings
/-!
# Commands whose variables are in another order

Two actions that take the same steps to the same result, but for the order of the variables that
their commands see. Where commands see their variables as a set, both may end in the same.
-/

set_option autoImplicit false

namespace Dotenv

inductive Command.Reordered (command : Command) : Command → Prop where
  | intro (environment : Keyed Text) (perm : command.environment.Perm environment) :
    Reordered command { command with environment }

/-- Commands whose outcome depends on their variables, but not on the order of them, nor on what was
run before. -/
structure Answers.SeesVariables (answers : Answers) : Prop where
  forgets : ∀ command, answers.Forgets command
  reordered : ∀ command other, command.Reordered other → ∀ before found after,
    answers.outcome before command found after ↔ answers.outcome before other found after

/-- Commands whose outcome depends on their variables, but not on the order of them. -/
def Outside.SeesVariables (outside : Outside) : Prop :=
  ∀ command other, command.Reordered other → outside.outcome command = outside.outcome other

theorem Outside.SeesVariables.uncached {outside : Outside} (sees : outside.SeesVariables) :
    outside.uncached.SeesVariables := by
  refine ⟨fun _ _ _ _ ends => ⟨rfl, fun _ => ends⟩, fun command other reordered _ found _ => ?_⟩
  change found = outside.outcome command ↔ found = outside.outcome other
  rw [sees command other reordered]

namespace Action

variable {α β ε : Type}

/-- Two actions that take the same steps to the same result, but for the order of the variables that
commands see. -/
inductive Reordered : Action α → Action α → Prop where
  | done (result : α) : Reordered (.done result) (.done result)
  | note (event : Event) {first second} (rest : Reordered first second) :
    Reordered (.note event first) (.note event second)
  | command {c other : Command} (same : c.Reordered other) {first second}
    (rest : ∀ outcome, Reordered (first outcome) (second outcome)) :
    Reordered (.command c first) (.command other second)
  | seek (secret : SecretRef) {first second} (rest : ∀ held, Reordered (first held) (second held)) :
    Reordered (.seek secret first) (.seek secret second)
  | await {first second} (rest : ∀ replies, Reordered (first replies) (second replies)) :
    Reordered (.await first) (.await second)

theorem Reordered.refl (action : Action α) : Reordered action action := by
  induction action with
  | done result => exact .done result
  | note event rest ih => exact .note event ih
  | command c rest ih => exact .command (.intro _ (.refl _)) ih
  | seek secret rest ih => exact .seek secret ih
  | await rest ih => exact .await ih

theorem Reordered.bind {first second : Action α} {next after : α → Action β}
    (reordered : first.Reordered second) (each : ∀ result, (next result).Reordered (after result)) :
    (first >>= next).Reordered (second >>= after) := by
  induction reordered with
  | done result => exact each result
  | note event rest ih => exact .note event ih
  | command same rest ih => exact .command same ih
  | seek secret rest ih => exact .seek secret ih
  | await rest ih => exact .await ih

theorem Reordered.ok_bind {first second : ExceptT ε Action α} {next after : α → ExceptT ε Action β}
    (reordered : first.run.Reordered second.run)
    (each : ∀ value, (next value).run.Reordered (after value).run) :
    (first >>= next).run.Reordered (second >>= after).run := by
  refine Reordered.bind reordered fun result => ?_
  cases result with
  | ok value => exact each value
  | error error => exact .done _

theorem Reordered.bothUnlessError {first first' : Action (Except ε α)}
    {second second' : Action (Except ε β)} (firsts : first.Reordered first')
    (seconds : second.Reordered second') :
    (bothUnlessError first second).Reordered (bothUnlessError first' second') := by
  induction firsts generalizing second second' with
  | done result =>
    cases result with
    | error error => exact .done _
    | ok value => exact seconds.bind fun _ => .done _
  | note event rest ih => exact .note event (ih seconds)
  | command same rest ih => exact .command same fun outcome => ih outcome seconds
  | seek secret rest ih => exact .seek secret fun held => ih held seconds
  | await rest ih =>
    simp only [Action.bothUnlessError]
    induction seconds with
    | done result =>
      cases result with
      | error error => exact .done _
      | ok value => exact .await fun replies => ih replies (.done _)
    | note event more step => exact .note event step
    | command same more step => exact .command same step
    | seek secret more step => exact .seek secret step
    | await more step => exact .await fun replies => ih replies (more replies)

theorem Reordered.allUnlessError {actions others : List (Action (Except ε α))}
    (reordered : List.Forall₂ Reordered actions others) :
    (allUnlessError actions).Reordered (allUnlessError others) := by
  induction reordered with
  | nil => exact .done _
  | cons first rest ih => exact (first.bothUnlessError ih).bind fun results => .refl _

variable {answers : Answers} {before after : answers.State}

theorem Reordered.mayEnd {first second : Action α} (reordered : first.Reordered second)
    (sees : answers.SeesVariables) (r : α) :
    first.MayEnd answers before r after ↔ second.MayEnd answers before r after := by
  induction reordered generalizing before with
  | done result => exact Iff.rfl
  | note event rest ih => exact ih
  | command same rest ih =>
    refine exists_congr fun outcome => exists_congr fun between => ?_
    exact and_congr (sees.reordered _ _ same before outcome between) (ih outcome)
  | seek secret rest ih => exact exists_congr fun held => and_congr_right fun _ => ih held
  | await rest ih => exact ih _

end Action

end Dotenv
