import Dotenv.Action.Basic
/-!
# Properties of actions

What holds of actions put together when it holds of each of them: something about every command that
they may run, whatever they are answered, or that they do nothing at all. An action that runs no
command, asks no store and does not wait is a list of events and a result, and such actions one after
the other, or side by side, are one of them again.
-/

set_option autoImplicit false

namespace Dotenv.Action

variable {α β ε : Type}

/-- A property of actions that what is done has, and that one action after another has where both
have it. -/
structure Closed where
  Holds {α : Type} : Action α → Prop
  done {α : Type} (result : α) : Holds (Action.done result)
  bind {α β : Type} {action : Action α} {next : α → Action β} :
    Holds action → (∀ result, Holds (next result)) → Holds (action >>= next)

theorem Closed.ok_bind (closed : Closed) {attempt : ExceptT ε Action α}
    {next : α → ExceptT ε Action β} (first : closed.Holds attempt.run)
    (second : ∀ value, closed.Holds (next value).run) : closed.Holds (attempt >>= next).run := by
  refine closed.bind first fun result => ?_
  cases result with
  | ok value => exact second value
  | error error => exact closed.done _

/-! ## Commands -/

section
variable {holds : Command → Prop}

def EachCommand (holds : Command → Prop) : Action α → Prop
  | done _ => True
  | note _ rest => rest.EachCommand holds
  | command c rest => holds c ∧ ∀ outcome, (rest outcome).EachCommand holds
  | seek _ rest => ∀ held, (rest held).EachCommand holds
  | await rest => ∀ replies, (rest replies).EachCommand holds

theorem EachCommand.bind {action : Action α} {next : α → Action β}
    (first : action.EachCommand holds) (second : ∀ result, (next result).EachCommand holds) :
    (action >>= next).EachCommand holds := by
  change (action.bind next).EachCommand holds
  induction action with
  | done result => exact second result
  | note event rest ih => exact ih first
  | command c rest ih => exact ⟨first.1, fun outcome => ih outcome (first.2 outcome)⟩
  | seek secret rest ih => exact fun held => ih held (first held)
  | await rest ih => exact fun replies => ih replies (first replies)

def Closed.eachCommand (holds : Command → Prop) : Closed :=
  ⟨EachCommand holds, fun _ => trivial, EachCommand.bind⟩

theorem eachCommand_of_forall (every : ∀ command, holds command) (action : Action α) :
    action.EachCommand holds := by
  induction action with
  | done result => exact trivial
  | note event rest ih => exact ih
  | command c rest ih => exact ⟨every c, ih⟩
  | seek secret rest ih => exact ih
  | await rest ih => exact ih

theorem eachCommand_whileWaiting {resume : Replies → Action α → Action β} {finish : α → Action β}
    {action : Action α} (resumes : ∀ replies rest, rest.EachCommand holds →
      (resume replies rest).EachCommand holds)
    (finishes : ∀ result, (finish result).EachCommand holds) (each : action.EachCommand holds) :
    (whileWaiting resume finish action).EachCommand holds := by
  induction action with
  | done result => exact finishes result
  | note event rest ih => exact ih each
  | command c rest ih => exact ⟨each.1, fun outcome => ih outcome (each.2 outcome)⟩
  | seek secret rest ih => exact fun held => ih held (each held)
  | await rest ih => exact fun replies => resumes replies (rest replies) (each replies)

theorem eachCommand_both {first : Action α} {second : Action β} (one : first.EachCommand holds)
    (other : second.EachCommand holds) : (both first second).EachCommand holds := by
  induction first generalizing second with
  | done result => exact EachCommand.bind other fun _ => trivial
  | note event rest ih => exact ih one other
  | command c rest ih => exact ⟨one.1, fun outcome => ih outcome (one.2 outcome) other⟩
  | seek secret rest ih => exact fun held => ih held (one held) other
  | await rest ih =>
    rw [both]
    refine eachCommand_whileWaiting (fun replies rest each => ih replies (one replies) each) ?_ other
    exact fun result replies => ih replies (one replies) trivial

theorem eachCommand_all {actions : List (Action α)}
    (each : ∀ action ∈ actions, action.EachCommand holds) : (all actions).EachCommand holds := by
  induction actions with
  | nil => exact trivial
  | cons first rest ih =>
    obtain ⟨one, others⟩ := List.forall_mem_cons.mp each
    exact EachCommand.bind (eachCommand_both one (ih others)) fun _ => trivial

theorem eachCommand_bothUnlessError {first : Action (Except ε α)} {second : Action (Except ε β)}
    (one : first.EachCommand holds) (other : second.EachCommand holds) :
    (bothUnlessError first second).EachCommand holds := by
  induction first generalizing second with
  | done result =>
    cases result with
    | error error => exact trivial
    | ok value => exact EachCommand.bind other fun _ => trivial
  | note event rest ih => exact ih one other
  | command c rest ih => exact ⟨one.1, fun outcome => ih outcome (one.2 outcome) other⟩
  | seek secret rest ih => exact fun held => ih held (one held) other
  | await rest ih =>
    rw [bothUnlessError]
    refine eachCommand_whileWaiting (fun replies rest each => ih replies (one replies) each) ?_ other
    intro result
    cases result with
    | error error => exact trivial
    | ok value => exact fun replies => ih replies (one replies) trivial

theorem eachCommand_allUnlessError {actions : List (Action (Except ε α))}
    (each : ∀ action ∈ actions, action.EachCommand holds) :
    (allUnlessError actions).EachCommand holds := by
  induction actions with
  | nil => exact trivial
  | cons first rest ih =>
    obtain ⟨one, others⟩ := List.forall_mem_cons.mp each
    exact EachCommand.bind (eachCommand_bothUnlessError one (ih others)) fun _ => trivial

end

/-! ## Reports -/

def saying (result : α) : List Event → Action α
  | [] => done result
  | event :: rest => note event (saying result rest)

def Immediate (action : Action α) : Prop := ∃ result, action = done result

theorem bind_saying {action : Action α} {next : α → Action β} {result : α} {last : β}
    {events more : List Event} (first : action = saying result events)
    (second : next result = saying last more) : action >>= next = saying last (events ++ more) := by
  subst first
  induction events with
  | nil => exact second
  | cons event rest ih =>
    change note event ((saying result rest).bind next) = note event (saying last (rest ++ more))
    exact congrArg (note event) ih

theorem saying_bind_done (f : α → β) (result : α) (events : List Event) :
    (saying result events).bind (fun value => done (f value)) = saying (f result) events := by
  induction events with
  | nil => rfl
  | cons event rest ih => exact congrArg (note event) ih

theorem both_saying (result : α) (events : List Event) (other : β) (more : List Event) :
    both (saying result events) (saying other more) = saying (result, other) (events ++ more) := by
  induction events with
  | nil => exact saying_bind_done (result, ·) other more
  | cons event rest ih => exact congrArg (note event) ih

theorem all_saying {ι : Type} (action : ι → Action α) (told : ι → α → List Event) (list : List ι)
    (each : ∀ index ∈ list, ∃ result, action index = saying result (told index result)) :
    ∃ results, results.length = list.length ∧
      all (list.map action) =
        saying results ((list.zip results).flatMap fun entry => told entry.1 entry.2) := by
  induction list with
  | nil => exact ⟨[], rfl, rfl⟩
  | cons index rest ih =>
    obtain ⟨⟨result, isFirst⟩, others⟩ := List.forall_mem_cons.mp each
    obtain ⟨results, sameLength, isRest⟩ := ih others
    refine ⟨result :: results, congrArg (· + 1) sameLength, ?_⟩
    rw [List.map_cons, all, isFirst, isRest, both_saying, saying_bind_done]
    rfl

namespace Immediate

theorem bind {action : Action α} {next : α → Action β} (first : action.Immediate)
    (second : ∀ result, (next result).Immediate) : (action >>= next).Immediate := by
  obtain ⟨result, rfl⟩ := first
  exact second result

theorem allUnlessError {actions : List (Action (Except ε α))}
    (each : ∀ action ∈ actions, action.Immediate) : (allUnlessError actions).Immediate := by
  induction actions with
  | nil => exact ⟨_, rfl⟩
  | cons action rest ih =>
    obtain ⟨⟨result, rfl⟩, others⟩ := List.forall_mem_cons.mp each
    obtain ⟨results, isRest⟩ := ih others
    rw [Action.allUnlessError, isRest]
    cases result with
    | ok value => exact ⟨_, rfl⟩
    | error error => exact ⟨_, rfl⟩

end Immediate

def Closed.immediate : Closed := ⟨Immediate, fun result => ⟨result, rfl⟩, Immediate.bind⟩

end Dotenv.Action
