import Dotenv.Proofs.Action.Closed
/-!
# What actions may end in

What lies outside may answer in several ways. What a command may end in depends on what the commands
before it left behind, and a store may have any of some values of a key at hand, or none. What a
store replies in a round is the same in every round. `MayEnd` relates an action, and what was left
behind before it, to each result that it may come to and to what is left behind then.

Actions side by side may end in what each of them may end in alone, provided that at most the first
of them runs commands that leave something behind.
-/

set_option autoImplicit false

namespace Dotenv

structure Answers where
  State : Type
  outcome : State → Command → Outcome → State → Prop
  held : SecretRef → Option Value → Prop
  reply : Replies
  ends : ∀ before command, ∃ found after, outcome before command found after
  holds : ∀ secret, ∃ found, held secret found

/-- A command that leaves nothing behind and does not see what others have left. -/
def Answers.Forgets (answers : Answers) (command : Command) : Prop :=
  ∀ before found after, answers.outcome before command found after →
    after = before ∧ ∀ other, answers.outcome other command found other

namespace Action

variable {α β ε : Type}

def MayEnd (answers : Answers) : Action α → answers.State → α → answers.State → Prop
  | done result, before, r, after => r = result ∧ after = before
  | note _ rest, before, r, after => rest.MayEnd answers before r after
  | command c rest, before, r, after =>
    ∃ outcome between, answers.outcome before c outcome between ∧
      (rest outcome).MayEnd answers between r after
  | seek secret rest, before, r, after =>
    ∃ held, answers.held secret held ∧ (rest held).MayEnd answers before r after
  | await rest, before, r, after => (rest answers.reply).MayEnd answers before r after

variable {answers : Answers} {before after : answers.State}

theorem exists_mayEnd (action : Action α) (before : answers.State) :
    ∃ result after, action.MayEnd answers before result after := by
  induction action generalizing before with
  | done result => exact ⟨result, before, rfl, rfl⟩
  | note event rest ih => exact ih before
  | command c rest ih =>
    obtain ⟨outcome, between, ends⟩ := answers.ends before c
    obtain ⟨result, after, goesOn⟩ := ih outcome between
    exact ⟨result, after, outcome, between, ends, goesOn⟩
  | seek secret rest ih =>
    obtain ⟨held, holds⟩ := answers.holds secret
    obtain ⟨result, after, goesOn⟩ := ih held before
    exact ⟨result, after, held, holds, goesOn⟩
  | await rest ih => exact ih _ before

theorem mayEnd_bind (next : α → Action β) (action : Action α) (r : β) :
    (action.bind next).MayEnd answers before r after ↔
      ∃ result between, action.MayEnd answers before result between ∧
        (next result).MayEnd answers between r after := by
  induction action generalizing before with
  | done result =>
    constructor
    · intro ends
      exact ⟨result, before, ⟨rfl, rfl⟩, ends⟩
    · intro ends
      obtain ⟨_, _, ⟨rfl, rfl⟩, second⟩ := ends
      exact second
  | note event rest ih => exact ih
  | command c rest ih =>
    simp only [Action.bind, MayEnd, ih]
    constructor
    · intro ends
      obtain ⟨outcome, middle, found, result, between, first, second⟩ := ends
      exact ⟨result, between, ⟨outcome, middle, found, first⟩, second⟩
    · intro ends
      obtain ⟨result, between, ⟨outcome, middle, found, first⟩, second⟩ := ends
      exact ⟨outcome, middle, found, result, between, first, second⟩
  | seek secret rest ih =>
    simp only [Action.bind, MayEnd, ih]
    constructor
    · intro ends
      obtain ⟨held, holds, result, between, first, second⟩ := ends
      exact ⟨result, between, ⟨held, holds, first⟩, second⟩
    · intro ends
      obtain ⟨result, between, ⟨held, holds, first⟩, second⟩ := ends
      exact ⟨held, holds, result, between, first, second⟩
  | await rest ih => exact ih _

/-! ## Actions side by side -/

theorem MayEnd.anytime {action : Action α} {result : α}
    (ends : action.MayEnd answers before result after)
    (forgets : action.EachCommand answers.Forgets) :
    after = before ∧ ∀ other, action.MayEnd answers other result other := by
  induction action generalizing before with
  | done value =>
    obtain ⟨rfl, rfl⟩ := ends
    exact ⟨rfl, fun _ => ⟨rfl, rfl⟩⟩
  | note event rest ih => exact ih ends forgets
  | command c rest ih =>
    obtain ⟨outcome, between, found, ends⟩ := ends
    obtain ⟨rfl, always⟩ := forgets.1 before outcome between found
    obtain ⟨rfl, goesOn⟩ := ih outcome ends (forgets.2 outcome)
    exact ⟨rfl, fun other => ⟨outcome, other, always other, goesOn other⟩⟩
  | seek secret rest ih =>
    obtain ⟨held, holds, ends⟩ := ends
    obtain ⟨rfl, goesOn⟩ := ih held ends (forgets held)
    exact ⟨rfl, fun other => ⟨held, holds, goesOn other⟩⟩
  | await rest ih => exact ih _ ends (forgets _)

/-- A second action beside a first that waits: the round brings both on, and what is left of
them is side by side again. -/
theorem mayEnd_whileWaiting (rest : Replies → Action α)
    (together : ∀ second : Action β, second.EachCommand answers.Forgets → ∀ r,
      (both (rest answers.reply) second).MayEnd answers before r after ↔
        (rest answers.reply).MayEnd answers before r.1 after ∧
          second.MayEnd answers before r.2 before)
    (second : Action β) (forgets : second.EachCommand answers.Forgets) (r : α × β) :
    (whileWaiting (fun replies => both (rest replies))
        (fun other => await fun replies => both (rest replies) (done other))
        second).MayEnd answers before r after ↔
      (rest answers.reply).MayEnd answers before r.1 after ∧
        second.MayEnd answers before r.2 before := by
  induction second with
  | done other => exact together (done other) trivial r
  | note event more ih => exact ih forgets
  | command c more ih =>
    constructor
    · intro ends
      obtain ⟨outcome, between, found, ends⟩ := ends
      obtain ⟨rfl, -⟩ := forgets.1 before outcome between found
      obtain ⟨first, second⟩ := (ih outcome (forgets.2 outcome)).mp ends
      exact ⟨first, outcome, between, found, second⟩
    · intro ends
      obtain ⟨first, outcome, between, found, second⟩ := ends
      obtain ⟨rfl, -⟩ := forgets.1 before outcome between found
      exact ⟨outcome, between, found, (ih outcome (forgets.2 outcome)).mpr ⟨first, second⟩⟩
  | seek secret more ih =>
    constructor
    · intro ends
      obtain ⟨held, holds, ends⟩ := ends
      obtain ⟨first, second⟩ := (ih held (forgets held)).mp ends
      exact ⟨first, held, holds, second⟩
    · intro ends
      obtain ⟨first, held, holds, second⟩ := ends
      exact ⟨held, holds, (ih held (forgets held)).mpr ⟨first, second⟩⟩
  | await more ih => exact together _ (forgets _) r

theorem mayEnd_both (first : Action α) (second : Action β)
    (forgets : second.EachCommand answers.Forgets) (r : α × β) :
    (both first second).MayEnd answers before r after ↔
      first.MayEnd answers before r.1 after ∧ second.MayEnd answers before r.2 before := by
  induction first generalizing before second r with
  | done result =>
    obtain ⟨left, right⟩ := r
    constructor
    · intro ends
      obtain ⟨other, between, second, ⟨same, rfl⟩⟩ := (mayEnd_bind _ _ _).mp ends
      cases same
      obtain ⟨rfl, -⟩ := second.anytime forgets
      exact ⟨⟨rfl, rfl⟩, second⟩
    · intro ends
      obtain ⟨⟨rfl, rfl⟩, second⟩ := ends
      exact (mayEnd_bind _ _ _).mpr ⟨right, _, second, rfl, rfl⟩
  | note event rest ih => exact ih second forgets r
  | command c rest ih =>
    constructor
    · intro ends
      obtain ⟨outcome, between, found, ends⟩ := ends
      obtain ⟨first, second⟩ := (ih outcome second forgets r).mp ends
      -- What the first has left behind between is nothing to the second.
      exact ⟨⟨outcome, between, found, first⟩, (second.anytime forgets).2 before⟩
    · intro ends
      obtain ⟨⟨outcome, between, found, first⟩, second⟩ := ends
      have goesOn := (ih outcome _ forgets r).mpr ⟨first, (second.anytime forgets).2 between⟩
      exact ⟨outcome, between, found, goesOn⟩
  | seek secret rest ih =>
    constructor
    · intro ends
      obtain ⟨held, holds, ends⟩ := ends
      obtain ⟨first, second⟩ := (ih held second forgets r).mp ends
      exact ⟨⟨held, holds, first⟩, second⟩
    · intro ends
      obtain ⟨⟨held, holds, first⟩, second⟩ := ends
      exact ⟨held, holds, (ih held _ forgets r).mpr ⟨first, second⟩⟩
  | await rest ih =>
    exact mayEnd_whileWaiting rest (fun second forgets r => ih _ second forgets r) second forgets r

theorem mayEnd_all_cons (first : Action α) (rest : List (Action α)) (results : List α)
    (forget : ∀ action ∈ rest, action.EachCommand answers.Forgets) :
    (all (first :: rest)).MayEnd answers before results after ↔
      ∃ result others, results = result :: others ∧ first.MayEnd answers before result after ∧
        (all rest).MayEnd answers after others after := by
  have restForgets := eachCommand_all forget
  have together : ∀ r, (both first (all rest)).MayEnd answers before r after ↔
      first.MayEnd answers before r.1 after ∧ (all rest).MayEnd answers before r.2 before :=
    mayEnd_both first (all rest) restForgets
  constructor
  · intro ends
    obtain ⟨r, between, both, rfl, rfl⟩ := (mayEnd_bind _ _ _).mp ends
    obtain ⟨firstEnds, restEnds⟩ := (together r).mp both
    exact ⟨r.1, r.2, rfl, firstEnds, (restEnds.anytime restForgets).2 _⟩
  · intro ends
    obtain ⟨result, others, rfl, firstEnds, restEnds⟩ := ends
    have both := (together (result, others)).mpr
      ⟨firstEnds, (restEnds.anytime restForgets).2 before⟩
    exact (mayEnd_bind _ _ _).mpr ⟨_, _, both, rfl, rfl⟩

/-! ## Attempts -/

/-- How it goes on after an attempt: a value is taken further, and an error stays. -/
def GoesOn {σ : Type} (next : α → σ → Except ε β → σ → Prop) :
    Except ε α → σ → Except ε β → σ → Prop
  | .ok value, between, r, after => next value between r after
  | .error error, between, r, after => r = .error error ∧ after = between

theorem goesOn_congr {σ : Type} {next other : α → σ → Except ε β → σ → Prop} (first : Except ε α)
    (between after : σ) (r : Except ε β)
    (same : ∀ value, first = .ok value →
      (next value between r after ↔ other value between r after)) :
    GoesOn next first between r after ↔ GoesOn other first between r after := by
  cases first with
  | error error => exact Iff.rfl
  | ok value => exact same value rfl

theorem goesOn_assoc {σ γ : Type} (next : α → σ → Except ε β → σ → Prop)
    (last : β → σ → Except ε γ → σ → Prop) (first : Except ε α) (between after : σ)
    (r : Except ε γ) :
    GoesOn (fun value between r after => ∃ second middle, next value between second middle ∧
        GoesOn last second middle r after) first between r after ↔
      ∃ second middle, GoesOn next first between second middle ∧
        GoesOn last second middle r after := by
  cases first with
  | error error =>
    constructor
    · intro stays
      exact ⟨_, _, ⟨rfl, rfl⟩, stays⟩
    · intro stays
      obtain ⟨_, _, ⟨rfl, rfl⟩, stays⟩ := stays
      exact stays
  | ok value => exact Iff.rfl

theorem mayEnd_run_bind (next : α → ExceptT ε Action β) (attempt : ExceptT ε Action α)
    (r : Except ε β) :
    (attempt >>= next).run.MayEnd answers before r after ↔
      ∃ first between, attempt.run.MayEnd answers before first between ∧
        GoesOn (fun value => (next value).run.MayEnd answers) first between r after := by
  refine (mayEnd_bind _ attempt.run r).trans ?_
  refine exists_congr fun first => exists_congr fun between => and_congr_right fun _ => ?_
  cases first with
  | error error => exact Iff.rfl
  | ok value => exact Iff.rfl

theorem goesOn_ok {σ : Type} (next : α → σ → Except ε β → σ → Prop) (first : Except ε α)
    (between after : σ) (value : β) :
    GoesOn next first between (.ok value) after ↔
      ∃ taken, first = .ok taken ∧ next taken between (.ok value) after := by
  cases first with
  | error error =>
    constructor
    · intro stays
      exact absurd stays.1 (by simp)
    · intro goesOn
      obtain ⟨_, isOk, _⟩ := goesOn
      cases isOk
  | ok taken =>
    constructor
    · intro goesOn
      exact ⟨taken, rfl, goesOn⟩
    · intro goesOn
      obtain ⟨_, ⟨⟩, goesOn⟩ := goesOn
      exact goesOn

theorem mayEnd_ok_bind (next : α → ExceptT ε Action β) (attempt : ExceptT ε Action α) (r : β) :
    (attempt >>= next).run.MayEnd answers before (.ok r) after ↔
      ∃ value between, attempt.run.MayEnd answers before (.ok value) between ∧
        (next value).run.MayEnd answers between (.ok r) after := by
  refine (mayEnd_run_bind next attempt (.ok r)).trans ?_
  simp only [goesOn_ok]
  constructor
  · intro ends
    obtain ⟨_, between, first, value, rfl, goesOn⟩ := ends
    exact ⟨value, between, first, goesOn⟩
  · intro ends
    obtain ⟨value, between, first, goesOn⟩ := ends
    exact ⟨_, between, first, value, rfl, goesOn⟩

theorem mayEnd_lift_bind (action : Action α) (next : α → ExceptT ε Action β) (r : Except ε β) :
    ((ExceptT.lift action : ExceptT ε Action α) >>= next).run.MayEnd answers before r after ↔
      ∃ value between, action.MayEnd answers before value between ∧
        (next value).run.MayEnd answers between r after := by
  refine (mayEnd_run_bind next _ r).trans ?_
  constructor
  · intro ends
    obtain ⟨first, between, ofAction, goesOn⟩ := ends
    obtain ⟨value, _, isValue, rfl, rfl⟩ := (mayEnd_bind _ action first).mp ofAction
    exact ⟨value, _, isValue, goesOn⟩
  · intro ends
    obtain ⟨value, between, isValue, goesOn⟩ := ends
    exact ⟨.ok value, between, (mayEnd_bind _ action _).mpr ⟨value, between, isValue, rfl, rfl⟩,
      goesOn⟩

end Action

end Dotenv
