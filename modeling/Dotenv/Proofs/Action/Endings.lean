import Dotenv.Proofs.Action.Answers
import Dotenv.Proofs.Success
import Mathlib.Data.List.Forall2
/-!
# How actions end

What lies outside answers an action's commands and its questions to stores. Its answers are
fixed: a command leads to the same outcome whenever it is run, and a store answers a key the
same in every round. Whether a store has the value of a key at hand is left open, so an action
may end in more than one way; `EndsIn` is the relation between an action and its results.

Actions side by side that succeed alone succeed together. No answer to one action depends on what
the others ask.
-/

set_option autoImplicit false

namespace Dotenv

/-- What lies outside: the outcome of every command, and the reply of every store to every key. -/
structure Outside where
  outcome : Command → Outcome
  reply : SecretRef → Reply

/-- Whether a store may have a value at hand: nothing, or what it would reply. -/
def Outside.MayHold (outside : Outside) (secret : SecretRef) : Option Value → Prop
  | none => True
  | some value => outside.reply secret = .ok value

def Outside.answers (outside : Outside) : Answers :=
  { State := Unit
    outcome := fun _ command found _ => found = outside.outcome command
    held := outside.MayHold
    reply := outside.reply
    ends := fun _ command => ⟨outside.outcome command, (), rfl⟩
    holds := fun _ => ⟨none, trivial⟩ }

def Outside.uncached (outside : Outside) : Answers :=
  { outside.answers with
    held := fun _ found => found = none
    holds := fun _ => ⟨none, rfl⟩ }

instance : Host Outside where
  run command outside := (outside.outcome command, outside)
  seek _ outside := (none, outside)
  close outside := (outside.reply, outside, [])

namespace Action

variable {α β ε : Type}

def EndsIn (outside : Outside) : Action α → α → Prop
  | done result, r => result = r
  | note _ rest, r => rest.EndsIn outside r
  | command c rest, r => (rest (outside.outcome c)).EndsIn outside r
  | seek secret rest, r => ∃ held, outside.MayHold secret held ∧ (rest held).EndsIn outside r
  | await rest, r => (rest outside.reply).EndsIn outside r

def answer (outside : Outside) : Action α → α
  | done result => result
  | note _ rest => rest.answer outside
  | command c rest => (rest (outside.outcome c)).answer outside
  | seek _ rest => (rest none).answer outside
  | await rest => (rest outside.reply).answer outside

/-- An action ends in one result and in no other, whatever is at hand. -/
def Yields (outside : Outside) (action : Action α) (result : α) : Prop :=
  ∀ r, action.EndsIn outside r ↔ r = result

def Determined (outside : Outside) (action : Action α) : Prop :=
  ∀ result, action.EndsIn outside result → result = action.answer outside

theorem endsIn_answer (outside : Outside) (action : Action α) :
    action.EndsIn outside (action.answer outside) := by
  induction action with
  | done result => rfl
  | note event rest ih => exact ih
  | command c rest ih => exact ih _
  | seek secret rest ih => exact ⟨none, trivial, ih none⟩
  | await rest ih => exact ih _

theorem result_perform (outside : Outside) (action : Action α) :
    (action.perform outside).result = action.answer outside := by
  induction action with
  | done result => rfl
  | note event rest ih => exact ih
  | command c rest ih => exact ih _
  | seek secret rest ih => exact ih none
  | await rest ih => exact ih _

theorem Determined.yields {outside : Outside} {action : Action α}
    (determined : action.Determined outside) : action.Yields outside (action.answer outside) := by
  intro result
  constructor
  · exact determined result
  · rintro rfl
    exact endsIn_answer outside action

theorem mayEnd_answers (outside : Outside) (action : Action α) (r : α) :
    action.MayEnd outside.answers () r () ↔ action.EndsIn outside r := by
  induction action with
  | done result =>
    constructor
    · intro ends
      exact ends.1.symm
    · intro same
      exact ⟨same.symm, rfl⟩
  | note event rest ih => exact ih
  | command c rest ih =>
    constructor
    · intro ends
      obtain ⟨_, _, rfl, goesOn⟩ := ends
      exact (ih _).mp goesOn
    · intro goesOn
      exact ⟨_, (), rfl, (ih _).mpr goesOn⟩
  | seek secret rest ih => exact exists_congr fun held => and_congr_right fun _ => ih held
  | await rest ih => exact ih _

theorem mayEnd_uncached (outside : Outside) (action : Action α) (r : α) :
    action.MayEnd outside.uncached () r () ↔ r = action.answer outside := by
  induction action with
  | done result =>
    constructor
    · intro ends
      exact ends.1
    · intro same
      exact ⟨same, rfl⟩
  | note event rest ih => exact ih
  | command c rest ih =>
    constructor
    · intro ends
      obtain ⟨_, _, rfl, goesOn⟩ := ends
      exact (ih _).mp goesOn
    · intro goesOn
      exact ⟨_, (), rfl, (ih _).mpr goesOn⟩
  | seek secret rest ih =>
    simp only [MayEnd, answer, Outside.uncached, exists_eq_left]
    exact ih _
  | await rest ih => exact ih _

theorem forgets_answers (outside : Outside) (action : Action α) :
    action.EachCommand outside.answers.Forgets :=
  eachCommand_of_forall (fun _ _ _ _ ends => ⟨rfl, fun _ => ends⟩) action

@[simp]
theorem endsIn_done (outside : Outside) (result r : α) :
    (done result : Action α).EndsIn outside r ↔ r = result := by
  exact eq_comm

theorem endsIn_bind (outside : Outside) (next : α → Action β) (action : Action α) (r : β) :
    (action.bind next).EndsIn outside r ↔
      ∃ result, action.EndsIn outside result ∧ (next result).EndsIn outside r := by
  simp only [← mayEnd_answers]
  refine (mayEnd_bind next action r).trans (exists_congr fun result => ?_)
  exact ⟨fun ends => ends.elim fun _ both => both, fun both => ⟨(), both⟩⟩

theorem yields_done {outside : Outside} (result : α) : (done result).Yields outside result :=
  endsIn_done outside result

theorem yields_report {outside : Outside} (event : Event) : (report event).Yields outside () :=
  fun _ => ⟨fun _ => rfl, fun _ => rfl⟩

theorem Yields.bind {outside : Outside} {action : Action α} {next : α → Action β} {value : α}
    {result : β} (first : action.Yields outside value)
    (second : (next value).Yields outside result) :
    (action >>= next).Yields outside result := by
  intro r
  refine (endsIn_bind outside next action r).trans ?_
  constructor
  · rintro ⟨other, firstEnds, secondEnds⟩
    rw [(first other).mp firstEnds] at secondEnds
    exact (second r).mp secondEnds
  · intro same
    exact ⟨value, (first _).mpr rfl, (second r).mpr same⟩

theorem answer_bind (outside : Outside) (next : α → Action β) (action : Action α) :
    (action.bind next).answer outside = (next (action.answer outside)).answer outside := by
  induction action with
  | done result => rfl
  | note event rest ih => exact ih
  | command c rest ih => exact ih _
  | seek secret rest ih => exact ih _
  | await rest ih => exact ih _

theorem determined_done {outside : Outside} (result : α) : (done result).Determined outside :=
  fun _ ends => ends.symm

theorem determined_report {outside : Outside} (event : Event) :
    (report event).Determined outside :=
  fun _ _ => rfl

theorem Determined.bind {outside : Outside} {action : Action α} {next : α → Action β}
    (first : action.Determined outside)
    (second : ∀ result, (next result).Determined outside) :
    (action >>= next).Determined outside := by
  intro r ends
  obtain ⟨result, firstEnds, secondEnds⟩ := (endsIn_bind outside next action r).mp ends
  rw [first result firstEnds] at secondEnds
  show r = (action.bind next).answer outside
  rw [answer_bind]
  exact second _ r secondEnds

def Closed.determined (outside : Outside) : Closed :=
  ⟨Determined outside, determined_done, Determined.bind⟩

theorem yields_of_forall {outside : Outside} {action : Action α} {result : α}
    (only : ∀ r, action.EndsIn outside r → r = result) : action.Yields outside result := by
  intro r
  constructor
  · exact only r
  · rintro rfl
    have answer := endsIn_answer outside action
    rw [only _ answer] at answer
    exact answer

theorem endsIn_whileWaiting_ok (outside : Outside) (rest : Replies → Action (Except ε α))
    (a : α) (b : β)
    (together : ∀ second : Action (Except ε β),
      (∀ r, second.EndsIn outside r → r = .ok b) →
      ∀ r, (bothUnlessError (rest outside.reply) second).EndsIn outside r → r = .ok (a, b))
    (second : Action (Except ε β)) (succeeds : ∀ r, second.EndsIn outside r → r = .ok b)
    (r : Except ε (α × β))
    (ends : (bothUnlessError (await rest) second).EndsIn outside r) : r = .ok (a, b) := by
  simp only [bothUnlessError] at ends
  induction second with
  | done other =>
    have isOk : other = .ok b := succeeds other rfl
    subst isOk
    simp only [whileWaiting, EndsIn] at ends
    exact together _ (fun r ends => (endsIn_done outside _ r).mp ends) r ends
  | note event more ih => exact ih succeeds ends
  | command c more ih => exact ih _ succeeds ends
  | seek secret more ih =>
    obtain ⟨held, mayHold, ends⟩ := ends
    exact ih held (fun r ends => succeeds r ⟨held, mayHold, ends⟩) ends
  | await more ih =>
    simp only [whileWaiting, EndsIn] at ends
    exact together (more outside.reply) succeeds r ends

theorem endsIn_bothUnlessError_ok (outside : Outside) (first : Action (Except ε α))
    (second : Action (Except ε β)) (a : α) (b : β)
    (firstSucceeds : ∀ r, first.EndsIn outside r → r = .ok a)
    (secondSucceeds : ∀ r, second.EndsIn outside r → r = .ok b) (r : Except ε (α × β))
    (ends : (bothUnlessError first second).EndsIn outside r) : r = .ok (a, b) := by
  induction first generalizing second r with
  | done result =>
    have isOk : result = .ok a := firstSucceeds result rfl
    subst isOk
    simp only [bothUnlessError, endsIn_bind] at ends
    obtain ⟨other, secondEnds, same⟩ := ends
    rw [secondSucceeds other secondEnds] at same
    exact same.symm
  | note event rest ih => exact ih second firstSucceeds secondSucceeds r ends
  | command c rest ih => exact ih _ second firstSucceeds secondSucceeds r ends
  | seek secret rest ih =>
    obtain ⟨held, mayHold, ends⟩ := ends
    exact ih held second (fun r ends => firstSucceeds r ⟨held, mayHold, ends⟩) secondSucceeds r ends
  | await rest ih =>
    exact endsIn_whileWaiting_ok outside rest a b
      (fun second succeeds r ends => ih _ second firstSucceeds succeeds r ends)
      second secondSucceeds r ends

theorem yields_allUnlessError {outside : Outside} {actions : List (Action (Except ε α))}
    {results : List α}
    (yields : List.Forall₂ (fun action result => action.Yields outside (.ok result)) actions
      results) :
    (allUnlessError actions).Yields outside (.ok results) := by
  induction yields with
  | nil => exact yields_done _
  | @cons action result others more first rest ih =>
    have both : (bothUnlessError action (allUnlessError others)).Yields outside
        (.ok (result, more)) :=
      yields_of_forall fun r ends => endsIn_bothUnlessError_ok outside _ _ result more
        (fun r => (first r).mp) (fun r => (ih r).mp) r ends
    exact Yields.bind both (yields_done _)

theorem answer_whileWaiting_ok (outside : Outside) (rest : Replies → Action (Except ε α))
    (a : α) (b : β)
    (together : ∀ second : Action (Except ε β),
      (bothUnlessError (rest outside.reply) second).answer outside = .ok (a, b) ↔
        (rest outside.reply).answer outside = .ok a ∧ second.answer outside = .ok b)
    (second : Action (Except ε β)) :
    (bothUnlessError (await rest) second).answer outside = .ok (a, b) ↔
      (rest outside.reply).answer outside = .ok a ∧ second.answer outside = .ok b := by
  simp only [bothUnlessError]
  induction second with
  | done other =>
    cases other with
    | error error => simp [whileWaiting, answer]
    | ok result => simpa only [whileWaiting, answer] using together (done (.ok result))
  | note event more ih => simpa only [whileWaiting, answer] using ih
  | command c more ih => simpa only [whileWaiting, answer] using ih _
  | seek secret more ih => simpa only [whileWaiting, answer] using ih _
  | await more ih => simpa only [whileWaiting, answer] using together _

theorem answer_bothUnlessError_ok (outside : Outside) (first : Action (Except ε α))
    (second : Action (Except ε β)) (a : α) (b : β) :
    (bothUnlessError first second).answer outside = .ok (a, b) ↔
      first.answer outside = .ok a ∧ second.answer outside = .ok b := by
  induction first generalizing second with
  | done result =>
    cases result with
    | error error => simp [bothUnlessError, answer]
    | ok left =>
      simp only [bothUnlessError, answer_bind, answer]
      cases second.answer outside with
      | error error => simp [Except.map]
      | ok right => simp [Except.map]
  | note event rest ih => simpa only [bothUnlessError, answer] using ih second
  | command c rest ih => simpa only [bothUnlessError, answer] using ih _ second
  | seek secret rest ih => simpa only [bothUnlessError, answer] using ih _ second
  | await rest ih =>
    exact answer_whileWaiting_ok outside rest a b (fun second => ih _ second) second

theorem answer_allUnlessError_ok (outside : Outside) (actions : List (Action (Except ε α)))
    (results : List α) :
    (allUnlessError actions).answer outside = .ok results ↔
      List.Forall₂ (fun action result => action.answer outside = .ok result) actions results := by
  induction actions generalizing results with
  | nil =>
    simp only [allUnlessError, answer, Except.ok.injEq]
    constructor
    · rintro rfl
      exact .nil
    · intro none
      cases none
      rfl
  | cons first rest ih =>
    simp only [allUnlessError, answer_bind, answer]
    constructor
    · intro ends
      cases found : (bothUnlessError first (allUnlessError rest)).answer outside with
      | error error =>
        rw [found] at ends
        cases ends
      | ok both =>
        rw [found] at ends
        cases ends
        obtain ⟨firstEnds, restEnds⟩ :=
          (answer_bothUnlessError_ok outside first _ both.1 both.2).mp found
        exact .cons firstEnds ((ih both.2).mp restEnds)
    · intro each
      cases each with
      | @cons _ result _ others firstEnds restEnds =>
        have together := (answer_bothUnlessError_ok outside first (allUnlessError rest) result
          others).mpr ⟨firstEnds, (ih others).mpr restEnds⟩
        rw [together]
        rfl

/-! ## Actions that may stop with an error -/

theorem answer_run_bind (outside : Outside) (next : α → ExceptT ε Action β)
    (attempt : ExceptT ε Action α) :
    (attempt >>= next).run.answer outside =
      (attempt.run.answer outside).bind fun value => (next value).run.answer outside := by
  refine (answer_bind outside _ attempt.run).trans ?_
  cases attempt.run.answer outside with
  | error error => rfl
  | ok value => rfl

theorem answer_ok_bind (outside : Outside) (next : α → ExceptT ε Action β)
    (attempt : ExceptT ε Action α) (r : β) :
    (attempt >>= next).run.answer outside = .ok r ↔
      ∃ value, attempt.run.answer outside = .ok value ∧
        (next value).run.answer outside = .ok r := by
  rw [answer_run_bind]
  exact bind_eq_ok _ _ _

variable {outside : Outside} {attempt : ExceptT ε Action α} {next : α → ExceptT ε Action β}

theorem yields_pure (value : α) :
    (pure value : ExceptT ε Action α).run.Yields outside (.ok value) :=
  yields_done (Except.ok value)

theorem Yields.ok_bind {value : α} {result : Except ε β}
    (first : attempt.run.Yields outside (.ok value))
    (second : (next value).run.Yields outside result) :
    (attempt >>= next).run.Yields outside result :=
  Yields.bind first second

end Action

end Dotenv
