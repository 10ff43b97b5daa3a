import Dotenv.Proofs.Action.Closed
import Dotenv.Proofs.Success
/-!
# Actions carried out

What carrying out one action after the other leads to, in any world. An attempt that succeeds is
told by the value that it has and by the world that it leaves behind.
-/

set_option autoImplicit false

namespace Dotenv.Action

variable {σ α β ε : Type} [Host σ]

theorem perform_bind (next : α → Action β) (action : Action α) (world : σ) :
    (action.bind next).perform world =
      let first := action.perform world
      let second := (next first.result).perform first.world
      { second with events := first.events ++ second.events } := by
  induction action generalizing world with
  | done result => rfl
  | note event rest ih => simp only [bind, perform, ih, List.cons_append]
  | command c rest ih => simp only [bind, perform, ih]
  | seek secret rest ih => simp only [bind, perform, ih]
  | await rest ih => simp only [bind, perform, ih, List.append_assoc]

theorem events_map (f : α → β) (action : Action α) (world : σ) :
    ((f <$> action).perform world).events = (action.perform world).events := by
  have performed := perform_bind (fun result => done (f result)) action world
  exact (congrArg Performance.events performed).trans (List.append_nil _)

theorem perform_saying (result : α) (events : List Event) (world : σ) :
    (saying result events).perform world = ⟨result, world, events⟩ := by
  induction events with
  | nil => rfl
  | cons event rest ih =>
    rw [saying, perform, ih]

/-- An attempt that succeeds when it is carried out, with its value and the world after it. -/
def Succeeds (attempt : ExceptT ε Action α) (world : σ) (value : α) (after : σ) : Prop :=
  (attempt.run.perform world).result = .ok value ∧ (attempt.run.perform world).world = after

theorem Succeeds.unique {attempt : ExceptT ε Action α} {world : σ} {value other : α}
    {after final : σ} (succeeds : Succeeds attempt world value after)
    (again : Succeeds attempt world other final) : value = other ∧ after = final := by
  constructor
  · exact Except.ok.inj (succeeds.1.symm.trans again.1)
  · exact succeeds.2.symm.trans again.2

theorem result_eq_ok_iff (attempt : ExceptT ε Action α) (world : σ) (value : α) :
    (attempt.run.perform world).result = .ok value ↔
      ∃ after, Succeeds attempt world value after := by
  constructor
  · intro ends
    exact ⟨_, ends, rfl⟩
  · rintro ⟨after, ends, _⟩
    exact ends

theorem succeeds_pure (result value : α) (world after : σ) :
    Succeeds (pure result : ExceptT ε Action α) world value after ↔
      value = result ∧ after = world := by
  constructor
  · rintro ⟨ends, rest⟩
    cases ends
    exact ⟨rfl, rest.symm⟩
  · rintro ⟨rfl, rfl⟩
    exact ⟨rfl, rfl⟩

theorem not_succeeds_throw (error : ε) (value : α) (world after : σ) :
    ¬ Succeeds (throw error : ExceptT ε Action α) world value after := by
  rintro ⟨ends, _⟩
  cases ends

theorem succeeds_bind (next : α → ExceptT ε Action β) (attempt : ExceptT ε Action α)
    (world : σ) (result : β) (after : σ) :
    Succeeds (attempt >>= next) world result after ↔
      ∃ value middle, Succeeds attempt world value middle ∧
        Succeeds (next value) middle result after := by
  have performed := perform_bind (fun result => (ExceptT.bindCont next result : Action _))
    attempt.run world
  change (attempt >>= next).run.perform world = _ at performed
  dsimp only at performed
  unfold Succeeds
  rw [performed]
  cases ends : (attempt.run.perform world).result with
  | error error =>
    constructor
    · rintro ⟨stops, _⟩
      cases stops
    · rintro ⟨value, middle, ⟨stops, _⟩, _⟩
      cases stops
  | ok value =>
    constructor
    · rintro ⟨nextEnds, rest⟩
      exact ⟨value, _, ⟨rfl, rfl⟩, nextEnds, rest⟩
    · rintro ⟨other, middle, ⟨same, rfl⟩, nextEnds, rest⟩
      cases same
      exact ⟨nextEnds, rest⟩

theorem succeeds_lift (action : Action α) (world : σ) (value : α) (after : σ) :
    Succeeds (ExceptT.lift action : ExceptT ε Action α) world value after ↔
      value = (action.perform world).result ∧ after = (action.perform world).world := by
  have performed := perform_bind (fun result => done (Except.ok (ε := ε) result)) action world
  unfold Succeeds
  change ((action.bind fun result => done (Except.ok (ε := ε) result)).perform world).result = _ ∧
    ((action.bind fun result => done (Except.ok (ε := ε) result)).perform world).world = _ ↔ _
  rw [performed]
  simp only [perform, Except.ok.injEq, eq_comm]

theorem succeeds_report (event : Event) (next : ExceptT ε Action β) (world : σ) (result : β)
    (after : σ) :
    Succeeds (do ExceptT.lift (report event); next) world result after ↔
      Succeeds next world result after := by
  rfl

end Dotenv.Action
