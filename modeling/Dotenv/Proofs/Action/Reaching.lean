import Dotenv.Action.Basic
import Dotenv.Proofs.Success
import Mathlib.Data.List.Forall2
/-!
# What actions can come to

Here nothing is assumed of what lies outside: a command may end differently each time it runs,
and a store may answer a key now with a value, now with an error. `Reaches` relates an action to
every result that it can come to in this way. Whatever is true of all these results is true of
the action carried out in any world.

Actions side by side come to what each of them can come to alone.
-/

set_option autoImplicit false

namespace Dotenv.Action

variable {σ α β ε : Type} [Host σ]

instance : LawfulMonad Action := by
  refine LawfulMonad.mk' Action ?_ (fun _ _ => rfl) ?_
  · intro α action
    change action.bind (done ∘ id) = action
    induction action with
    | done result => rfl
    | note event rest ih => exact congrArg (note event) ih
    | command c rest ih => exact congrArg (command c) (funext ih)
    | seek secret rest ih => exact congrArg (seek secret) (funext ih)
    | await rest ih => exact congrArg await (funext ih)
  · intro α β γ action next after
    change (action.bind next).bind after = action.bind fun result => (next result).bind after
    induction action with
    | done result => rfl
    | note event rest ih => exact congrArg (note event) ih
    | command c rest ih => exact congrArg (command c) (funext ih)
    | seek secret rest ih => exact congrArg (seek secret) (funext ih)
    | await rest ih => exact congrArg await (funext ih)

/-- A result that an action can come to, whatever commands and stores answer. -/
def Reaches : Action α → α → Prop
  | done result, r => result = r
  | note _ rest, r => rest.Reaches r
  | command _ rest, r => ∃ outcome, (rest outcome).Reaches r
  | seek _ rest, r => ∃ held, (rest held).Reaches r
  | await rest, r => ∃ replies, (rest replies).Reaches r

theorem reaches_perform (action : Action α) (world : σ) :
    action.Reaches (action.perform world).result := by
  induction action generalizing world with
  | done result => rfl
  | note event rest ih => exact ih world
  | command c rest ih => exact ⟨_, ih _ _⟩
  | seek secret rest ih => exact ⟨_, ih _ _⟩
  | await rest ih => exact ⟨_, ih _ _⟩

/-- What one run shows of its success is told of a result that the attempt can come to. -/
theorem exists_reaches_of_perform {ε γ : Type} {attempt : ExceptT ε Action α} {world : σ}
    {change : α → γ} {shown : γ}
    (computed : (attempt.run.perform world).result.toOption.map change = some shown) :
    ∃ value, attempt.run.Reaches (.ok value) ∧ change value = shown := by
  obtain ⟨value, ends, same⟩ := (toOption_map_eq_some _ _ _).mp computed
  exact ⟨value, ends ▸ reaches_perform attempt.run world, same⟩

theorem reaches_bind (next : α → Action β) (action : Action α) (r : β) :
    (action >>= next).Reaches r ↔
      ∃ result, action.Reaches result ∧ (next result).Reaches r := by
  change (action.bind next).Reaches r ↔ _
  induction action with
  | done result => simp [bind, Reaches]
  | note event rest ih => simpa only [bind, Reaches] using ih
  | command c rest ih =>
    simp only [bind, Reaches, ih]
    rw [exists_comm]
    simp only [exists_and_right]
  | seek secret rest ih =>
    simp only [bind, Reaches, ih]
    rw [exists_comm]
    simp only [exists_and_right]
  | await rest ih =>
    simp only [bind, Reaches, ih]
    rw [exists_comm]
    simp only [exists_and_right]

theorem reaches_ok_bind (next : α → ExceptT ε Action β) (attempt : ExceptT ε Action α) (r : β) :
    (attempt >>= next).run.Reaches (.ok r) ↔
      ∃ value, attempt.run.Reaches (.ok value) ∧ (next value).run.Reaches (.ok r) := by
  refine (reaches_bind _ attempt.run _).trans ?_
  constructor
  · rintro ⟨result, first, second⟩
    cases result with
    | ok value => exact ⟨value, first, second⟩
    | error error => cases second
  · rintro ⟨value, first, second⟩
    exact ⟨.ok value, first, second⟩

theorem reaches_lift (action : Action α) (r : α) :
    (ExceptT.lift action : ExceptT ε Action α).run.Reaches (.ok r) ↔ action.Reaches r := by
  refine (reaches_bind (fun a => pure (Except.ok a)) action _).trans ?_
  constructor
  · rintro ⟨result, first, second⟩
    cases second
    exact first
  · intro first
    exact ⟨r, first, rfl⟩

/-! ## Side by side -/

theorem reaches_both (first : Action α) (second : Action β) (r : α × β)
    (reaches : (both first second).Reaches r) : first.Reaches r.1 ∧ second.Reaches r.2 := by
  induction first generalizing second with
  | done result =>
    obtain ⟨other, ends, same⟩ := (reaches_bind _ second r).mp reaches
    cases same
    exact ⟨rfl, ends⟩
  | note event rest ih => exact ih second reaches
  | command c rest ih =>
    obtain ⟨outcome, reaches⟩ := reaches
    obtain ⟨ofFirst, ofSecond⟩ := ih outcome second reaches
    exact ⟨⟨outcome, ofFirst⟩, ofSecond⟩
  | seek secret rest ih =>
    obtain ⟨held, reaches⟩ := reaches
    obtain ⟨ofFirst, ofSecond⟩ := ih held second reaches
    exact ⟨⟨held, ofFirst⟩, ofSecond⟩
  | await rest ih =>
    -- The first waits, so the second goes on until it waits as well.
    simp only [both] at reaches
    induction second with
    | done other =>
      obtain ⟨replies, reaches⟩ := reaches
      obtain ⟨ofFirst, ofSecond⟩ := ih replies _ reaches
      exact ⟨⟨replies, ofFirst⟩, ofSecond⟩
    | note event others ihSecond => exact ihSecond reaches
    | command c others ihSecond =>
      obtain ⟨outcome, reaches⟩ := reaches
      obtain ⟨ofFirst, ofSecond⟩ := ihSecond outcome reaches
      exact ⟨ofFirst, outcome, ofSecond⟩
    | seek secret others ihSecond =>
      obtain ⟨held, reaches⟩ := reaches
      obtain ⟨ofFirst, ofSecond⟩ := ihSecond held reaches
      exact ⟨ofFirst, held, ofSecond⟩
    | await others ihSecond =>
      obtain ⟨replies, reaches⟩ := reaches
      obtain ⟨ofFirst, ofSecond⟩ := ih replies _ reaches
      exact ⟨⟨replies, ofFirst⟩, replies, ofSecond⟩

theorem reaches_all (actions : List (Action α)) (results : List α)
    (reaches : (all actions).Reaches results) : List.Forall₂ Reaches actions results := by
  induction actions generalizing results with
  | nil =>
    cases reaches
    exact .nil
  | cons first rest ih =>
    obtain ⟨⟨result, others⟩, together, same⟩ := (reaches_bind _ _ results).mp reaches
    cases same
    obtain ⟨ofFirst, ofRest⟩ := reaches_both first (all rest) _ together
    exact .cons ofFirst (ih others ofRest)

end Dotenv.Action
