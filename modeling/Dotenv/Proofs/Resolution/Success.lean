import Dotenv.Proofs.Resolution.Agreement
/-!
# Runs that succeed

Where the first error is not enough to stop a run, only a fatal error stops it. So a run in which no
evaluation comes to a fatal error comes to a resolution, whatever the world answers.
-/

set_option autoImplicit false

namespace Dotenv

namespace Action

variable {α β ε : Type}

/-- An attempt that never comes to an error, and only to results of some kind. -/
def Ensures (holds : α → Prop) (attempt : ExceptT ε Action α) : Prop :=
  ∀ result, attempt.run.Reaches result → ∃ value, result = .ok value ∧ holds value

variable {holds : α → Prop} {after : β → Prop}

theorem ensures_pure {value : α} (isSo : holds value) :
    Ensures holds (pure value : ExceptT ε Action α) := by
  intro result reaches
  cases reaches
  exact ⟨value, rfl, isSo⟩

theorem Ensures.bind {attempt : ExceptT ε Action α} {next : α → ExceptT ε Action β}
    (first : Ensures holds attempt) (second : ∀ value, holds value → Ensures after (next value)) :
    Ensures after (attempt >>= next) := by
  intro result reaches
  obtain ⟨middle, ofFirst, ofSecond⟩ := (reaches_bind _ attempt.run result).mp reaches
  obtain ⟨value, rfl, isSo⟩ := first middle ofFirst
  exact second value isSo result ofSecond

theorem ensures_lift {action : Action α} (ends : ∀ result, action.Reaches result → holds result) :
    Ensures holds (ExceptT.lift action : ExceptT ε Action α) := by
  intro result reaches
  obtain ⟨value, ofAction, same⟩ := (reaches_bind _ action result).mp reaches
  cases same
  exact ⟨value, rfl, ends value ofAction⟩

theorem ensures_report (event : Event) :
    Ensures (fun _ => True) (ExceptT.lift (report event) : ExceptT ε Action Unit) :=
  ensures_lift fun _ _ => trivial

end Action

open Dotenv.Action (Ensures)

variable {options : Options}

namespace Progress

def RunsWith (options : Options) (progress : Progress) : Prop := progress.scope.options = options

theorem RunsWith.failFast_eq {progress : Progress} (runsWith : progress.RunsWith options)
    (goesOn : options.failFast = false) : progress.scope.options.failFast = false :=
  (congrArg Options.failFast runsWith).trans goesOn

def IsMild (result : Except ResolutionError Value) : Prop :=
  ∀ error, result = .error error → error.isFatal = false

theorem ensures_settle (goesOn : options.failFast = false) {progress : Progress}
    (runsWith : progress.RunsWith options) (key : Text) (result : Except ResolutionError Value)
    (mild : IsMild result) : Ensures (RunsWith options) (progress.settle key result) := by
  cases result with
  | ok value => exact Action.ensures_pure runsWith
  | error error =>
    have goes : stop? progress.scope.options key error = none := by
      simp [stop?, mild error rfl, runsWith.failFast_eq goesOn]
    apply (Action.ensures_report _).bind
    intro _ _
    rw [goes]
    exact Action.ensures_pure runsWith

theorem ensures_settleAll (goesOn : options.failFast = false)
    (results : List (ItemSchema × Except ResolutionError Value))
    (mild : ∀ entry ∈ results, IsMild entry.2) {progress : Progress}
    (runsWith : progress.RunsWith options) :
    Ensures (RunsWith options) (progress.settleAll results) := by
  induction results generalizing progress with
  | nil => exact Action.ensures_pure runsWith
  | cons entry rest ih =>
    obtain ⟨first, others⟩ := List.forall_mem_cons.mp mild
    apply (ensures_settle goesOn runsWith entry.1.key entry.2 first).bind
    intro next nextRunsWith
    exact ih others nextRunsWith

def Spares (options : Options) (item : ItemSchema) : Prop :=
  ∀ scope result, scope.options = options → (evaluateItem scope item).Reaches result → IsMild result

theorem ensures_runWave (goesOn : options.failFast = false) (place : Nat) (wave : List ItemSchema)
    (spares : ∀ item ∈ wave, Spares options item) {progress : Progress}
    (runsWith : progress.RunsWith options) :
    Ensures (RunsWith options) (progress.runWave place wave) := by
  apply (Action.ensures_report _).bind
  intro _ _
  apply (Action.ensures_lift fun results ends => ends).bind
  intro results ends
  have evaluated := Action.reaches_all _ _ ends
  rw [List.forall₂_map_left_iff] at evaluated
  apply ensures_settleAll goesOn _ _ runsWith
  intro entry member
  exact spares entry.1 (List.of_mem_zip member).1 progress.scope entry.2 runsWith
    (List.forall₂_zip evaluated member)

theorem ensures_runWaves (goesOn : options.failFast = false) (place : Nat)
    (waves : List (List ItemSchema)) (spares : ∀ item ∈ waves.flatten, Spares options item)
    {progress : Progress} (runsWith : progress.RunsWith options) :
    Ensures (RunsWith options) (progress.runWaves place waves) := by
  induction waves generalizing progress place with
  | nil => exact Action.ensures_pure runsWith
  | cons wave rest ih =>
    obtain ⟨first, others⟩ := List.forall_mem_append.mp spares
    apply (ensures_runWave goesOn place wave first runsWith).bind
    intro next nextRunsWith
    exact ih _ others nextRunsWith

end Progress

namespace Resolution

theorem ensures_finishAll (goesOn : options.failFast = false) (root : RootSchema)
    (progress : Progress) (runsWith : progress.RunsWith options) (entries : Keyed ItemSchema) :
    Ensures (fun _ => True) (finishAll root progress entries) := by
  induction entries with
  | nil => exact Action.ensures_pure trivial
  | cons entry rest ih =>
    have others : ∀ resolved : ResolvedItem, Ensures (fun _ => True)
        ((finishAll root progress rest >>= fun items => pure ((entry.1, resolved) :: items)) :
          Resolving (Keyed ResolvedItem)) := by
      intro resolved
      apply ih.bind
      intro items _
      exact Action.ensures_pure trivial
    apply (Action.ensures_lift fun _ _ => trivial).bind
    intro resolved _
    cases resolved.errors with
    | nil => exact others resolved
    | cons error more =>
      apply (Action.ensures_report _).bind
      intro _ _
      rw [runsWith.failFast_eq goesOn]
      exact others resolved

theorem ensures_ofSchema (goesOn : options.failFast = false) (schema : Schema)
    (spares : ∀ item ∈ schema.items, Progress.Spares options item) :
    Ensures (fun _ => True) (ofSchema schema options) := by
  have runsWith : (Progress.start schema options).RunsWith options := rfl
  apply (Progress.ensures_runWaves goesOn 0 _ ((flatten_wavesOf schema.items).symm ▸ spares) runsWith).bind
  intro progress runsWith
  apply (ensures_finishAll goesOn schema.root progress runsWith _).bind
  intro items _
  apply (Action.ensures_report _).bind
  intro _ _
  exact Action.ensures_pure trivial

end Resolution

end Dotenv
