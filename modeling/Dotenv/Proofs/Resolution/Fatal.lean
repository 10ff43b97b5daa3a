import Dotenv.Proofs.Resolution.Agreement
/-!
# Fatal errors

An error that is fatal should never be found among the errors of an item: it stops the run. This
is so for the errors of values, wherever in an expression they come from, whatever commands and
stores answer. It is not so for the rules that say whether an item is required or secret. They
are evaluated at the end, and an error in one of them is listed even if it is fatal.
-/

set_option autoImplicit false

namespace Dotenv

/-! ## The waves -/

namespace Progress

def Harmless (progress : Progress) : Prop :=
  ∀ entry ∈ progress.failures, entry.2.isFatal = false

theorem harmless_start (schema : Schema) (options : Options) :
    (start schema options).Harmless := by
  intro entry member
  cases member

theorem Harmless.succeed {progress : Progress} (harmless : progress.Harmless) (key : Text)
    (value : Value) : (progress.succeed key value).Harmless := by
  intro entry member
  exact harmless entry (Keyed.mem_erase key progress.failures entry member)

theorem Harmless.fail {progress : Progress} (harmless : progress.Harmless) (key : Text)
    (error : ResolutionError) (mild : error.isFatal = false) :
    (progress.fail key error).Harmless := by
  intro entry member
  rcases Keyed.mem_set key error progress.failures entry member with same | member
  · rw [same]
    exact mild
  · exact harmless entry member

theorem Harmless.settle {progress next : Progress} (harmless : progress.Harmless) (key : Text)
    (result : Except ResolutionError Value)
    (settles : (progress.settle key result).run.Reaches (.ok next)) : next.Harmless := by
  cases result with
  | ok value =>
    cases settles
    exact harmless.succeed key value
  | error error =>
    obtain ⟨_, _, settles⟩ := (Action.reaches_ok_bind _ _ _).mp settles
    by_cases fatal : error.isFatal = true
    · simp only [stop?, fatal, if_true] at settles
      cases settles
    · have mild : error.isFatal = false := by simpa using fatal
      simp only [stop?, mild, Bool.false_eq_true, if_false] at settles
      by_cases failFast : progress.scope.options.failFast = true
      · simp only [failFast, if_true] at settles
        cases settles
      · simp only [failFast] at settles
        cases settles
        exact harmless.fail key error mild

theorem Harmless.settleAll {progress next : Progress} (harmless : progress.Harmless)
    (results : List (ItemSchema × Except ResolutionError Value))
    (settles : (progress.settleAll results).run.Reaches (.ok next)) : next.Harmless := by
  induction results generalizing progress with
  | nil =>
    cases settles
    exact harmless
  | cons entry rest ih =>
    obtain ⟨middle, first, settles⟩ := (Action.reaches_ok_bind _ _ _).mp settles
    exact ih (harmless.settle entry.1.key entry.2 first) settles

theorem Harmless.runWave {progress next : Progress} (harmless : progress.Harmless) (place : Nat)
    (wave : List ItemSchema) (runs : (progress.runWave place wave).run.Reaches (.ok next)) :
    next.Harmless := by
  obtain ⟨_, _, runs⟩ := (Action.reaches_ok_bind _ _ _).mp runs
  obtain ⟨results, _, settles⟩ := (Action.reaches_ok_bind _ _ _).mp runs
  exact harmless.settleAll (wave.zip results) settles

theorem Harmless.runWaves {progress last : Progress} (harmless : progress.Harmless) (place : Nat)
    (waves : List (List ItemSchema)) (runs : (progress.runWaves place waves).run.Reaches (.ok last)) :
    last.Harmless := by
  induction waves generalizing progress place with
  | nil =>
    cases runs
    exact harmless
  | cons wave rest ih =>
    obtain ⟨next, first, runs⟩ := (Action.reaches_ok_bind _ _ _).mp runs
    exact ih (harmless.runWave place wave first) (place + wave.length) runs

end Progress

/-! ## The rules -/

namespace Resolution

def ListsRules (root : RootSchema) (progress : Progress) (entry : Text × ItemSchema)
    (resolved : Text × ResolvedItem) : Prop :=
  resolved.1 = entry.1 ∧
  ∃ required sensitive,
    (entry.2.isRequired root (progress.scope.forKey entry.2.key)).run.Reaches required ∧
    (entry.2.isSensitive root (progress.scope.forKey entry.2.key)).run.Reaches sensitive ∧
    ∀ error : ResolutionError, error.isFatal = true →
      (.resolution error ∈ resolved.2.errors ↔
        required = .error error ∨ sensitive = .error error)

theorem listsRules_of_finished (root : RootSchema) (progress : Progress)
    (harmless : progress.Harmless) (key : Text) (item : ItemSchema) (resolved : ResolvedItem)
    (finishes : (finishItem root progress item).Reaches resolved) :
    ListsRules root progress (key, item) (key, resolved) := by
  obtain ⟨required, sensitive, requires, hides, rfl⟩ :=
    reaches_finishItem root progress item resolved finishes
  refine ⟨rfl, required, sensitive, requires, hides, fun error fatal => ?_⟩
  rw [mem_errors_finished, or_assoc]
  refine or_congr_right (or_iff_left ?_)
  intro failed
  have mild := harmless _ (Keyed.mem_of_get? item.key progress.failures error failed)
  rw [fatal] at mild
  cases mild

theorem forall₂_listsRules (root : RootSchema) (progress : Progress) (harmless : progress.Harmless)
    (entries : Keyed ItemSchema) (items : Keyed ResolvedItem)
    (finishes : (finishAll root progress entries).run.Reaches (.ok items)) :
    List.Forall₂ (ListsRules root progress) entries items := by
  refine (reaches_finishAll root progress entries items finishes).imp ?_
  rintro ⟨key, item⟩ ⟨_, resolved⟩ ⟨rfl, ends⟩
  exact listsRules_of_finished root progress harmless _ item resolved ends

/-- Whatever commands and stores answer: when a run succeeds, the fatal errors that are listed on
an item are exactly those in which the rules of its last definition ended. In particular none is
listed on an item whose rules are given outright. -/
theorem fatal_listed_iff (registry : Registry) (options : Options) (document : Document)
    (resolution : Resolution)
    (ends : (ofDocument registry options document).run.Reaches (.ok resolution)) :
    ∃ schema progress, Schema.ofDocument registry document = .ok schema ∧
      ((Progress.start schema options).runWaves 0 (wavesOf schema.items)).run.Reaches
        (.ok progress) ∧
      List.Forall₂ (ListsRules schema.root progress) (lastDefinitions schema.items)
        resolution.items := by
  obtain ⟨schema, compiled, ends⟩ := reaches_ofDocument registry options document resolution ends
  obtain ⟨progress, runs, ends⟩ := (Action.reaches_ok_bind _ _ _).mp ends
  obtain ⟨items, finishes, ends⟩ := (Action.reaches_ok_bind _ _ _).mp ends
  obtain ⟨_, _, ends⟩ := (Action.reaches_ok_bind _ _ _).mp ends
  cases ends
  have harmless := (Progress.harmless_start schema options).runWaves 0 _ runs
  exact ⟨schema, progress, compiled, runs,
    forall₂_listsRules _ progress harmless _ items finishes⟩

def ruledByStore : Document :=
  { nodes :=
      [.item { Item.new ['A'] (some (.literal (.bare ['1']))) with
        above := [.decorated (.new [⟨[], "required".toList,
          .assigned (.applyNamed "vault" [.literal (.bare ['k'])])⟩])] }]
    trailingNewline := true }

/-- A world whose only store has had its authorization for `k` expire. -/
def expiredWorld : World :=
  .new [] [⟨⟨[], [(['k'], .authExpired)], none, none, []⟩, .new false⟩]

/-- A rule that ends in a fatal error: the run succeeds, and lists it. -/
theorem fatal_listed_rule :
    let error := ResolutionError.store Vault.name ['k'] .authExpired "rejected".toList
    let run := (ofDocument .withVault (.ofEnvironment []) ruledByStore).run
    ∃ resolution : Resolution, run.Reaches (.ok resolution) ∧
      resolution.errors = [(['A'], .resolution error)] ∧ error.isFatal = true ∧
      ∃ schema progress, Schema.ofDocument .withVault ruledByStore = .ok schema ∧
        ((Progress.start schema (.ofEnvironment [])).runWaves 0 (wavesOf schema.items)).run.Reaches
          (.ok progress) ∧
        List.Forall₂ (ListsRules schema.root progress) (lastDefinitions schema.items)
          resolution.items := by
  intro error run
  have lists : (run.perform expiredWorld).result.toOption.map Resolution.errors =
      some [(['A'], .resolution error)] := by
    decide +kernel
  obtain ⟨resolution, ends, errors⟩ := Action.exists_reaches_of_perform lists
  exact ⟨resolution, ends, errors, rfl,
    fatal_listed_iff .withVault (.ofEnvironment []) ruledByStore resolution ends⟩

end Resolution

end Dotenv
