import Dotenv.Proofs.Action.Performance
import Dotenv.Proofs.Resolution.Agreement
/-!
# Failing fast

A run that fails fast stops at the first invalid item; any other run goes on and collects what is
wrong. The two agree on documents that are valid, with one reservation: a definition that fails
stops a run that fails fast, even if a later definition of the same key makes the failure good.
-/

set_option autoImplicit false

namespace Dotenv

variable {σ : Type} [Host σ]

/-! ## What failing fast cannot change -/

def Options.withFailFast (options : Options) (failFast : Bool) : Options := { options with failFast }

def Scope.withFailFast (scope : Scope) (failFast : Bool) : Scope :=
  { scope with options := scope.options.withFailFast failFast }

def Bound.IgnoresFailFast (bound : Bound) : Prop :=
  ∀ function arguments scope failFast,
    bound.run ⟨function, arguments, scope.withFailFast failFast⟩ =
      bound.run ⟨function, arguments, scope⟩

theorem Bound.IsOwn.ignoresFailFast {bound : Bound} (own : bound.IsOwn) :
    bound.IgnoresFailFast := by
  intro function arguments scope failFast
  cases own <;> rfl

mutual

theorem Expr.evaluate_withFailFast (scope : Scope) (failFast : Bool) :
    ∀ expr : Expr, expr.EachBound Bound.IgnoresFailFast →
      expr.evaluate (scope.withFailFast failFast) = expr.evaluate scope
  | .literal _, _ => rfl
  | .call name _ bound args, ignores => by
    simp only [Expr.evaluate]
    rw [Exprs.arguments_withFailFast scope failFast args ignores.2]
    exact ignores.1 name _ scope failFast

theorem Exprs.arguments_withFailFast (scope : Scope) (failFast : Bool) :
    ∀ exprs : Exprs, exprs.EachBound Bound.IgnoresFailFast →
      exprs.arguments (scope.withFailFast failFast) = exprs.arguments scope
  | .nil, _ => rfl
  | .cons key value rest, ignores => by
    simp only [Exprs.arguments]
    rw [Expr.evaluate_withFailFast scope failFast value ignores.1,
      Exprs.arguments_withFailFast scope failFast rest ignores.2]

end

/-- An item none of whose expressions asks whether the run fails fast. -/
def ItemSchema.IgnoresFailFast (item : ItemSchema) : Prop :=
  item.Each fun expr => expr.EachBound Bound.IgnoresFailFast

/-! ## The waves -/

namespace Progress

def withFailFast (progress : Progress) (failFast : Bool) : Progress :=
  { progress with scope := progress.scope.withFailFast failFast }

theorem evaluateItem_withFailFast (scope : Scope) (failFast : Bool) (item : ItemSchema)
    (ignores : item.IgnoresFailFast) :
    evaluateItem (scope.withFailFast failFast) item = evaluateItem scope item := by
  have same := Expr.evaluate_withFailFast (scope.forKey item.key) failFast item.value ignores.value
  unfold evaluateItem
  have overrides : (scope.withFailFast failFast).options.overrides = scope.options.overrides := rfl
  rw [overrides]
  cases scope.options.overrides.get? item.key with
  | some text => rfl
  | none =>
    change ((item.value.evaluate ((scope.forKey item.key).withFailFast failFast)).run.bind _) = _
    rw [same]
    rfl

theorem succeeds_settle_error (progress next : Progress) (key : Text) (error : ResolutionError)
    (world after : σ) :
    Action.Succeeds (progress.settle key (.error error)) world next after ↔
      stop? progress.scope.options key error = none ∧ next = progress.fail key error ∧
        after = world := by
  refine (Action.succeeds_report _ _ _ _ _).trans ?_
  cases stop? progress.scope.options key error with
  | none => simp [Action.succeeds_pure]
  | some stop => simp [Action.not_succeeds_throw]

theorem stop?_failFast (options : Options) (key : Text) (error : ResolutionError) :
    stop? (options.withFailFast true) key error ≠ none := by
  by_cases fatal : error.isFatal = true
  · simp [stop?, fatal]
  · simp [stop?, fatal, Options.withFailFast]

theorem failed_settleAll (results : List (ItemSchema × Except ResolutionError Value))
    (progress last : Progress) (key : Text) (fresh : ∀ entry ∈ results, entry.1.key ≠ key)
    (failed : progress.failures.get? key ≠ none) (world after : σ)
    (settles : Action.Succeeds (progress.settleAll results) world last after) :
    last.failures.get? key ≠ none := by
  induction results generalizing progress world with
  | nil =>
    obtain ⟨rfl, _⟩ := (Action.succeeds_pure _ _ _ _).mp settles
    exact failed
  | cons entry rest ih =>
    obtain ⟨item, result⟩ := entry
    obtain ⟨next, middle, first, settles⟩ := (Action.succeeds_bind _ _ _ _ _).mp settles
    have differs : item.key ≠ key := fresh (item, result) List.mem_cons_self
    have others : ∀ entry ∈ rest, entry.1.key ≠ key :=
      fun entry member => fresh entry (List.mem_cons_of_mem _ member)
    refine ih next others ?_ middle settles
    cases result with
    | ok value =>
      obtain ⟨rfl, _⟩ := (Action.succeeds_pure _ _ _ _).mp first
      simp only [succeed, Keyed.get?_erase_of_ne item.key key differs]
      exact failed
    | error error =>
      obtain ⟨_, rfl, _⟩ := (succeeds_settle_error _ _ _ _ _ _).mp first
      simp only [fail, Keyed.get?_set, if_neg differs]
      exact failed

theorem succeeds_settleAll_failFast (results : List (ItemSchema × Except ResolutionError Value))
    (distinct : results.Pairwise fun earlier later => earlier.1.key ≠ later.1.key)
    (progress : Progress) (clean : progress.failures = []) (last : Progress)
    (world after : σ) :
    Action.Succeeds ((progress.withFailFast true).settleAll results) world last after ↔
      ∃ collected, Action.Succeeds ((progress.withFailFast false).settleAll results) world
        collected after ∧ collected.failures = [] ∧ last = collected.withFailFast true := by
  induction results generalizing progress world with
  | nil =>
    simp only [settleAll, Action.succeeds_pure]
    constructor
    · rintro ⟨rfl, rfl⟩
      exact ⟨_, ⟨rfl, rfl⟩, clean, rfl⟩
    · rintro ⟨_, ⟨rfl, rfl⟩, _, rfl⟩
      exact ⟨rfl, rfl⟩
  | cons entry rest ih =>
    obtain ⟨item, result⟩ := entry
    obtain ⟨fresh, others⟩ := List.pairwise_cons.mp distinct
    simp only [settleAll, Action.succeeds_bind]
    cases result with
    | ok value =>
      have cleared : (progress.succeed item.key value).failures = [] := by
        simp only [succeed, clean, Keyed.erase]
      have rest := ih others (progress.succeed item.key value) cleared world
      constructor
      · rintro ⟨next, middle, first, settles⟩
        obtain ⟨rfl, rfl⟩ := (Action.succeeds_pure _ _ _ _).mp first
        obtain ⟨collected, settles, unfailing, same⟩ := rest.mp settles
        exact ⟨collected, ⟨_, _, ⟨rfl, rfl⟩, settles⟩, unfailing, same⟩
      · rintro ⟨collected, ⟨next, middle, first, settles⟩, unfailing, same⟩
        obtain ⟨rfl, rfl⟩ := (Action.succeeds_pure _ _ _ _).mp first
        exact ⟨_, _, ⟨rfl, rfl⟩, rest.mpr ⟨collected, settles, unfailing, same⟩⟩
    | error error =>
      constructor
      · rintro ⟨next, middle, first, _⟩
        obtain ⟨goes, _⟩ := (succeeds_settle_error _ _ _ _ _ _).mp first
        exact absurd goes (stop?_failFast _ _ _)
      · rintro ⟨collected, ⟨next, middle, first, settles⟩, unfailing, _⟩
        obtain ⟨_, rfl, _⟩ := (succeeds_settle_error _ _ _ _ _ _).mp first
        -- The failure is still there at the end, for no other result is of its key.
        have failed := failed_settleAll rest _ collected item.key
          (fun entry member => (fresh entry member).symm)
          (by simp [fail, Keyed.get?_set]) middle after settles
        rw [unfailing] at failed
        exact absurd rfl failed

theorem succeeds_runWave (progress : Progress) (place : Nat) (wave : List ItemSchema)
    (world : σ) (next : Progress) (after : σ) :
    Action.Succeeds (progress.runWave place wave) world next after ↔
      ∃ results middle,
        (results = ((Action.all (wave.map (evaluateItem progress.scope))).perform world).result ∧
          middle = ((Action.all (wave.map (evaluateItem progress.scope))).perform world).world) ∧
        Action.Succeeds (progress.settleAll (wave.zip results)) middle next after := by
  refine (Action.succeeds_report _ _ _ _ _).trans ((Action.succeeds_bind _ _ _ _ _).trans ?_)
  simp only [← Action.succeeds_lift (ε := ResolveError)]
  rfl

theorem distinct_zip {β : Type} (wave : List ItemSchema) (results : List β)
    (independent : Waves.Independent .ofSchema wave) :
    (wave.zip results).Pairwise fun earlier later => earlier.1.key ≠ later.1.key := by
  induction wave generalizing results with
  | nil => exact .nil
  | cons item rest ih =>
    obtain ⟨apart, independent⟩ := List.pairwise_cons.mp independent
    cases results with
    | nil => exact .nil
    | cons result others =>
      refine .cons ?_ (ih others independent)
      intro entry member
      exact (apart entry.1 (List.of_mem_zip member).1).1

/-- A wave in a run that fails fast and in one that does not: the same actions are carried out, and
only what is made of their results may differ. -/
theorem succeeds_runWave_failFast (wave : List ItemSchema)
    (ignores : ∀ item ∈ wave, item.IgnoresFailFast)
    (independent : Waves.Independent .ofSchema wave) (progress : Progress)
    (clean : progress.failures = []) (place : Nat) (next : Progress) (world after : σ) :
    Action.Succeeds ((progress.withFailFast true).runWave place wave) world next after ↔
      ∃ collected, Action.Succeeds ((progress.withFailFast false).runWave place wave) world
        collected after ∧ collected.failures = [] ∧ next = collected.withFailFast true := by
  have evaluated : ∀ failFast, wave.map (evaluateItem (progress.withFailFast failFast).scope) =
      wave.map (evaluateItem progress.scope) := by
    intro failFast
    apply List.map_congr_left
    intro item member
    exact evaluateItem_withFailFast progress.scope failFast item (ignores item member)
  simp only [succeeds_runWave, evaluated]
  constructor
  · rintro ⟨results, middle, performed, settles⟩
    obtain ⟨collected, settles, rest⟩ := (succeeds_settleAll_failFast _
      (distinct_zip wave results independent) progress clean next middle after).mp settles
    exact ⟨collected, ⟨results, middle, performed, settles⟩, rest⟩
  · rintro ⟨collected, ⟨results, middle, performed, settles⟩, rest⟩
    refine ⟨results, middle, performed, (succeeds_settleAll_failFast _
      (distinct_zip wave results independent) progress clean next middle after).mpr ?_⟩
    exact ⟨collected, settles, rest⟩

theorem options_settleAll (results : List (ItemSchema × Except ResolutionError Value))
    (progress last : Progress) (world after : σ)
    (settles : Action.Succeeds (progress.settleAll results) world last after) :
    last.scope.options = progress.scope.options := by
  induction results generalizing progress world with
  | nil =>
    obtain ⟨rfl, _⟩ := (Action.succeeds_pure _ _ _ _).mp settles
    rfl
  | cons entry rest ih =>
    obtain ⟨item, result⟩ := entry
    obtain ⟨next, middle, first, settles⟩ := (Action.succeeds_bind _ _ _ _ _).mp settles
    rw [ih next middle settles]
    cases result with
    | ok value =>
      obtain ⟨rfl, _⟩ := (Action.succeeds_pure _ _ _ _).mp first
      rfl
    | error error =>
      obtain ⟨_, rfl, _⟩ := (succeeds_settle_error _ _ _ _ _ _).mp first
      rfl

theorem withFailFast_runWave (progress next : Progress) (failFast : Bool) (place : Nat)
    (wave : List ItemSchema) (world after : σ)
    (runs : Action.Succeeds ((progress.withFailFast failFast).runWave place wave) world next
      after) : next.withFailFast failFast = next := by
  obtain ⟨results, middle, _, settles⟩ := (succeeds_runWave _ _ _ _ _ _).mp runs
  have same := options_settleAll _ _ _ _ _ settles
  have kept : next.scope.options.withFailFast failFast = next.scope.options := by
    rw [same]
    rfl
  simp only [withFailFast, Scope.withFailFast, kept]

/-- No failure is remembered after any of some waves, carried out in a world. -/
def Unfailing (progress : Progress) (place : Nat) (waves : List (List ItemSchema))
    (world : σ) : Prop :=
  ∀ count next after,
    Action.Succeeds (progress.runWaves place (waves.take count)) world next after →
      next.failures = []

theorem unfailing_cons (progress : Progress) (place : Nat) (wave : List ItemSchema)
    (rest : List (List ItemSchema)) (world : σ) (clean : progress.failures = []) :
    progress.Unfailing place (wave :: rest) world ↔
      ∀ next after, Action.Succeeds (progress.runWave place wave) world next after →
        next.Unfailing (place + wave.length) rest after := by
  constructor
  · intro unfailing next middle runs count last after restRuns
    apply unfailing (count + 1) last after
    rw [List.take_succ_cons, runWaves, Action.succeeds_bind]
    exact ⟨next, middle, runs, restRuns⟩
  · intro unfailing count last after runs
    cases count with
    | zero =>
      obtain ⟨rfl, _⟩ := (Action.succeeds_pure _ _ _ _).mp runs
      exact clean
    | succ count =>
      rw [List.take_succ_cons, runWaves, Action.succeeds_bind] at runs
      obtain ⟨next, middle, first, runs⟩ := runs
      exact unfailing next middle first count last after runs

/-- The waves of a run that fails fast succeed where those of a run that does not succeed and
nothing fails on the way, and they come to the same. -/
theorem succeeds_runWaves_failFast (waves : List (List ItemSchema))
    (ignores : ∀ wave ∈ waves, ∀ item ∈ wave, item.IgnoresFailFast)
    (independent : ∀ wave ∈ waves, Waves.Independent .ofSchema wave) (progress : Progress)
    (clean : progress.failures = []) (place : Nat) (last : Progress) (world after : σ) :
    Action.Succeeds ((progress.withFailFast true).runWaves place waves) world last after ↔
      ∃ collected, Action.Succeeds ((progress.withFailFast false).runWaves place waves) world
        collected after ∧ (progress.withFailFast false).Unfailing place waves world ∧
        last = collected.withFailFast true := by
  induction waves generalizing progress place world with
  | nil =>
    simp only [runWaves, Action.succeeds_pure]
    constructor
    · rintro ⟨rfl, rfl⟩
      refine ⟨_, ⟨rfl, rfl⟩, ?_, rfl⟩
      intro count next after runs
      rw [List.take_nil] at runs
      obtain ⟨rfl, _⟩ := (Action.succeeds_pure _ _ _ _).mp runs
      exact clean
    · rintro ⟨_, ⟨rfl, rfl⟩, _, rfl⟩
      exact ⟨rfl, rfl⟩
  | cons wave rest ih =>
    have waveIgnores := ignores wave List.mem_cons_self
    have waveIndependent := independent wave List.mem_cons_self
    have ofWave := fun next middle => succeeds_runWave_failFast wave waveIgnores waveIndependent
      progress clean place next world middle
    have ofRest := fun (next : Progress) (unfailing : next.failures = []) =>
      ih (fun other member => ignores other (List.mem_cons_of_mem wave member))
        (fun other member => independent other (List.mem_cons_of_mem wave member))
        next unfailing (place + wave.length)
    rw [unfailing_cons (progress.withFailFast false) place wave rest world clean]
    simp only [runWaves, Action.succeeds_bind]
    constructor
    · rintro ⟨_, middle, first, runs⟩
      obtain ⟨next, collects, unfailing, rfl⟩ := (ofWave _ middle).mp first
      obtain ⟨collected, collectsRest, restUnfailing, same⟩ :=
        (ofRest next unfailing middle).mp runs
      rw [withFailFast_runWave _ _ _ _ _ _ _ collects] at collectsRest restUnfailing
      refine ⟨collected, ⟨next, middle, collects, collectsRest⟩, ?_, same⟩
      intro other after collectsToo
      obtain ⟨rfl, rfl⟩ := collects.unique collectsToo
      exact restUnfailing
    · rintro ⟨collected, ⟨next, middle, collects, collectsRest⟩, unfailing, same⟩
      have restUnfailing := unfailing next middle collects
      have nextClean : next.failures = [] :=
        restUnfailing 0 next middle ((Action.succeeds_pure _ _ _ _).mpr ⟨rfl, rfl⟩)
      refine ⟨next.withFailFast true, middle, ?_, ?_⟩
      · exact (ofWave _ middle).mpr ⟨next, collects, nextClean, rfl⟩
      · refine (ofRest next nextClean middle).mpr ⟨collected, ?_, ?_, same⟩
        · rw [withFailFast_runWave _ _ _ _ _ _ _ collects]
          exact collectsRest
        · rw [withFailFast_runWave _ _ _ _ _ _ _ collects]
          exact restUnfailing

theorem withFailFast_runWaves (progress last : Progress) (failFast : Bool) (place : Nat)
    (waves : List (List ItemSchema)) (world after : σ)
    (runs : Action.Succeeds ((progress.withFailFast failFast).runWaves place waves) world last
      after) : last.withFailFast failFast = last := by
  induction waves generalizing progress place world with
  | nil =>
    obtain ⟨rfl, _⟩ := (Action.succeeds_pure _ _ _ _).mp runs
    rfl
  | cons wave rest ih =>
    obtain ⟨next, middle, first, runs⟩ := (Action.succeeds_bind _ _ _ _ _).mp runs
    rw [← withFailFast_runWave progress next failFast place wave world middle first] at runs
    exact ih next _ middle runs

end Progress

/-! ## The end of a run -/

namespace Resolution

theorem truth_withFailFast (scope : Scope) (failFast : Bool) (expr : Expr)
    (ignores : expr.EachBound Bound.IgnoresFailFast) :
    ItemSchema.truth expr (scope.withFailFast failFast) = ItemSchema.truth expr scope := by
  unfold ItemSchema.truth
  rw [expr.evaluate_withFailFast scope failFast ignores]

theorem finishItem_withFailFast (root : RootSchema) (progress : Progress) (failFast : Bool)
    (item : ItemSchema) (ignores : item.IgnoresFailFast) :
    finishItem root (progress.withFailFast failFast) item = finishItem root progress item := by
  let scope := progress.scope.forKey item.key
  have required : item.isRequired root (scope.withFailFast failFast) =
      item.isRequired root scope := by
    have ofRule := ignores.priority
    unfold ItemSchema.isRequired
    cases rule : item.priority with
    | fixed priority => rfl
    | dynamic expression =>
      rw [rule] at ofRule
      exact truth_withFailFast scope failFast expression ofRule
  have sensitive : item.isSensitive root (scope.withFailFast failFast) =
      item.isSensitive root scope := by
    have ofRule := ignores.sensitivity
    unfold ItemSchema.isSensitive
    cases rule : item.sensitivity with
    | fixed sensitivity => cases sensitivity <;> rfl
    | dynamic expression =>
      rw [rule] at ofRule
      exact truth_withFailFast scope failFast expression ofRule
  change (absorb (item.isRequired root (scope.withFailFast failFast)) false >>= fun _ =>
    absorb (item.isSensitive root (scope.withFailFast failFast)) true >>= _) = _
  rw [required, sensitive]
  rfl

theorem succeeds_finishAll_cons (root : RootSchema) (progress : Progress) (key : Text)
    (item : ItemSchema) (rest : Keyed ItemSchema) (world : σ) (items : Keyed ResolvedItem)
    (after : σ) :
    Action.Succeeds (finishAll root progress ((key, item) :: rest)) world items after ↔
      ∃ resolved middle,
        (resolved = ((finishItem root progress item).perform world).result ∧
          middle = ((finishItem root progress item).perform world).world) ∧
        (progress.scope.options.failFast = true → resolved.errors = []) ∧
        ∃ others, Action.Succeeds (finishAll root progress rest) middle others after ∧
          items = (key, resolved) :: others := by
  have goesOn : ∀ (resolved : ResolvedItem) (middle : σ),
      Action.Succeeds (do return (key, resolved) :: (← finishAll root progress rest) :
        Resolving (Keyed ResolvedItem)) middle items after ↔
      ∃ others, Action.Succeeds (finishAll root progress rest) middle others after ∧
        items = (key, resolved) :: others := by
    intro resolved middle
    simp only [Action.succeeds_bind, Action.succeeds_pure]
    constructor
    · rintro ⟨others, last, ends, rfl, rfl⟩
      exact ⟨others, ends, rfl⟩
    · rintro ⟨others, ends, rfl⟩
      exact ⟨others, after, ends, rfl, rfl⟩
  refine (Action.succeeds_bind _ _ _ _ _).trans ?_
  simp only [← goesOn, ← Action.succeeds_lift (ε := ResolveError)]
  apply exists_congr
  intro resolved
  apply exists_congr
  intro middle
  apply and_congr_right
  intro _
  cases errors : resolved.errors with
  | nil => simp
  | cons error more =>
    refine (Action.succeeds_report _ _ _ _ _).trans ?_
    by_cases failFast : progress.scope.options.failFast = true
    · simp only [failFast, if_true, reduceCtorEq, imp_false, not_true_eq_false, false_and,
        iff_false]
      intro succeeds
      obtain ⟨_, _, stops, _⟩ := (Action.succeeds_bind _ _ _ _ _).mp succeeds
      exact Action.not_succeeds_throw _ _ _ _ stops
    · simp [failFast]

theorem succeeds_finishAll_failFast (root : RootSchema) (progress : Progress)
    (entries : Keyed ItemSchema) (ignores : ∀ entry ∈ entries, entry.2.IgnoresFailFast)
    (items : Keyed ResolvedItem) (world after : σ) :
    Action.Succeeds (finishAll root (progress.withFailFast true) entries) world items after ↔
      Action.Succeeds (finishAll root (progress.withFailFast false) entries) world items after ∧
        ∀ entry ∈ items, entry.2.errors = [] := by
  induction entries generalizing items world with
  | nil =>
    simp only [finishAll, Action.succeeds_pure]
    constructor
    · rintro ⟨rfl, rfl⟩
      exact ⟨⟨rfl, rfl⟩, by simp⟩
    · rintro ⟨ends, _⟩
      exact ends
  | cons entry rest ih =>
    obtain ⟨key, item⟩ := entry
    have same := fun failFast => finishItem_withFailFast root progress failFast item
      (ignores (key, item) List.mem_cons_self)
    have ofRest := ih fun entry member => ignores entry (List.mem_cons_of_mem _ member)
    simp only [succeeds_finishAll_cons, same]
    constructor
    · rintro ⟨resolved, middle, performed, valid, others, ends, rfl⟩
      obtain ⟨ends, othersValid⟩ := (ofRest others middle).mp ends
      refine ⟨⟨resolved, middle, performed, by rintro ⟨⟩, others, ends, rfl⟩, ?_⟩
      exact List.forall_mem_cons.mpr ⟨valid rfl, othersValid⟩
    · rintro ⟨⟨resolved, middle, performed, _, others, ends, rfl⟩, valid⟩
      obtain ⟨first, othersValid⟩ := List.forall_mem_cons.mp valid
      exact ⟨resolved, middle, performed, fun _ => first, others,
        (ofRest others middle).mpr ⟨ends, othersValid⟩, rfl⟩

theorem succeeds_ofSchema (schema : Schema) (options : Options) (world : σ)
    (resolution : Resolution) (after : σ) :
    Action.Succeeds (ofSchema schema options) world resolution after ↔
      ∃ progress middle,
        Action.Succeeds ((Progress.start schema options).runWaves 0 (wavesOf schema.items)) world
          progress middle ∧
        ∃ items, Action.Succeeds (finishAll schema.root progress (lastDefinitions schema.items))
            middle items after ∧
          resolution = ⟨items, progress.scope.currentEnv⟩ := by
  refine (Action.succeeds_bind _ _ _ _ _).trans ?_
  apply exists_congr
  intro progress
  apply exists_congr
  intro middle
  apply and_congr_right
  intro _
  refine (Action.succeeds_bind _ _ _ _ _).trans ?_
  apply exists_congr
  intro items
  constructor
  · rintro ⟨last, ends, reports⟩
    obtain ⟨rfl, rfl⟩ := (Action.succeeds_pure _ _ _ _).mp
      ((Action.succeeds_report _ _ _ _ _).mp reports)
    exact ⟨ends, rfl⟩
  · rintro ⟨ends, rfl⟩
    exact ⟨after, ends, (Action.succeeds_report _ _ _ _ _).mpr
      ((Action.succeeds_pure _ _ _ _).mpr ⟨rfl, rfl⟩)⟩

theorem succeeds_ofSchema_failFast (schema : Schema)
    (ignores : ∀ item ∈ schema.items, item.IgnoresFailFast) (options : Options) (world : σ)
    (resolution : Resolution) (after : σ) :
    Action.Succeeds (ofSchema schema (options.withFailFast true)) world resolution after ↔
      Action.Succeeds (ofSchema schema (options.withFailFast false)) world resolution after ∧
        resolution.isValid = true ∧
        (Progress.start schema (options.withFailFast false)).Unfailing 0 (wavesOf schema.items)
          world := by
  have independent := independent_of_mem_wavesOf schema.items
  have waveIgnores := forall_mem_wavesOf schema.items ignores
  have entryIgnores : ∀ entry ∈ lastDefinitions schema.items, entry.2.IgnoresFailFast :=
    fun entry member => ignores entry.2 (mem_lastDefinitions schema.items entry member)
  have ofWaves := fun last middle => Progress.succeeds_runWaves_failFast (wavesOf schema.items)
    waveIgnores independent (Progress.start schema options) rfl 0 last world middle
  have ofItems := fun (progress : Progress) items middle => succeeds_finishAll_failFast schema.root
    progress (lastDefinitions schema.items) entryIgnores items middle after
  rw [succeeds_ofSchema, succeeds_ofSchema, isValid_iff]
  constructor
  · rintro ⟨_, middle, runs, items, finishes, rfl⟩
    obtain ⟨collected, collects, unfailing, rfl⟩ := (ofWaves _ middle).mp runs
    obtain ⟨finishes, valid⟩ := (ofItems collected items middle).mp finishes
    have same := Progress.withFailFast_runWaves _ _ _ _ _ _ _ collects
    rw [same] at finishes
    exact ⟨⟨collected, middle, collects, items, finishes, rfl⟩, valid, unfailing⟩
  · rintro ⟨⟨collected, middle, collects, items, finishes, rfl⟩, valid, unfailing⟩
    have same := Progress.withFailFast_runWaves (.start schema options) collected false 0 _ world
      middle collects
    rw [← same] at finishes
    exact ⟨collected.withFailFast true, middle,
      (ofWaves _ middle).mpr ⟨collected, collects, unfailing, rfl⟩,
      items, (ofItems collected items middle).mpr ⟨finishes, valid⟩, rfl⟩

/-- A run that fails fast succeeds exactly where the run that does not succeeds with a valid
resolution and no evaluation fails on the way, and then the two resolutions are the same. -/
theorem failFast_ok_iff (registry : Registry) (ignores : registry.Binds Bound.IgnoresFailFast)
    (options : Options) (document : Document) (world : σ) (resolution : Resolution) :
    ((ofDocument registry (options.withFailFast true) document).run.perform world).result =
        .ok resolution ↔
      ((ofDocument registry (options.withFailFast false) document).run.perform world).result =
        .ok resolution ∧ resolution.isValid = true ∧
      ∀ schema, Schema.ofDocument registry document = .ok schema →
        (Progress.start schema (options.withFailFast false)).Unfailing 0 (wavesOf schema.items)
          world := by
  unfold ofDocument
  cases compiled : Schema.ofDocument registry document with
  | error issues =>
    constructor
    · intro ends
      cases ends
    · rintro ⟨ends, _⟩
      cases ends
  | ok schema =>
    have itemIgnores : ∀ item ∈ schema.items, item.IgnoresFailFast :=
      Schema.eachBound_of_ofDocument ignores document schema compiled
    have agree := fun after => succeeds_ofSchema_failFast schema itemIgnores options world
      resolution after
    simp only [Action.result_eq_ok_iff, agree, exists_and_right, Except.ok.injEq, forall_eq']

/-- A document resolved with functions, failing fast or not, in a world of commands and stores. -/
def inMode (registry : Registry) (outside : Outside) (document : Document) (failFast : Bool) :
    Except ResolveError Resolution :=
  ((ofDocument registry ((Options.ofEnvironment []).withFailFast failFast) document).run.perform
    outside).result

/-- `A=exec(date)`, `B=vault(k)`, `C=concat(ref(A), ref(B))` and again `B=1`, one below the other. -/
def redefined : Document :=
  let apply (name : String) (argument : Text) : Term := .applyNamed name [.literal (.bare argument)]
  { nodes :=
      [.item (.new ['A'] (some (apply "exec" "date".toList))),
       .item (.new ['B'] (some (apply "vault" ['k']))),
       .item (.new ['C'] (some (.applyNamed "concat" [apply "ref" ['A'], apply "ref" ['B']]))),
       .item (.new ['B'] (some (.literal (.bare ['1']))))]
    trailingNewline := true }

def echoing (reply : Reply) : Outside :=
  { outcome := fun command => .ended (some 0) (.ofText (command.arguments.getLastD [])) []
    reply := fun _ => reply }

/-- A command, a store and a reference to both. Where the store refuses the key, the definition of
`B` fails that is made good below, so that the two modes differ. -/
theorem failFast_ok_redefined :
    let given := echoing (.ok (.text ['s']))
    let refusing := echoing (.error (.store "vault".toList ['k'] .forbidden []))
    Registry.withVault.Binds Bound.IgnoresFailFast ∧
    (∃ resolution, inMode .withVault given redefined true = .ok resolution ∧
      resolution.environment =
        [(['A'], "date".toList), (['B'], ['1']), (['C'], "dates".toList)] ∧
      inMode .withVault given redefined false = .ok resolution ∧ resolution.isValid = true) ∧
    ∃ resolution schema, Schema.ofDocument .withVault redefined = .ok schema ∧
      inMode .withVault refusing redefined false = .ok resolution ∧ resolution.isValid = true ∧
      (inMode .withVault refusing redefined true).isOk = false ∧
      ¬ (Progress.start schema ((Options.ofEnvironment []).withFailFast false)).Unfailing 0
        (wavesOf schema.items) refusing := by
  intro given refusing
  have ignores : Registry.withVault.Binds Bound.IgnoresFailFast :=
    fun name resolver found => (Registry.withVault_isOwn name resolver found).imp
      fun _ own => own.ignoresFailFast
  have agree := fun outside : Outside =>
    failFast_ok_iff .withVault ignores (.ofEnvironment []) redefined outside
  refine ⟨ignores, ?_, ?_⟩
  · have exports : (inMode .withVault given redefined true).toOption.map environment =
        some [(['A'], "date".toList), (['B'], ['1']), (['C'], "dates".toList)] := by
      decide +kernel
    obtain ⟨resolution, ends, environment⟩ := (toOption_map_eq_some _ _ _).mp exports
    obtain ⟨collects, valid, -⟩ := (agree given resolution).mp ends
    exact ⟨resolution, ends, environment, collects, valid⟩
  · have collects : (inMode .withVault refusing redefined false).toOption.map isValid = some true ∧
        (inMode .withVault refusing redefined true).isOk = false := by
      decide +kernel
    obtain ⟨shown, stops⟩ := collects
    obtain ⟨resolution, ends, valid⟩ := (toOption_map_eq_some _ _ _).mp shown
    refine ⟨resolution, _, rfl, ends, valid, stops, fun unfailing => ?_⟩
    have succeeds : inMode .withVault refusing redefined true = .ok resolution := by
      refine (agree refusing resolution).mpr ⟨ends, valid, ?_⟩
      intro schema compiled
      cases compiled
      exact unfailing
    rw [succeeds] at stops
    cases stops

def failsFast : Resolver :=
  { name := "failsFast".toList
    bind := fun _ _ => .ok
      { dependencies := some []
        run := fun call => pure (.boolean call.scope.options.failFast) } }

/-- A failure that a later definition makes good stops a run that fails fast alone, and a function
that asks for the mode has another value in each. -/
theorem failFast_differs :
    let refusing := echoing (.error (.store "vault".toList ['k'] .forbidden []))
    let curious : Document :=
      ⟨[.item (.new ['A'] (some (.applyNamed "failsFast" [])))], true⟩
    ((inMode .withVault refusing redefined true).isOk = false ∧
      (inMode .withVault refusing redefined false).toOption.map isValid = some true) ∧
    ((inMode (.ofList [failsFast]) refusing curious true).toOption.map environment =
        some [(['A'], "true".toList)] ∧
      (inMode (.ofList [failsFast]) refusing curious false).toOption.map environment =
        some [(['A'], "false".toList)] ∧
      (inMode (.ofList [failsFast]) refusing curious false).toOption.map isValid = some true) := by
  decide +kernel

end Resolution

end Dotenv
