import Dotenv.Proofs.Expression.Reads
import Dotenv.Proofs.Resolution.Items
import Dotenv.Proofs.Resolution.Waves
/-!
# One item after the other

Evaluation in waves gives what evaluation of one item after the other gives. The items of a
wave are evaluated against the values of the waves before it alone. This makes no difference,
because no item of a wave can see what becomes of those before it in the wave.
-/

set_option autoImplicit false

namespace Dotenv

/-! ## The sequential evaluation -/

namespace Sequential

/-- The value of an item: its override if there is one, else what its expression ends in. -/
def value (outside : Outside) (scope : Scope) (item : ItemSchema) :
    Except ResolutionError Value :=
  match scope.options.overrides.get? item.key with
  | some text => .ok (.text text)
  | none => (item.value.evaluate (scope.forKey item.key)).run.answer outside

def settle (progress : Progress) (key : Text) :
    Except ResolutionError Value → Except ResolveError Progress
  | .ok value => .ok ⟨progress.scope.insert key value, progress.failures.erase key⟩
  | .error error =>
    if error.isFatal then .error (.fatal key error)
    else if progress.scope.options.failFast then .error (.failFast key (.resolution error))
    else .ok ⟨progress.scope.insert key .undefined, progress.failures.set key error⟩

/-- Items one after the other, each in the scope that holds the values of all before it. -/
def fold (outside : Outside) (progress : Progress) :
    List ItemSchema → Except ResolveError Progress
  | [] => .ok progress
  | item :: rest => do
    let next ← settle progress item.key (value outside progress.scope item)
    fold outside next rest

end Sequential

theorem Sequential.settle_scope (progress next : Progress) (key : Text)
    (result : Except ResolutionError Value) (settled : settle progress key result = .ok next) :
    ∃ value, next.scope = progress.scope.insert key value := by
  cases result with
  | ok value =>
    cases settled
    exact ⟨value, rfl⟩
  | error error =>
    simp only [settle] at settled
    split at settled
    · cases settled
    · split at settled
      · cases settled
      · cases settled
        exact ⟨.undefined, rfl⟩

theorem Scope.insert_agreesOn (scope : Scope) (key : Text) (value : Value) (keys : List Text)
    (fresh : key ∉ keys) : (scope.insert key value).AgreesOn keys scope := by
  refine ⟨rfl, rfl, rfl, fun other member => ?_⟩
  have differs : ¬ key = other := by
    rintro rfl
    exact fresh member
  simp only [insert, Keyed.get?_set, if_neg differs]

/-- An item that can share a wave with items before it: it reads what it names, and where that is
known, its commands leave nothing behind. -/
structure ItemSchema.MayShare (answers : Answers) (item : ItemSchema) : Prop where
  namesReads : item.value.EachBound Bound.NamesReads
  forgets : item.value.dependencies ≠ none → ∀ scope,
    (Progress.evaluateItem scope item).EachCommand answers.Forgets

theorem ItemSchema.mayShare_of_isQuiet (answers : Answers) (item : ItemSchema)
    (namesReads : item.value.EachBound Bound.NamesReads)
    (quiet : item.value.EachBound Bound.IsQuiet) : item.MayShare answers :=
  ⟨namesReads, fun known scope =>
    Progress.eachCommand_evaluateItem_of_known scope item quiet known⟩

theorem Waves.Apart.forgets {answers : Answers} {earlier later : ItemSchema}
    (apart : Apart (.ofSchema earlier) (.ofSchema later)) (shares : later.MayShare answers)
    (scope : Scope) : (Progress.evaluateItem scope later).EachCommand answers.Forgets := by
  obtain ⟨_, reads, known, _⟩ := apart
  apply shares.forgets
  intro unknown
  exact Option.some_ne_none reads (known.symm.trans unknown)

open Dotenv.Action (GoesOn)

namespace Progress

variable {answers : Answers} {before after : answers.State}

/-- What items may come to one after the other, each in the scope that holds the values of all
before it. -/
def MayCome (answers : Answers) : Progress → List ItemSchema → answers.State →
    Except ResolveError Progress → answers.State → Prop
  | progress, [], before, reached, after => reached = .ok progress ∧ after = before
  | progress, item :: rest, before, reached, after =>
    ∃ result between, (evaluateItem progress.scope item).MayEnd answers before result between ∧
      GoesOn (fun next => MayCome answers next rest)
        (Sequential.settle progress item.key result) between reached after

theorem mayCome_append (progress : Progress) (front back : List ItemSchema)
    (reached : Except ResolveError Progress) :
    progress.MayCome answers (front ++ back) before reached after ↔
      ∃ first between, progress.MayCome answers front before first between ∧
        GoesOn (fun next => next.MayCome answers back) first between reached after := by
  induction front generalizing progress before reached after with
  | nil =>
    constructor
    · intro comes
      exact ⟨_, _, ⟨rfl, rfl⟩, comes⟩
    · intro comes
      obtain ⟨_, _, ⟨rfl, rfl⟩, comes⟩ := comes
      exact comes
  | cons item rest ih =>
    have ofRest : (fun next => MayCome answers next (rest ++ back)) =
        fun next between reached after => ∃ second middle,
          next.MayCome answers rest between second middle ∧
            GoesOn (fun next => next.MayCome answers back) second middle reached after := by
      funext next between reached after
      exact propext (ih next reached)
    simp only [List.cons_append, MayCome, ofRest, Action.goesOn_assoc]
    constructor
    · intro comes
      obtain ⟨result, between, ends, second, middle, goesOn, last⟩ := comes
      exact ⟨second, middle, ⟨result, between, ends, goesOn⟩, last⟩
    · intro comes
      obtain ⟨second, middle, ⟨result, between, ends, goesOn⟩, last⟩ := comes
      exact ⟨result, between, ends, second, middle, goesOn, last⟩

/-! ## One wave -/

theorem mayEnd_settle (progress : Progress) (key : Text) (result : Except ResolutionError Value)
    (r : Except ResolveError Progress) :
    (progress.settle key result).run.MayEnd answers before r after ↔
      r = Sequential.settle progress key result ∧ after = before := by
  cases result with
  | ok value => exact Iff.rfl
  | error error =>
    simp only [settle, stop?, Sequential.settle]
    by_cases fatal : error.isFatal = true
    · simp only [fatal, if_true]
      exact Iff.rfl
    · by_cases failFast : progress.scope.options.failFast = true
      · simp only [fatal, failFast, if_true]
        exact Iff.rfl
      · simp only [fatal, failFast]
        exact Iff.rfl

theorem evaluateItem_insert (scope : Scope) (earlier later : ItemSchema) (value : Value)
    (namesReads : later.value.EachBound Bound.NamesReads)
    (apart : Waves.Apart (.ofSchema earlier) (.ofSchema later)) :
    evaluateItem (scope.insert earlier.key value) later = evaluateItem scope later := by
  obtain ⟨_, reads, known, unread⟩ := apart
  have agree := (scope.insert_agreesOn earlier.key value reads unread).forKey later.key
  unfold evaluateItem
  rw [Expr.evaluate_of_agreesOn _ _ later.value reads namesReads known agree]
  rfl

theorem mayEnd_settleAll_cons (progress : Progress) (item : ItemSchema)
    (result : Except ResolutionError Value)
    (rest : List (ItemSchema × Except ResolutionError Value)) (r : Except ResolveError Progress) :
    (progress.settleAll ((item, result) :: rest)).run.MayEnd answers before r after ↔
      GoesOn (fun next => (next.settleAll rest).run.MayEnd answers)
        (Sequential.settle progress item.key result) before r after := by
  refine (Action.mayEnd_run_bind _ _ r).trans ?_
  simp only [mayEnd_settle]
  constructor
  · intro ends
    obtain ⟨_, _, ⟨rfl, rfl⟩, goesOn⟩ := ends
    exact goesOn
  · intro goesOn
    exact ⟨_, _, ⟨rfl, rfl⟩, goesOn⟩

theorem mayEnd_wave_cons (base : Scope) (progress : Progress) (item : ItemSchema)
    (rest : List ItemSchema) (r : Except ResolveError Progress)
    (forget : ∀ action ∈ rest.map (evaluateItem base), action.EachCommand answers.Forgets) :
    (∃ results between, (Action.all ((item :: rest).map (evaluateItem base))).MayEnd answers before
        results between ∧
      (progress.settleAll ((item :: rest).zip results)).run.MayEnd answers between r after) ↔
    ∃ result between, (evaluateItem base item).MayEnd answers before result between ∧
      ∃ others, (Action.all (rest.map (evaluateItem base))).MayEnd answers between others between ∧
        GoesOn (fun next => (next.settleAll (rest.zip others)).run.MayEnd answers)
          (Sequential.settle progress item.key result) between r after := by
  simp only [List.map_cons, Action.mayEnd_all_cons _ _ _ forget]
  constructor
  · intro ends
    obtain ⟨_, between, ⟨result, others, rfl, first, restEnds⟩, settles⟩ := ends
    exact ⟨result, between, first, others, restEnds, (mayEnd_settleAll_cons _ _ _ _ r).mp settles⟩
  · intro ends
    obtain ⟨result, between, first, others, restEnds, goesOn⟩ := ends
    exact ⟨_, between, ⟨result, others, rfl, first, restEnds⟩,
      (mayEnd_settleAll_cons _ _ _ _ r).mpr goesOn⟩

/-- Results that the items of a wave may have against one scope, taken in, are what the items may
come to one after the other. -/
theorem mayEnd_settleAll (base : Scope) (wave : List ItemSchema) (progress : Progress)
    (share : ∀ item ∈ wave, item.MayShare answers)
    (independent : Waves.Independent .ofSchema wave)
    (same : ∀ item ∈ wave, evaluateItem progress.scope item = evaluateItem base item)
    (r : Except ResolveError Progress) :
    (∃ results between, (Action.all (wave.map (evaluateItem base))).MayEnd answers before results
        between ∧ (progress.settleAll (wave.zip results)).run.MayEnd answers between r after) ↔
      progress.MayCome answers wave before r after := by
  induction wave generalizing progress before with
  | nil =>
    constructor
    · intro ends
      obtain ⟨_, _, ⟨rfl, rfl⟩, settled⟩ := ends
      exact settled
    · intro settled
      exact ⟨[], before, ⟨rfl, rfl⟩, settled⟩
  | cons item rest ih =>
    obtain ⟨itemApart, restApart⟩ := List.pairwise_cons.mp independent
    obtain ⟨_, restShares⟩ := List.forall_mem_cons.mp share
    obtain ⟨itemSame, restSame⟩ := List.forall_mem_cons.mp same
    -- Only the first item of a wave may run commands that leave something behind.
    have forget : ∀ action ∈ rest.map (evaluateItem base),
        action.EachCommand answers.Forgets := by
      intro action member
      obtain ⟨other, inRest, rfl⟩ := List.mem_map.mp member
      exact (itemApart other inRest).forgets (restShares other inRest) base
    have restForgets := Action.eachCommand_all forget
    rw [mayEnd_wave_cons base progress item rest r forget, ← itemSame]
    refine exists_congr fun result => exists_congr fun between => and_congr_right fun _ => ?_
    cases settled : Sequential.settle progress item.key result with
    | error stop =>
      -- The items after one that stops the waves may end in anything, and do end in something.
      obtain ⟨others, _, each⟩ := Action.exists_mayEnd (.all (rest.map (evaluateItem base))) between
      constructor
      · intro ends
        obtain ⟨_, _, stops⟩ := ends
        exact stops
      · intro stops
        exact ⟨others, (each.anytime restForgets).2 between, stops⟩
    | ok next =>
      obtain ⟨value, nextScope⟩ := Sequential.settle_scope progress next item.key _ settled
      have nextSame : ∀ other ∈ rest, evaluateItem next.scope other = evaluateItem base other := by
        intro other member
        rw [nextScope, evaluateItem_insert _ item other value (restShares other member).namesReads
          (itemApart other member), restSame other member]
      refine Iff.trans ?_ (ih next restShares restApart nextSame)
      refine exists_congr fun others => ?_
      constructor
      · intro ends
        exact ⟨between, ends⟩
      · intro ends
        obtain ⟨_, each, settles⟩ := ends
        obtain ⟨rfl, _⟩ := each.anytime restForgets
        exact ⟨each, settles⟩

theorem mayEnd_runWave (progress : Progress) (place : Nat) (wave : List ItemSchema)
    (share : ∀ item ∈ wave, item.MayShare answers)
    (independent : Waves.Independent .ofSchema wave) (r : Except ResolveError Progress) :
    (progress.runWave place wave).run.MayEnd answers before r after ↔
      progress.MayCome answers wave before r after := by
  refine (Action.mayEnd_lift_bind (.all (wave.map (evaluateItem progress.scope))) _ r).trans ?_
  exact mayEnd_settleAll progress.scope wave progress share independent (fun _ _ => rfl) r

theorem mayEnd_runWaves (waves : List (List ItemSchema)) (progress : Progress) (place : Nat)
    (share : ∀ wave ∈ waves, ∀ item ∈ wave, item.MayShare answers)
    (independent : ∀ wave ∈ waves, Waves.Independent .ofSchema wave)
    (r : Except ResolveError Progress) :
    (progress.runWaves place waves).run.MayEnd answers before r after ↔
      progress.MayCome answers waves.flatten before r after := by
  induction waves generalizing progress place before r after with
  | nil => exact Iff.rfl
  | cons wave rest ih =>
    obtain ⟨firstShares, restShares⟩ := List.forall_mem_cons.mp share
    obtain ⟨firstApart, restApart⟩ := List.forall_mem_cons.mp independent
    rw [List.flatten_cons, mayCome_append]
    refine (Action.mayEnd_run_bind _ _ r).trans ?_
    refine exists_congr fun first => exists_congr fun between => ?_
    refine and_congr (mayEnd_runWave progress place wave firstShares firstApart first) ?_
    exact Action.goesOn_congr first between after r fun next _ => ih next _ restShares restApart r

end Progress

/-! ## Items with one result -/

structure ItemSchema.Trusted (outside : Outside) (item : ItemSchema) : Prop where
  namesReads : item.value.EachBound Bound.NamesReads
  isFixed : item.Each fun expr => ∀ scope, Settled outside (expr.evaluate scope)

theorem ItemSchema.Trusted.mayShare {outside : Outside} {item : ItemSchema}
    (trusted : item.Trusted outside) : item.MayShare outside.answers :=
  ⟨trusted.namesReads, fun _ _ => Action.forgets_answers outside _⟩

namespace Progress

variable {outside : Outside}

theorem yields_evaluateItem (scope : Scope) (item : ItemSchema) (trusted : item.Trusted outside) :
    (evaluateItem scope item).Yields outside (Sequential.value outside scope item) := by
  unfold evaluateItem Sequential.value
  cases scope.options.overrides.get? item.key with
  | some text => exact Action.Yields.bind (Action.yields_report _) (Action.yields_done _)
  | none =>
    refine Action.Yields.bind (trusted.isFixed.value (scope.forKey item.key)).yields ?_
    cases (item.value.evaluate (scope.forKey item.key)).run.answer outside with
    | ok value => exact Action.Yields.bind (Action.yields_report _) (Action.yields_done _)
    | error error => exact Action.yields_done _

theorem mayCome_iff_fold (items : List ItemSchema) (progress : Progress)
    (trusted : ∀ item ∈ items, item.Trusted outside) (reached : Except ResolveError Progress) :
    progress.MayCome outside.answers items () reached () ↔
      reached = Sequential.fold outside progress items := by
  induction items generalizing progress with
  | nil => exact and_iff_left rfl
  | cons item rest ih =>
    obtain ⟨first, others⟩ := List.forall_mem_cons.mp trusted
    have ends := yields_evaluateItem progress.scope item first
    have comes : progress.MayCome outside.answers (item :: rest) () reached () ↔
        GoesOn (fun next => next.MayCome outside.answers rest)
          (Sequential.settle progress item.key (Sequential.value outside progress.scope item))
          () reached () := by
      constructor
      · intro comes
        obtain ⟨result, _, itemEnds, goesOn⟩ := comes
        cases (ends result).mp ((Action.mayEnd_answers outside _ result).mp itemEnds)
        exact goesOn
      · intro goesOn
        exact ⟨_, (), (Action.mayEnd_answers outside _ _).mpr ((ends _).mpr rfl), goesOn⟩
    rw [comes, Sequential.fold]
    cases Sequential.settle progress item.key (Sequential.value outside progress.scope item) with
    | error stop => exact and_iff_left rfl
    | ok next => exact ih next others

end Progress

end Dotenv
