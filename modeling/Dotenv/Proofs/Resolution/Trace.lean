import Dotenv.Proofs.Action.Performance
import Dotenv.Proofs.Resolution.Record
/-!
# Traces

A run that keeps what it found out even where it stops early: what every definition was evaluated
to, every item that was checked at the end, and how the run ended. But for the rest of the trace,
its end is what the run comes to.
-/

set_option autoImplicit false

namespace Dotenv

variable {σ : Type} [Host σ]

structure Trace where
  /-- The definitions in the order in which they were evaluated. -/
  evaluated : List Evaluated
  /-- The items in the order in which they were checked, the last of them one that stopped the run
  or not. -/
  finished : List ResolvedItem
  ended : Except ResolveError Resolution

namespace Progress

/-- A wave, what its definitions were evaluated to, and the state after it or what stopped it. -/
def traceWave (progress : Progress) (place : Nat) (wave : List ItemSchema) :
    Action (List Evaluated × Except ResolveError Progress) := do
  Action.report (.resolvingWave place wave.length)
  let results ← Action.all (wave.map (evaluateItem progress.scope))
  let ended ← (progress.settleAll (wave.zip results)).run
  return (Evaluated.ofWave progress.scope wave results, ended)

def traceWaves (progress : Progress) (place : Nat) :
    List (List ItemSchema) → Action (List Evaluated × Except ResolveError Progress)
  | [] => return ([], .ok progress)
  | wave :: rest => do
    let (first, ended) ← progress.traceWave place wave
    match ended with
    | .error stop => return (first, .error stop)
    | .ok next =>
      let (others, last) ← next.traceWaves (place + wave.length) rest
      return (first ++ others, last)

end Progress

namespace Resolution

/-- The first error of an item reported, which stops the run where one error is enough. -/
def reject (failFast : Bool) (key : Text) : List ItemError → Resolving Unit
  | [] => pure ()
  | error :: _ => do
    Action.report (.invalidItem key error.message)
    if failFast then throw (.failFast key error)

def traceAll (root : RootSchema) (progress : Progress) :
    Keyed ItemSchema → Action (List ResolvedItem × Except ResolveError (Keyed ResolvedItem))
  | [] => return ([], .ok [])
  | (key, item) :: rest => do
    let resolved ← finishItem root progress item
    match ← (reject progress.scope.options.failFast key resolved.errors).run with
    | .error stop => return ([resolved], .error stop)
    | .ok () =>
      let (others, last) ← traceAll root progress rest
      return (resolved :: others, last.map ((key, resolved) :: ·))

def summary (resolution : Resolution) : Event :=
  .resolutionComplete resolution.items.length
    (resolution.list.filter fun item => !item.isValid).length

/-- The final states put together, unless something stopped the run before. -/
def conclude (progress : Progress) : Except ResolveError (Keyed ResolvedItem) → Resolving Resolution
  | .error stop => throw stop
  | .ok items => do
    let resolution : Resolution := ⟨items, progress.scope.currentEnv⟩
    Action.report resolution.summary
    return resolution

def traceSchema (schema : Schema) (options : Options) : Action Trace := do
  let (evaluated, waves) ← (Progress.start schema options).traceWaves 0 (wavesOf schema.items)
  match waves with
  | .error stop => return ⟨evaluated, [], .error stop⟩
  | .ok progress =>
    let (finished, items) ← traceAll schema.root progress (lastDefinitions schema.items)
    let ended ← (conclude progress items).run
    return ⟨evaluated, finished, ended⟩

def traced (registry : Registry) (options : Options) (document : Document) : Action Trace :=
  match Schema.ofDocument registry document with
  | .ok schema => traceSchema schema options
  | .error issues => return ⟨[], [], .error (.schema issues)⟩

end Resolution

/-! ## A trace changes nothing -/

namespace Progress

theorem run_runWave (progress : Progress) (place : Nat) (wave : List ItemSchema) :
    (progress.runWave place wave).run = Prod.snd <$> progress.traceWave place wave := by
  simp [runWave, traceWave, ExceptT.run_bind]

theorem run_runWaves (progress : Progress) (place : Nat) (waves : List (List ItemSchema)) :
    (progress.runWaves place waves).run = Prod.snd <$> progress.traceWaves place waves := by
  induction waves generalizing progress place with
  | nil => simp [runWaves, traceWaves]
  | cons wave rest ih =>
    rw [runWaves, traceWaves, ExceptT.run_bind, run_runWave, bind_map_left, map_bind]
    refine bind_congr fun first => ?_
    obtain ⟨evaluated, ended⟩ := first
    cases ended with
    | error stop => simp
    | ok next => simp [ih]

end Progress

namespace Resolution

theorem run_finishAll (root : RootSchema) (progress : Progress) (entries : Keyed ItemSchema) :
    (finishAll root progress entries).run = Prod.snd <$> traceAll root progress entries := by
  induction entries with
  | nil => simp [finishAll, traceAll]
  | cons entry rest ih =>
    obtain ⟨key, item⟩ := entry
    rw [finishAll, traceAll, ExceptT.run_bind, map_bind]
    have lifted : (ExceptT.lift (finishItem root progress item) : Resolving ResolvedItem).run =
        Except.ok <$> finishItem root progress item := rfl
    simp only [liftM, monadLift, MonadLift.monadLift, lifted, bind_map_left]
    refine bind_congr fun resolved => ?_
    cases resolved.errors with
    | nil => simp [reject, ih]
    | cons error more =>
      cases progress.scope.options.failFast with
      | false => simp [reject, ih]
      | true => rfl

theorem run_ofSchema (schema : Schema) (options : Options) :
    (ofSchema schema options).run = Trace.ended <$> traceSchema schema options := by
  rw [ofSchema_eq_finish, traceSchema, ExceptT.run_bind, Progress.run_runWaves, bind_map_left,
    map_bind]
  refine bind_congr fun waves => ?_
  obtain ⟨evaluated, ended⟩ := waves
  cases ended with
  | error stop => simp
  | ok progress =>
    simp only [finish]
    rw [ExceptT.run_bind, run_finishAll, bind_map_left, map_bind]
    refine bind_congr fun last => ?_
    obtain ⟨finished, items⟩ := last
    cases items with
    | error stop => simp [conclude]
    | ok items => rfl

theorem run_ofDocument (registry : Registry) (options : Options) (document : Document) :
    (ofDocument registry options document).run =
      Trace.ended <$> traced registry options document := by
  unfold ofDocument traced
  cases Schema.ofDocument registry document with
  | error issues => simp
  | ok schema => exact run_ofSchema schema options

end Resolution

/-! ## Traces carried out -/

namespace Progress

theorem perform_traceWaves_cons (progress : Progress) (place : Nat) (wave : List ItemSchema)
    (rest : List (List ItemSchema)) (world : σ) :
    (progress.traceWaves place (wave :: rest)).perform world =
      let first := (progress.traceWave place wave).perform world
      match first.result.2 with
      | .error stop => { first with result := (first.result.1, .error stop) }
      | .ok next =>
        let later := (next.traceWaves (place + wave.length) rest).perform first.world
        { later with
          result := (first.result.1 ++ later.result.1, later.result.2)
          events := first.events ++ later.events } := by
  rw [traceWaves]
  simp only [bind, Action.perform_bind]
  cases ((progress.traceWave place wave).perform world).result.2 with
  | error stop => simp [pure, Action.perform]
  | ok next => simp [pure, Action.perform, Action.perform_bind]

theorem prefix_traceWaves (progress : Progress) (place : Nat) (wave : List ItemSchema)
    (rest : List (List ItemSchema)) (world : σ) :
    ((progress.traceWave place wave).perform world).result.1 <+:
      ((progress.traceWaves place (wave :: rest)).perform world).result.1 := by
  rw [perform_traceWaves_cons]
  dsimp only
  split
  · exact List.prefix_rfl
  · exact List.prefix_append _ _

end Progress

namespace Resolution

theorem perform_traceAll_cons (root : RootSchema) (progress : Progress) (key : Text)
    (item : ItemSchema) (rest : Keyed ItemSchema) (world : σ) :
    (traceAll root progress ((key, item) :: rest)).perform world =
      let first := (finishItem root progress item).perform world
      let rejection := (reject progress.scope.options.failFast key
        first.result.errors).run.perform first.world
      match rejection.result with
      | .error stop =>
        { rejection with
          result := ([first.result], .error stop)
          events := first.events ++ rejection.events }
      | .ok () =>
        let later := (traceAll root progress rest).perform rejection.world
        { later with
          result := (first.result :: later.result.1, later.result.2.map ((key, first.result) :: ·))
          events := first.events ++ (rejection.events ++ later.events) } := by
  rw [traceAll]
  simp only [bind, Action.perform_bind]
  generalize (finishItem root progress item).perform world = first
  cases ((reject progress.scope.options.failFast key
    first.result.errors).run.perform first.world).result with
  | error stop => simp [pure, Action.perform]
  | ok answer => simp [pure, Action.perform, Action.perform_bind]

theorem head_traceAll (root : RootSchema) (progress : Progress) (key : Text) (item : ItemSchema)
    (rest : Keyed ItemSchema) (world : σ) :
    ∃ later, ((traceAll root progress ((key, item) :: rest)).perform world).result.1 =
      ((finishItem root progress item).perform world).result :: later := by
  rw [perform_traceAll_cons]
  dsimp only
  split
  · exact ⟨[], rfl⟩
  · exact ⟨_, rfl⟩

theorem perform_traceSchema (schema : Schema) (options : Options) (world : σ) :
    (traceSchema schema options).perform world =
      let waves := ((Progress.start schema options).traceWaves 0
        (wavesOf schema.items)).perform world
      match waves.result.2 with
      | .error stop => { waves with result := ⟨waves.result.1, [], .error stop⟩ }
      | .ok progress =>
        let last := (traceAll schema.root progress
          (lastDefinitions schema.items)).perform waves.world
        let conclusion := (conclude progress last.result.2).run.perform last.world
        { conclusion with
          result := ⟨waves.result.1, last.result.1, conclusion.result⟩
          events := waves.events ++ (last.events ++ conclusion.events) } := by
  unfold traceSchema
  simp only [bind, Action.perform_bind]
  cases (((Progress.start schema options).traceWaves 0
    (wavesOf schema.items)).perform world).result.2 with
  | error stop => simp [pure, Action.perform]
  | ok progress => simp [pure, Action.perform, Action.perform_bind]

theorem evaluated_traceSchema (schema : Schema) (options : Options) (world : σ) :
    ((traceSchema schema options).perform world).result.evaluated =
      (((Progress.start schema options).traceWaves 0
        (wavesOf schema.items)).perform world).result.1 := by
  rw [perform_traceSchema]
  dsimp only
  split <;> rfl

end Resolution

end Dotenv
