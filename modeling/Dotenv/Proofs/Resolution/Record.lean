import Dotenv.Proofs.Resolution.Agreement
/-!
# Recorded runs

A run that keeps a record: of every definition the scope in which it was evaluated, and what it was
evaluated to. But for the record it is the run of the schema, step by step. Where a run succeeds,
the record tells the state after the waves, and each scope in it is the state after the definitions
before it, without those of its own wave.
-/

set_option autoImplicit false

namespace Dotenv

open Dotenv.Waves (Apart Independent)

structure Evaluated where
  item : ItemSchema
  scope : Scope
  result : Except ResolutionError Value

namespace Evaluated

def value (entry : Evaluated) : Value :=
  match entry.result with
  | .ok value => value
  | .error _ => .undefined

def error? (entry : Evaluated) : Option ResolutionError :=
  match entry.result with
  | .ok _ => none
  | .error error => some error

def ofWave (scope : Scope) (wave : List ItemSchema)
    (results : List (Except ResolutionError Value)) : List Evaluated :=
  (wave.zip results).map fun entry => ⟨entry.1, scope, entry.2⟩

end Evaluated

namespace Progress

def recordWave (progress : Progress) (place : Nat) (wave : List ItemSchema) :
    Resolving (List Evaluated × Progress) := do
  Action.report (.resolvingWave place wave.length)
  let results ← (Action.all (wave.map (evaluateItem progress.scope)) : Action _)
  let next ← progress.settleAll (wave.zip results)
  return (Evaluated.ofWave progress.scope wave results, next)

def recordWaves (progress : Progress) (place : Nat) :
    List (List ItemSchema) → Resolving (List Evaluated × Progress)
  | [] => pure ([], progress)
  | wave :: rest => do
    let (first, next) ← progress.recordWave place wave
    let (others, last) ← next.recordWaves (place + wave.length) rest
    return (first ++ others, last)

end Progress

def Resolution.recorded (schema : Schema) (options : Options) :
    Resolving (List Evaluated × Resolution) := do
  let (record, progress) ←
    (Progress.start schema options).recordWaves 0 (wavesOf schema.items)
  let resolution ← finish schema progress
  return (record, resolution)

/-! ## The record changes nothing -/

namespace Progress

theorem runWave_eq (progress : Progress) (place : Nat) (wave : List ItemSchema) :
    progress.runWave place wave = Prod.snd <$> progress.recordWave place wave := by
  simp only [runWave, recordWave, map_bind, map_pure, bind_pure]

theorem runWaves_eq (progress : Progress) (place : Nat) (waves : List (List ItemSchema)) :
    progress.runWaves place waves = Prod.snd <$> progress.recordWaves place waves := by
  induction waves generalizing progress place with
  | nil => simp only [runWaves, recordWaves, map_pure]
  | cons wave rest ih =>
    simp only [runWaves, recordWaves, runWave_eq, bind_map_left, map_bind, map_pure, ih]
    simp only [map_eq_pure_bind]

end Progress

theorem Resolution.ofSchema_eq_recorded (schema : Schema) (options : Options) :
    ofSchema schema options = Prod.snd <$> recorded schema options := by
  rw [ofSchema_eq_finish, Progress.runWaves_eq, bind_map_left]
  simp only [recorded, map_bind, map_pure, bind_pure]

/-! ## What a record tells -/

namespace Progress

def take (progress : Progress) (entry : Evaluated) : Progress :=
  match entry.result with
  | .ok value => progress.succeed entry.item.key value
  | .error error => progress.fail entry.item.key error

def takeAll (progress : Progress) (record : List Evaluated) : Progress := record.foldl take progress

theorem takeAll_append (progress : Progress) (front back : List Evaluated) :
    progress.takeAll (front ++ back) = (progress.takeAll front).takeAll back :=
  List.foldl_append

@[simp]
theorem options_takeAll (progress : Progress) (record : List Evaluated) :
    (progress.takeAll record).scope.options = progress.scope.options := by
  induction record generalizing progress with
  | nil => rfl
  | cons entry rest ih =>
    refine (ih (progress.take entry)).trans ?_
    unfold take
    split <;> rfl

theorem values_take (progress : Progress) (entry : Evaluated) (key : Text) :
    (progress.take entry).scope.values.get? key =
      if entry.item.key = key then some entry.value else progress.scope.values.get? key := by
  obtain ⟨item, scope, result⟩ := entry
  cases result <;> exact Keyed.get?_set item.key key _ progress.scope.values

theorem distinct_take (progress : Progress) (entry : Evaluated)
    (distinct : progress.failures.keys.Nodup) : (progress.take entry).failures.keys.Nodup := by
  obtain ⟨item, scope, result⟩ := entry
  cases result with
  | ok value => exact (Keyed.keys_erase_sublist item.key progress.failures).nodup distinct
  | error error => exact Keyed.nodup_keys_set item.key error progress.failures distinct

theorem failures_take (progress : Progress) (entry : Evaluated) (key : Text)
    (distinct : progress.failures.keys.Nodup) :
    (progress.take entry).failures.get? key =
      if entry.item.key = key then entry.error? else progress.failures.get? key := by
  obtain ⟨item, scope, result⟩ := entry
  cases result with
  | ok value =>
    change (progress.failures.erase item.key).get? key = _
    split
    · rename_i isKey
      rw [← isKey]
      exact Keyed.get?_erase_self item.key progress.failures distinct
    · rename_i differs
      exact Keyed.get?_erase_of_ne item.key key differs progress.failures
  | error error => exact Keyed.get?_set item.key key error progress.failures

theorem values_takeAll_of_absent (progress : Progress) (record : List Evaluated) (key : Text)
    (absent : ∀ entry ∈ record, entry.item.key ≠ key) :
    (progress.takeAll record).scope.values.get? key = progress.scope.values.get? key := by
  induction record generalizing progress with
  | nil => rfl
  | cons entry rest ih =>
    obtain ⟨first, others⟩ := List.forall_mem_cons.mp absent
    exact (ih _ others).trans ((values_take progress entry key).trans (if_neg first))

theorem values_takeAll (progress : Progress) (front : List Evaluated) (entry : Evaluated)
    (back : List Evaluated) (last : ∀ later ∈ back, later.item.key ≠ entry.item.key) :
    (progress.takeAll (front ++ entry :: back)).scope.values.get? entry.item.key =
      some entry.value := by
  rw [takeAll_append]
  refine (values_takeAll_of_absent _ back _ last).trans ?_
  exact (values_take _ entry _).trans (if_pos rfl)

theorem distinct_takeAll (progress : Progress) (record : List Evaluated)
    (distinct : progress.failures.keys.Nodup) :
    (progress.takeAll record).failures.keys.Nodup := by
  induction record generalizing progress with
  | nil => exact distinct
  | cons entry rest ih => exact ih _ (distinct_take progress entry distinct)

theorem failures_takeAll (progress : Progress) (distinct : progress.failures.keys.Nodup)
    (front : List Evaluated) (entry : Evaluated) (back : List Evaluated)
    (last : ∀ later ∈ back, later.item.key ≠ entry.item.key) :
    (progress.takeAll (front ++ entry :: back)).failures.get? entry.item.key = entry.error? := by
  have reached := distinct_take _ entry (distinct_takeAll progress front distinct)
  rw [takeAll_append]
  change (((progress.takeAll front).take entry).takeAll back).failures.get? entry.item.key = _
  have taken : ((progress.takeAll front).take entry).failures.get? entry.item.key = entry.error? :=
    (failures_take _ entry _ (distinct_takeAll progress front distinct)).trans (if_pos rfl)
  generalize (progress.takeAll front).take entry = after at reached taken ⊢
  induction back generalizing after with
  | nil => exact taken
  | cons later rest ih =>
    obtain ⟨first, others⟩ := List.forall_mem_cons.mp last
    refine ih others _ (distinct_take after later reached) ?_
    exact (failures_take after later _ reached).trans ((if_neg first).trans taken)

theorem reaches_settle (progress next : Progress) (entry : Evaluated)
    (settles : (progress.settle entry.item.key entry.result).run.Reaches (.ok next)) :
    next = progress.take entry := by
  obtain ⟨item, scope, result⟩ := entry
  cases result with
  | ok value =>
    cases settles
    rfl
  | error error =>
    obtain ⟨_, _, settles⟩ := (Action.reaches_ok_bind _ _ _).mp settles
    cases stops : stop? progress.scope.options item.key error with
    | some stop =>
      simp only [stops] at settles
      cases settles
    | none =>
      simp only [stops] at settles
      cases settles
      rfl

theorem reaches_settleAll (progress next : Progress) (scope : Scope) (wave : List ItemSchema)
    (results : List (Except ResolutionError Value))
    (settles : (progress.settleAll (wave.zip results)).run.Reaches (.ok next)) :
    next = progress.takeAll (Evaluated.ofWave scope wave results) := by
  unfold Evaluated.ofWave
  generalize wave.zip results = entries at settles ⊢
  induction entries generalizing progress with
  | nil =>
    cases settles
    rfl
  | cons entry rest ih =>
    obtain ⟨middle, first, settles⟩ := (Action.reaches_ok_bind _ _ _).mp settles
    have taken := reaches_settle progress middle ⟨entry.1, scope, entry.2⟩ first
    rw [ih middle settles, taken]
    rfl

/-- Records of waves from a state on: every definition of a wave is evaluated in the state that the
waves before it left behind. -/
inductive Records : Progress → List (List ItemSchema) → List Evaluated → Prop
  | done {progress : Progress} : Records progress [] []
  | wave {progress : Progress} {wave : List ItemSchema} {waves : List (List ItemSchema)}
      {results : List (Except ResolutionError Value)} {record : List Evaluated}
      (evaluated : List.Forall₂ (fun item result =>
        (evaluateItem progress.scope item).Reaches result) wave results)
      (rest : Records (progress.takeAll (Evaluated.ofWave progress.scope wave results)) waves record) :
      Records progress (wave :: waves) (Evaluated.ofWave progress.scope wave results ++ record)

theorem reaches_recordWave (progress next : Progress) (place : Nat) (wave : List ItemSchema)
    (record : List Evaluated)
    (runs : (progress.recordWave place wave).run.Reaches (.ok (record, next))) :
    ∃ results, record = Evaluated.ofWave progress.scope wave results ∧ next = progress.takeAll record ∧
      List.Forall₂ (fun item result => (evaluateItem progress.scope item).Reaches result) wave
        results := by
  obtain ⟨_, _, runs⟩ := (Action.reaches_ok_bind _ _ _).mp runs
  obtain ⟨results, together, runs⟩ := (Action.reaches_ok_bind _ _ _).mp runs
  obtain ⟨_, settles, same⟩ := (Action.reaches_ok_bind _ _ _).mp runs
  cases same
  have ends := Action.reaches_all _ _ ((Action.reaches_lift _ _).mp together)
  rw [List.forall₂_map_left_iff] at ends
  exact ⟨results, rfl, reaches_settleAll progress next progress.scope wave results settles, ends⟩

theorem reaches_recordWaves (progress last : Progress) (place : Nat)
    (waves : List (List ItemSchema)) (record : List Evaluated)
    (runs : (progress.recordWaves place waves).run.Reaches (.ok (record, last))) :
    Records progress waves record ∧ last = progress.takeAll record := by
  induction waves generalizing progress place record with
  | nil =>
    cases runs
    exact ⟨.done, rfl⟩
  | cons wave rest ih =>
    obtain ⟨⟨first, next⟩, ofWave, runs⟩ := (Action.reaches_ok_bind _ _ _).mp runs
    obtain ⟨⟨others, final⟩, ofRest, same⟩ := (Action.reaches_ok_bind _ _ _).mp runs
    cases same
    obtain ⟨results, rfl, rfl, evaluated⟩ := reaches_recordWave progress next place wave first ofWave
    obtain ⟨records, rfl⟩ := ih _ _ others ofRest
    exact ⟨.wave evaluated records, (takeAll_append _ _ _).symm⟩

theorem Records.items {progress : Progress} {waves : List (List ItemSchema)}
    {record : List Evaluated} (records : Records progress waves record) :
    record.map Evaluated.item = waves.flatten := by
  induction records with
  | done => rfl
  | wave evaluated _ ih =>
    rw [List.map_append, ih, List.flatten_cons, Evaluated.ofWave, List.map_map]
    exact congrArg (· ++ _) (List.map_fst_zip (Nat.le_of_eq evaluated.length_eq))

theorem Records.reaches {progress : Progress} {waves : List (List ItemSchema)}
    {record : List Evaluated} (records : Records progress waves record) :
    ∀ entry ∈ record, (evaluateItem entry.scope entry.item).Reaches entry.result := by
  induction records with
  | done => exact fun entry member => nomatch member
  | wave evaluated _ ih =>
    intro entry member
    rcases List.mem_append.mp member with inWave | inRest
    · obtain ⟨pair, isPair, rfl⟩ := List.mem_map.mp inWave
      exact List.forall₂_zip evaluated isPair
    · exact ih entry inRest

theorem Records.options {progress : Progress} {waves : List (List ItemSchema)}
    {record : List Evaluated} (records : Records progress waves record) :
    ∀ entry ∈ record, entry.scope.options = progress.scope.options := by
  induction records with
  | done => exact fun entry member => nomatch member
  | wave _ _ ih =>
    intro entry member
    rcases List.mem_append.mp member with inWave | inRest
    · obtain ⟨pair, _, rfl⟩ := List.mem_map.mp inWave
      rfl
    · rw [ih entry inRest, options_takeAll]

/-- The scope of a definition is the state after the definitions before it, but for some right
before it that it does not read. -/
theorem Records.scope {progress : Progress} {waves : List (List ItemSchema)}
    {record : List Evaluated} (records : Records progress waves record)
    (independent : ∀ wave ∈ waves, Independent WaveItem.ofSchema wave)
    (front : List Evaluated) (entry : Evaluated) (back : List Evaluated)
    (isRecord : record = front ++ entry :: back) :
    ∃ before beside, front = before ++ beside ∧ entry.scope = (progress.takeAll before).scope ∧
      ∀ other ∈ beside, Apart (.ofSchema other.item) (.ofSchema entry.item) := by
  induction records generalizing front with
  | done => simp at isRecord
  | @wave progress wave waves results record evaluated rest ih =>
    obtain ⟨first, others⟩ := List.forall_mem_cons.mp independent
    rcases List.append_eq_append_iff.mp isRecord with ⟨inner, rfl, isRest⟩ | ⟨inner, isWave, isBack⟩
    · obtain ⟨before, beside, rfl, isScope, apart⟩ := ih others inner isRest
      exact ⟨_, beside, (List.append_assoc _ _ _).symm, by rw [isScope, takeAll_append], apart⟩
    · cases inner with
      | nil =>
        obtain ⟨before, beside, isFront, isScope, apart⟩ := ih others [] isBack.symm
        obtain ⟨rfl, rfl⟩ := List.append_eq_nil_iff.mp isFront.symm
        rw [List.append_nil] at isWave
        refine ⟨front, [], (List.append_nil _).symm, ?_, apart⟩
        rw [isScope, ← isWave]
        rfl
      | cons other inner =>
        obtain ⟨rfl, -⟩ := List.cons.inj isBack
        refine ⟨[], front, rfl, ?_, ?_⟩
        · have member : entry ∈ Evaluated.ofWave progress.scope wave results := by
            rw [isWave]
            simp
          obtain ⟨pair, _, rfl⟩ := List.mem_map.mp member
          rfl
        · have items : wave = (Evaluated.ofWave progress.scope wave results).map Evaluated.item := by
            rw [Evaluated.ofWave, List.map_map]
            exact (List.map_fst_zip (Nat.le_of_eq evaluated.length_eq)).symm
          rw [isWave, List.map_append, List.map_cons] at items
          rw [items] at first
          intro before member
          exact (List.pairwise_append.mp first).2.2 _ (List.mem_map_of_mem member) _
            List.mem_cons_self

/-- A later definition that reads a key, or may read any, is evaluated in a scope that has the value
of the key's last definition before it. -/
theorem Records.read {progress : Progress} {waves : List (List ItemSchema)}
    {record : List Evaluated} (records : Records progress waves record)
    (independent : ∀ wave ∈ waves, Independent WaveItem.ofSchema wave)
    (front : List Evaluated) (entry : Evaluated) (middle : List Evaluated) (later : Evaluated)
    (back : List Evaluated) (isRecord : record = front ++ entry :: (middle ++ later :: back))
    (last : ∀ other ∈ middle, other.item.key ≠ entry.item.key)
    (reads : ¬ Apart (.ofSchema entry.item) (.ofSchema later.item)) :
    later.scope.values.get? entry.item.key = some entry.value := by
  have regrouped : record = (front ++ entry :: middle) ++ later :: back := by
    rw [isRecord, List.append_assoc]
    rfl
  obtain ⟨before, beside, isFront, isScope, apart⟩ := records.scope independent _ later back regrouped
  have absent : entry ∉ beside := fun member => reads (apart entry member)
  -- The entry is not beside the later one, so it is among what came before.
  rcases List.append_eq_append_iff.mp isFront with ⟨inner, rfl, isRest⟩ | ⟨inner, -, rfl⟩
  · cases inner with
    | nil =>
      have isBeside : entry :: middle = beside := isRest
      exact absurd (isBeside ▸ List.mem_cons_self) absent
    | cons first inner =>
      obtain ⟨rfl, rfl⟩ := List.cons.inj isRest
      rw [isScope]
      exact progress.values_takeAll front entry inner fun other member =>
        last other (List.mem_append_left _ member)
  · exact absurd (List.mem_append_right inner List.mem_cons_self) absent

end Progress

end Dotenv
