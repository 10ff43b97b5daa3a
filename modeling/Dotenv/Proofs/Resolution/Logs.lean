import Dotenv.Proofs.Action.Mirroring
import Dotenv.Proofs.Resolution.Trace
/-!
# Logs and values

What a run reports tells of a value only whether there is one, and of an error all that it says;
and what an error of a check says is told by the schema. Two runs that find the same defined, the
same failing and the same checks failing report the same.
-/

set_option autoImplicit false

namespace Dotenv

/-! ## Complaints

An error of an item is told by the check that it is of and by the schema of the item. The value has
no part in it. -/

inductive Check where
  | evaluation (error : ResolutionError)
  | presence
  | pattern
  | enumeration
  | range
  | conversion
deriving DecidableEq

def ItemError.check : ItemError → Check
  | resolution error => .evaluation error
  | missing => .presence
  | pattern _ => .pattern
  | enumeration _ => .enumeration
  | outOfRange _ => .range
  | conversion _ => .conversion

namespace ItemSchema

def complaint (item : ItemSchema) : Check → ItemError
  | .evaluation error => .resolution error
  | .presence => .missing
  | .pattern => .pattern ((item.pattern.map Pattern.source).getD [])
  | .enumeration => .enumeration (item.allowed.getD [])
  | .range => .outOfRange (rangeText item.least item.most)
  | .conversion => .conversion ((item.type.map ValueType.name).getD [])

theorem complaint_of_mem_constraintErrors (item : ItemSchema) (value : Value) (error : ItemError)
    (member : error ∈ item.constraintErrors value) : item.complaint error.check = error := by
  simp only [constraintErrors, List.mem_append] at member
  rcases member with (ofPattern | ofAllowed) | ofRange
  · cases given : item.pattern with
    | none => simp [given] at ofPattern
    | some pattern =>
      simp only [given, List.mem_ite_nil_left, List.mem_singleton] at ofPattern
      rw [ofPattern.2]
      simp [ItemError.check, complaint, given]
  · cases given : item.allowed with
    | none => simp [given] at ofAllowed
    | some allowed =>
      simp only [given, List.mem_ite_nil_left, List.mem_singleton] at ofAllowed
      rw [ofAllowed.2]
      simp [ItemError.check, complaint, given]
  · simp only [List.mem_ite_nil_left, List.mem_singleton] at ofRange
    rw [ofRange.2]
    rfl

theorem complaint_of_mem_check (item : ItemSchema) (value : Value) (isRequired : Bool)
    (error : ItemError) (member : error ∈ (item.check value isRequired).2) :
    item.complaint error.check = error := by
  unfold check at member
  split at member
  · simp only [List.mem_ite_nil_right, List.mem_singleton] at member
    rw [member.2]
    rfl
  · cases converted : item.typed? value with
    | none =>
      simp only [converted, List.mem_singleton] at member
      rw [member]
      rfl
    | some typed =>
      simp only [converted] at member
      exact item.complaint_of_mem_constraintErrors typed error member

end ItemSchema

variable {σ : Type} [Host σ]

open Dotenv.Action (saying SameEnd)

namespace Resolution

theorem complaint_of_mem_finished (progress : Progress) (item : ItemSchema)
    (required sensitive : Except ResolutionError Bool) (error : ItemError)
    (member : error ∈ (finished progress item required sensitive).errors) :
    item.complaint error.check = error := by
  have ofRule (result : Except ResolutionError Bool) (inRule : error ∈ listed result) :
      item.complaint error.check = error := by
    cases result with
    | ok answer => cases inRule
    | error found =>
      rw [List.mem_singleton.mp inRule]
      rfl
  simp only [finished, List.mem_append] at member
  rcases member with (inRequired | inSensitive) | inValue
  · exact ofRule required inRequired
  · exact ofRule sensitive inSensitive
  · cases failed : progress.failures.get? item.key with
    | some found =>
      simp only [failed, List.mem_singleton] at inValue
      rw [inValue]
      rfl
    | none =>
      simp only [failed] at inValue
      exact item.complaint_of_mem_check _ _ error inValue

theorem map_complaint_finished (progress : Progress) (item : ItemSchema)
    (required sensitive : Except ResolutionError Bool) :
    let errors := (finished progress item required sensitive).errors
    (errors.map ItemError.check).map item.complaint = errors := by
  intro errors
  rw [List.map_map]
  refine (List.map_congr_left fun error member => ?_).trans (List.map_id _)
  exact complaint_of_mem_finished progress item required sensitive error member

theorem errors_finished_congr {progress other : Progress} {item : ItemSchema}
    {required sensitive required' sensitive' : Except ResolutionError Bool}
    (same : (finished progress item required sensitive).errors.map ItemError.check =
      (finished other item required' sensitive').errors.map ItemError.check) :
    (finished progress item required sensitive).errors =
      (finished other item required' sensitive').errors := by
  rw [← map_complaint_finished progress item required sensitive, same]
  exact map_complaint_finished other item required' sensitive'

end Resolution

/-! ## Definitions -/

structure Options.ReportsAs (options other : Options) : Prop where
  failFast : options.failFast = other.failFast
  overridden : ∀ key, options.overrides.contains key = other.overrides.contains key

def Value.DefinedAlike (value other : Value) : Prop := value.isUndefined = other.isUndefined

instance (value other : Value) : Decidable (value.DefinedAlike other) :=
  inferInstanceAs (Decidable (value.isUndefined = other.isUndefined))

namespace Evaluated

def AlikeOn (record other : List Evaluated) : Prop :=
  ∀ pair ∈ record.zip other, SameEnd Value.DefinedAlike pair.1.result pair.2.result

instance (record other : List Evaluated) : Decidable (AlikeOn record other) :=
  inferInstanceAs (Decidable (∀ pair ∈ record.zip other,
    SameEnd Value.DefinedAlike pair.1.result pair.2.result))

theorem alikeOn_append {front front' back back' : List Evaluated}
    (sameLength : front.length = front'.length) :
    AlikeOn (front ++ back) (front' ++ back') ↔ AlikeOn front front' ∧ AlikeOn back back' := by
  unfold AlikeOn
  rw [List.zip_append sameLength, List.forall_mem_append]

theorem AlikeOn.front {front front' record other : List Evaluated}
    (alike : AlikeOn record other) (sameLength : front.length = front'.length)
    (isFront : front <+: record) (isFront' : front' <+: other) : AlikeOn front front' := by
  obtain ⟨back, rfl⟩ := isFront
  obtain ⟨back', rfl⟩ := isFront'
  exact ((alikeOn_append sameLength).mp alike).1

theorem length_ofWave (scope : Scope) {wave : List ItemSchema}
    {results : List (Except ResolutionError Value)} (sameLength : results.length = wave.length) :
    (ofWave scope wave results).length = wave.length := by
  rw [ofWave, List.length_map, List.length_zip, sameLength, Nat.min_self]

theorem map_result_ofWave (scope : Scope) {wave : List ItemSchema}
    {results : List (Except ResolutionError Value)} (sameLength : results.length = wave.length) :
    (ofWave scope wave results).map result = results := by
  rw [ofWave, List.map_map]
  exact List.map_snd_zip (Nat.le_of_eq sameLength)

theorem AlikeOn.results {scope scope' : Scope} {wave : List ItemSchema}
    {results results' : List (Except ResolutionError Value)}
    (sameLength : results.length = wave.length) (sameLength' : results'.length = wave.length)
    (alike : AlikeOn (ofWave scope wave results) (ofWave scope' wave results')) :
    List.Forall₂ (SameEnd Value.DefinedAlike) results results' := by
  rw [← map_result_ofWave scope sameLength, ← map_result_ofWave scope' sameLength',
    List.forall₂_map_left_iff, List.forall₂_map_right_iff]
  refine List.forall₂_iff_zip.mpr ⟨?_, fun member => alike _ member⟩
  rw [length_ofWave scope sameLength, length_ofWave scope' sameLength']

end Evaluated

namespace Progress

theorem told_congr {options other : Options} (reports : options.ReportsAs other) (key : Text)
    {result result' : Except ResolutionError Value}
    (alike : SameEnd Value.DefinedAlike result result') :
    told options key result = told other key result' := by
  unfold told
  rw [reports.overridden]
  cases alike with
  | error error => rfl
  | ok same =>
    unfold Value.DefinedAlike at same
    simp only [Value.redacted, same]

def toldEach (options : Options) (entries : List (ItemSchema × Except ResolutionError Value)) :
    List Event :=
  entries.flatMap fun entry => told options entry.1.key entry.2

theorem toldEach_congr {options other : Options} (reports : options.ReportsAs other)
    {entries entries' : List (ItemSchema × Except ResolutionError Value)}
    (alike : List.Forall₂ (fun entry entry' => entry.1 = entry'.1 ∧
      SameEnd Value.DefinedAlike entry.2 entry'.2) entries entries') :
    toldEach options entries = toldEach other entries' := by
  unfold toldEach
  induction alike with
  | nil => rfl
  | cons first _ ih =>
    rw [List.flatMap_cons, List.flatMap_cons, ih, first.1, told_congr reports _ first.2]

def ReportsAs (progress other : Progress) : Prop :=
  progress.scope.options.ReportsAs other.scope.options

theorem ReportsAs.settle {progress other : Progress} (reports : progress.ReportsAs other)
    (key : Text) {result result' : Except ResolutionError Value}
    (alike : SameEnd Value.DefinedAlike result result') :
    ∃ events ended ended', (progress.settle key result).run = saying ended events ∧
      (other.settle key result').run = saying ended' events ∧ SameEnd ReportsAs ended ended' := by
  cases alike with
  | ok same => exact ⟨[], _, _, rfl, rfl, .ok reports⟩
  | error error =>
    have stops : stop? progress.scope.options key error = stop? other.scope.options key error := by
      simp only [stop?, reports.failFast]
    simp only [Progress.settle, stops]
    cases stop? other.scope.options key error with
    | some stop => exact ⟨[.failedItem key error.message], _, _, rfl, rfl, .error stop⟩
    | none => exact ⟨[.failedItem key error.message], _, _, rfl, rfl, .ok reports⟩

theorem ReportsAs.settleAll {progress other : Progress} (reports : progress.ReportsAs other)
    {entries entries' : List (ItemSchema × Except ResolutionError Value)}
    (alike : List.Forall₂ (fun entry entry' => entry.1 = entry'.1 ∧
      SameEnd Value.DefinedAlike entry.2 entry'.2) entries entries') :
    ∃ events ended ended', (progress.settleAll entries).run = saying ended events ∧
      (other.settleAll entries').run = saying ended' events ∧ SameEnd ReportsAs ended ended' := by
  induction alike generalizing progress other with
  | nil => exact ⟨[], _, _, rfl, rfl, .ok reports⟩
  | @cons entry entry' rest rest' first _ ih =>
    obtain ⟨item, result⟩ := entry
    obtain ⟨_, result'⟩ := entry'
    obtain ⟨rfl, same⟩ := first
    obtain ⟨events, ended, ended', settles, settles', ends⟩ := reports.settle item.key same
    cases ends with
    | error stop =>
      exact ⟨events ++ [], .error stop, .error stop, Action.bind_saying settles rfl,
        Action.bind_saying settles' rfl, .error stop⟩
    | ok next =>
      obtain ⟨more, last, last', goesOn, goesOn', ends⟩ := ih next
      exact ⟨events ++ more, last, last', Action.bind_saying settles goesOn,
        Action.bind_saying settles' goesOn', ends⟩

theorem perform_traceWave (progress : Progress) (place : Nat) (wave : List ItemSchema)
    (isLocal : ∀ item ∈ wave, item.value.EachBound Bound.IsLocal) (world : σ) :
    ∃ results, results.length = wave.length ∧
      (progress.traceWave place wave).perform world =
        let settling := (progress.settleAll (wave.zip results)).run.perform world
        { result := (Evaluated.ofWave progress.scope wave results, settling.result)
          world := settling.world
          events := .resolvingWave place wave.length ::
            toldEach progress.scope.options (wave.zip results) ++ settling.events } := by
  obtain ⟨results, sameLength, evaluates⟩ := Action.all_saying (evaluateItem progress.scope)
    (fun item => told progress.scope.options item.key) wave fun item member =>
      evaluateItem_saying progress.scope item (isLocal item member)
  refine ⟨results, sameLength, ?_⟩
  unfold traceWave toldEach
  rw [evaluates]
  simp only [bind, pure, Action.report, Action.bind, Action.perform, Action.perform_bind,
    Action.perform_saying, List.append_nil, List.cons_append]

theorem ReportsAs.traceWave {progress other : Progress} (reports : progress.ReportsAs other)
    (place : Nat) (wave : List ItemSchema)
    (isLocal : ∀ item ∈ wave, item.value.EachBound Bound.IsLocal) (world elsewhere : σ) :
    let first := (progress.traceWave place wave).perform world
    let second := (other.traceWave place wave).perform elsewhere
    first.result.1.length = second.result.1.length ∧
      (Evaluated.AlikeOn first.result.1 second.result.1 →
        first.events = second.events ∧ SameEnd ReportsAs first.result.2 second.result.2) := by
  obtain ⟨results, sameLength, performed⟩ := perform_traceWave progress place wave isLocal world
  obtain ⟨results', sameLength', performed'⟩ := perform_traceWave other place wave isLocal elsewhere
  rw [performed, performed']
  refine ⟨?_, fun alike => ?_⟩
  · exact (Evaluated.length_ofWave _ sameLength).trans (Evaluated.length_ofWave _ sameLength').symm
  have entries := Waves.forall₂_zip (alike.results sameLength sameLength') wave
  obtain ⟨events, ended, ended', settles, settles', ends⟩ := reports.settleAll entries
  simp only [settles, settles', Action.perform_saying, toldEach_congr reports entries]
  exact ⟨trivial, ends⟩

theorem ReportsAs.traceWaves (waves : List (List ItemSchema))
    (isLocal : ∀ wave ∈ waves, ∀ item ∈ wave, item.value.EachBound Bound.IsLocal)
    {progress other : Progress} (reports : progress.ReportsAs other) (place : Nat)
    (world elsewhere : σ) :
    let first := (progress.traceWaves place waves).perform world
    let second := (other.traceWaves place waves).perform elsewhere
    Evaluated.AlikeOn first.result.1 second.result.1 →
      first.events = second.events ∧ SameEnd ReportsAs first.result.2 second.result.2 := by
  induction waves generalizing progress other place world elsewhere with
  | nil => exact fun _ => ⟨rfl, .ok reports⟩
  | cons wave rest ih =>
    obtain ⟨waveLocal, restLocal⟩ := List.forall_mem_cons.mp isLocal
    obtain ⟨sameLength, ofWave⟩ := reports.traceWave place wave waveLocal world elsewhere
    intro first second alike
    -- Both records begin with that of this wave, whether or not it stops the run.
    have sameFront := alike.front sameLength (prefix_traceWaves progress place wave rest world)
      (prefix_traceWaves other place wave rest elsewhere)
    obtain ⟨sameEvents, ends⟩ := ofWave sameFront
    dsimp only [first, second] at alike ⊢
    rw [perform_traceWaves_cons, perform_traceWaves_cons] at alike ⊢
    generalize (progress.traceWave place wave).perform world = first at *
    generalize (other.traceWave place wave).perform elsewhere = second at *
    obtain ⟨⟨record, ended⟩, middle, events⟩ := first
    obtain ⟨⟨record', ended'⟩, middle', events'⟩ := second
    cases ends with
    | error stop => exact ⟨sameEvents, .error stop⟩
    | @ok next next' goesOn =>
      obtain ⟨sameRest, ends⟩ := ih restLocal goesOn (place + wave.length) middle middle'
        ((Evaluated.alikeOn_append sameLength).mp alike).2
      exact ⟨congrArg₂ (· ++ ·) sameEvents sameRest, ends⟩

end Progress

/-! ## Items -/

def ResolvedItem.AlikeOn (items others : List ResolvedItem) : Prop :=
  ∀ pair ∈ items.zip others, pair.1.errors.map ItemError.check = pair.2.errors.map ItemError.check

instance (items others : List ResolvedItem) : Decidable (ResolvedItem.AlikeOn items others) :=
  inferInstanceAs (Decidable (∀ pair ∈ items.zip others,
    pair.1.errors.map ItemError.check = pair.2.errors.map ItemError.check))

namespace Resolution

theorem reject_saying (failFast : Bool) (key : Text) (errors : List ItemError) :
    ∃ ended events, (reject failFast key errors).run = saying ended events := by
  cases errors with
  | nil => exact ⟨.ok (), [], rfl⟩
  | cons error more =>
    cases failFast with
    | false => exact ⟨.ok (), [.invalidItem key error.message], rfl⟩
    | true => exact ⟨.error (.failFast key error), [.invalidItem key error.message], rfl⟩

theorem traceAll_alike (root : RootSchema) {progress other : Progress}
    (reports : progress.ReportsAs other) (entries : Keyed ItemSchema)
    (isLocal : ∀ entry ∈ entries, entry.2.Each (Expr.EachBound Bound.IsLocal))
    (world elsewhere : σ) :
    let first := (traceAll root progress entries).perform world
    let second := (traceAll root other entries).perform elsewhere
    ResolvedItem.AlikeOn first.result.1 second.result.1 →
      first.events = second.events ∧
        SameEnd (List.Forall₂ fun entry entry' => entry.2.errors = entry'.2.errors)
          first.result.2 second.result.2 := by
  induction entries with
  | nil => exact fun _ => ⟨rfl, .ok .nil⟩
  | cons entry rest ih =>
    obtain ⟨key, item⟩ := entry
    obtain ⟨itemLocal, restLocal⟩ := List.forall_mem_cons.mp isLocal
    obtain ⟨required, sensitive, isDone⟩ := finishItem_eq_done root progress item itemLocal
    obtain ⟨required', sensitive', isDone'⟩ := finishItem_eq_done root other item itemLocal
    intro first second alike
    have sameErrors : (finished progress item required sensitive).errors =
        (finished other item required' sensitive').errors := by
      obtain ⟨later, isFirst⟩ := head_traceAll root progress key item rest world
      obtain ⟨later', isSecond⟩ := head_traceAll root other key item rest elsewhere
      dsimp only [first, second] at alike
      rw [isFirst, isSecond, isDone, isDone'] at alike
      exact errors_finished_congr (List.forall_mem_cons.mp alike).1
    obtain ⟨ended, events, rejects⟩ := reject_saying progress.scope.options.failFast key
      (finished progress item required sensitive).errors
    have rejects' := rejects
    rw [reports.failFast, sameErrors] at rejects'
    dsimp only [first, second] at alike ⊢
    rw [perform_traceAll_cons, perform_traceAll_cons, isDone, isDone'] at alike ⊢
    simp only [Action.perform, rejects, rejects', Action.perform_saying, List.nil_append] at alike ⊢
    cases ended with
    | error stop => exact ⟨rfl, .error stop⟩
    | ok answer =>
      obtain ⟨-, restAlike⟩ := List.forall_mem_cons.mp alike
      obtain ⟨sameRest, ends⟩ := ih restLocal restAlike
      refine ⟨congrArg (events ++ ·) sameRest, ?_⟩
      dsimp only
      generalize ((traceAll root progress rest).perform world).result.2 = last at ends ⊢
      generalize ((traceAll root other rest).perform elsewhere).result.2 = last' at ends ⊢
      cases ends with
      | error stop => exact .error stop
      | ok same => exact .ok (.cons sameErrors same)

/-! ## Runs -/

theorem summary_congr {items items' : Keyed ResolvedItem}
    (same : List.Forall₂ (fun entry entry' => entry.2.errors = entry'.2.errors) items items')
    (envName envName' : Option Text) :
    summary ⟨items, envName⟩ = summary ⟨items', envName'⟩ := by
  unfold summary list
  refine congrArg₂ Event.resolutionComplete same.length_eq ?_
  induction same with
  | nil => rfl
  | @cons entry entry' rest rest' sameErrors _ ih =>
    have sameValid : entry.2.isValid = entry'.2.isValid := congrArg List.isEmpty sameErrors
    simp only [List.map_cons, List.filter_cons, sameValid]
    split
    · exact congrArg (· + 1) ih
    · exact ih

end Resolution

structure Trace.Alike (trace other : Trace) : Prop where
  evaluated : Evaluated.AlikeOn trace.evaluated other.evaluated
  finished : ResolvedItem.AlikeOn trace.finished other.finished

instance (trace other : Trace) : Decidable (trace.Alike other) :=
  decidable_of_iff (Evaluated.AlikeOn trace.evaluated other.evaluated ∧
      ResolvedItem.AlikeOn trace.finished other.finished)
    ⟨fun alike => ⟨alike.1, alike.2⟩, fun alike => ⟨alike.evaluated, alike.finished⟩⟩

namespace Resolution

theorem conclude_alike (progress other : Progress)
    {items items' : Except ResolveError (Keyed ResolvedItem)}
    (same : SameEnd (List.Forall₂ fun entry entry' => entry.2.errors = entry'.2.errors) items
      items') (world elsewhere : σ) :
    ((conclude progress items).run.perform world).events =
      ((conclude other items').run.perform elsewhere).events := by
  cases same with
  | error stop => rfl
  | ok same => exact congrArg ([·]) (summary_congr same _ _)

theorem traceSchema_alike (schema : Schema)
    (isLocal : ∀ item ∈ schema.items, item.Each (Expr.EachBound Bound.IsLocal))
    {options other : Options} (reports : options.ReportsAs other) (world elsewhere : σ) :
    let first := (traceSchema schema options).perform world
    let second := (traceSchema schema other).perform elsewhere
    first.result.Alike second.result → first.events = second.events := by
  intro first second alike
  have wavesLocal := forall_mem_wavesOf schema.items fun item member => (isLocal item member).value
  have startsAlike : (Progress.start schema options).ReportsAs (.start schema other) := reports
  have sameRecord := alike.evaluated
  rw [evaluated_traceSchema, evaluated_traceSchema] at sameRecord
  obtain ⟨sameEvents, ends⟩ := startsAlike.traceWaves (wavesOf schema.items) wavesLocal 0 world
    elsewhere sameRecord
  have sameFinished := alike.finished
  dsimp only [first, second] at sameFinished ⊢
  rw [perform_traceSchema, perform_traceSchema] at sameFinished ⊢
  generalize ((Progress.start schema options).traceWaves 0
    (wavesOf schema.items)).perform world = waves at sameEvents ends sameFinished ⊢
  generalize ((Progress.start schema other).traceWaves 0
    (wavesOf schema.items)).perform elsewhere = waves' at sameEvents ends sameFinished ⊢
  obtain ⟨⟨record, ended⟩, middle, events⟩ := waves
  obtain ⟨⟨record', ended'⟩, middle', events'⟩ := waves'
  cases ends with
  | error stop => exact sameEvents
  | @ok progress progress' goesOn =>
    obtain ⟨sameRest, ends⟩ := traceAll_alike schema.root goesOn (lastDefinitions schema.items)
      (fun entry member => isLocal entry.2 (mem_lastDefinitions schema.items entry member))
      middle middle' sameFinished
    exact congrArg₂ (· ++ ·) sameEvents
      (congrArg₂ (· ++ ·) sameRest (conclude_alike progress progress' ends _ _))

/-- A run comes to what its trace ends in. Other texts for the same overrides do not change what is
reported, as long as the same definitions have a value or fail in the same way, and the items at the
end fail the same checks. -/
theorem same_log_of_other_texts (registry : Registry) (document : Document)
    (isLocal : document.IsLocal registry) (options : Options) (texts : Keyed Text)
    (sameKeys : ∀ key, options.overrides.contains key = texts.contains key)
    (world elsewhere : σ)
    (alike : ((traced registry options document).perform world).result.Alike
      ((traced registry { options with overrides := texts } document).perform elsewhere).result) :
    (∀ given, (ofDocument registry given document).run =
      Trace.ended <$> traced registry given document) ∧
    ((ofDocument registry options document).run.perform world).events =
      ((ofDocument registry { options with overrides := texts } document).run.perform
        elsewhere).events := by
  refine ⟨fun given => run_ofDocument registry given document, ?_⟩
  have reports : options.ReportsAs { options with overrides := texts } := ⟨rfl, sameKeys⟩
  rw [run_ofDocument, run_ofDocument, Action.events_map, Action.events_map]
  unfold traced at alike ⊢
  cases compiled : Schema.ofDocument registry document with
  | error issues => rfl
  | ok schema =>
    simp only [compiled] at alike
    exact traceSchema_alike schema (isLocal.eachBound compiled) reports world elsewhere alike

/-- `T=1`, `C=concat(ref(T), x)`, `P=ref(T)` of no less than 99 characters, and `L=ref(G)`, one
below the other. -/
def lengthy : Document :=
  let ref (c : Char) : Term := .applyNamed "ref" [.literal (.bare [c])]
  let least : Decorator := ⟨[], "min".toList, .assigned (.literal (.bare ['9', '9']))⟩
  { nodes :=
      [.item (.new ['T'] (some (.literal (.bare ['1'])))),
        .item (.new ['C'] (some (.applyNamed "concat" [ref 'T', .literal (.bare ['x'])]))),
        .item { Item.new ['P'] (some (ref 'T')) with above := [.decorated (.new [least])] },
        .item (.new ['L'] (some (ref 'G')))]
    trailingNewline := true }

theorem lengthy_isLocal : lengthy.IsLocal (.withBuiltins []) := by
  have isRef : (Registry.withBuiltins []).IsLocal "ref".toList :=
    ⟨.ref, by simp [Resolver.builtins], by decide, rfl⟩
  have isConcat : (Registry.withBuiltins []).IsLocal "concat".toList :=
    ⟨.concat, by simp [Resolver.builtins], by decide, rfl⟩
  intro schema compiled item member
  have items : schema.items = [_, _, _, _] :=
    (congrArg Schema.items (Except.ok.inj compiled)).symm.trans rfl
  rw [items] at member
  simp only [List.mem_cons, List.not_mem_nil, or_false] at member
  rcases member with rfl | rfl | rfl | rfl
  · exact ⟨trivial, trivial, trivial⟩
  · exact ⟨⟨isConcat, ⟨isRef, trivial, trivial⟩, trivial, trivial⟩, trivial, trivial⟩
  · exact ⟨⟨isRef, trivial, trivial⟩, trivial, trivial⟩
  · exact ⟨⟨isRef, trivial, trivial⟩, trivial, trivial⟩

/-- Two texts of which neither is long enough, and a reference to nothing. -/
theorem same_log_of_other_texts_lengthy :
    let options : Options := { Options.ofEnvironment [] with
      overrides := [(['T'], "abc".toList)], strictRefs := true }
    let texts : Keyed Text := [(['T'], "hunter2".toList)]
    let run (options : Options) :=
      (ofDocument (.withBuiltins []) options lengthy).run.perform (World.new [] [])
    let trace (options : Options) :=
      (traced (.withBuiltins []) options lengthy).perform (World.new [] [])
    lengthy.IsLocal (.withBuiltins []) ∧
    (∀ key, options.overrides.contains key = texts.contains key) ∧
    (trace options).result.Alike (trace { options with overrides := texts }).result ∧
    (run options).events = (run { options with overrides := texts }).events ∧
    (run options).events.map Event.level =
      [.debug, .debug, .debug, .debug, .debug, .warn, .warn, .warn, .info] := by
  intro options texts run trace
  have sameKeys : ∀ key, options.overrides.contains key = texts.contains key := by
    intro key
    by_cases isKey : ['T'] = key
    · subst isKey
      rfl
    · simp [options, texts, Keyed.contains, Keyed.get?, isKey]
  have alike : (trace options).result.Alike (trace { options with overrides := texts }).result := by
    decide +kernel
  refine ⟨lengthy_isLocal, sameKeys, alike, ?_, ?_⟩
  · exact (same_log_of_other_texts _ _ lengthy_isLocal _ texts sameKeys _ _ alike).2
  · decide +kernel

end Resolution

end Dotenv
