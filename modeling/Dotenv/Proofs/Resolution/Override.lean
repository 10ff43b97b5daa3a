import Dotenv.Proofs.Expression.Likeness
import Dotenv.Proofs.Resolution.Agreement
import Dotenv.Proofs.Resolution.Written
/-!
# Overrides and written values

A document whose first item is overridden with a plain text resolves as the document with that text
for the value of the item: step by step with the same commands and the same requests, to the same
errors and the same exported texts. The item has to be the only one of its key, and no item may tell
the text from the value that it reads as.
-/

set_option autoImplicit false

namespace Dotenv

open Dotenv.Action (Mirrors Reflects SameEnd)

variable {σ : Type} [Host σ] {key text : Text}

/-! ## The waves -/

namespace Progress

/-- The same state with an override and with a written value, once the key is defined. -/
structure Stands (key text : Text) (progress other : Progress) : Prop where
  scope : progress.scope.StandsIn key text other.scope
  failures : progress.failures = other.failures
  defined : other.scope.values.get? key = some (.ofBare text)

theorem mirrors_evaluateItem {scope other : Scope} (stands : scope.StandsIn key text other)
    (item : ItemSchema) (differs : key ≠ item.key)
    (takes : item.value.EachBound (Bound.TakesAlike text))
    (alike : scope.AlikeOn text item.value.dependencies other) :
    Mirrors (SameEnd (Value.Alike text)) (evaluateItem scope item) (evaluateItem other item) := by
  unfold evaluateItem
  rw [stands.overrides_get? item.key, if_neg differs]
  cases other.options.overrides.get? item.key with
  | some given => exact .note _ _ (.done (.ok (.same _)))
  | none =>
    refine Mirrors.bind (item.value.reflects_evaluate _ _ takes (alike.forKey item.key)) ?_
    intro result result' same
    cases same with
    | error error => exact .done (.error error)
    | ok alike => exact .note _ _ (.done (.ok alike))

theorem mirrors_evaluateItem_overridden {scope other : Scope} (item : ItemSchema)
    (stands : scope.StandsIn item.key text other) :
    Mirrors (fun result result' => result = .ok (.text text) ∧ result' = .ok (.ofBare text))
      (evaluateItem scope item) (evaluateItem other (item.withBare text)) := by
  have isKey : (item.withBare text).key = item.key := rfl
  unfold evaluateItem
  rw [isKey, stands.overrides_get? item.key, if_pos rfl, stands.absent]
  exact .note _ _ (.done ⟨rfl, rfl⟩)

theorem Stands.settle {progress other : Progress} (stands : progress.Stands key text other)
    (next : Text) (differs : key ≠ next) {result result' : Except ResolutionError Value}
    (same : SameEnd (Value.Alike text) result result') :
    Reflects (Stands key text) (progress.settle next result) (other.settle next result') := by
  have still : ∀ value, (other.scope.insert next value).values.get? key = some (.ofBare text) := by
    intro value
    simp only [Scope.insert, Keyed.get?_set, if_neg differs.symm]
    exact stands.defined
  cases same with
  | ok alike =>
    refine .pure ⟨stands.scope.insert next alike, ?_, still _⟩
    exact congrArg (Keyed.erase next) stands.failures
  | error error =>
    have stops : stop? progress.scope.options next error =
        stop? other.scope.options next error := by
      rw [stands.scope.options]
      rfl
    refine .bind (.lift (.refl (fun _ => rfl) _)) fun _ _ _ => ?_
    rw [stops]
    cases stop? other.scope.options next error with
    | some stop => exact .throw stop
    | none =>
      refine .pure ⟨stands.scope.insert next (.same _), ?_, still _⟩
      exact congrArg (Keyed.set next error) stands.failures

theorem Stands.settleAll {results results' : List (ItemSchema × Except ResolutionError Value)}
    (same : List.Forall₂ (fun entry other => entry.1 = other.1 ∧
      SameEnd (Value.Alike text) entry.2 other.2) results results')
    (differs : ∀ entry ∈ results, key ≠ entry.1.key) {progress other : Progress}
    (stands : progress.Stands key text other) :
    Reflects (Stands key text) (progress.settleAll results) (other.settleAll results') := by
  induction same generalizing progress other with
  | nil => exact .pure stands
  | @cons entry entry' rest rest' first _ ih =>
    obtain ⟨item, result⟩ := entry
    obtain ⟨_, result'⟩ := entry'
    obtain ⟨rfl, ends⟩ := first
    refine (stands.settle item.key (differs _ List.mem_cons_self) ends).bind ?_
    intro next next' stands
    exact ih (fun entry member => differs entry (List.mem_cons_of_mem _ member)) stands

theorem Stands.runWave (plain : text.IsPlain) (place : Nat) (wave : List ItemSchema)
    (takes : ∀ item ∈ wave, item.value.EachBound (Bound.TakesAlike text))
    (differs : ∀ item ∈ wave, key ≠ item.key) {progress other : Progress}
    (stands : progress.Stands key text other) :
    Reflects (Stands key text) (progress.runWave place wave) (other.runWave place wave) := by
  have alike := stands.scope.alike plain stands.defined
  have evaluated : List.Forall₂ (Mirrors (SameEnd (Value.Alike text)))
      (wave.map (evaluateItem progress.scope)) (wave.map (evaluateItem other.scope)) := by
    rw [List.forall₂_map_left_iff, List.forall₂_map_right_iff, List.forall₂_same]
    intro item member
    exact mirrors_evaluateItem stands.scope item (differs item member) (takes item member)
      (alike.anywhere _)
  refine .bind (.lift (.refl (fun _ => rfl) _)) fun _ _ _ => ?_
  refine .bind (.lift (Mirrors.all evaluated)) fun results results' same => ?_
  apply Stands.settleAll (Waves.forall₂_zip same wave) ?_ stands
  intro entry member
  exact differs entry.1 (List.of_mem_zip member).1

theorem Stands.runWaves (plain : text.IsPlain) (waves : List (List ItemSchema))
    (takes : ∀ item ∈ waves.flatten, item.value.EachBound (Bound.TakesAlike text))
    (differs : ∀ item ∈ waves.flatten, key ≠ item.key) (place : Nat) {progress other : Progress}
    (stands : progress.Stands key text other) :
    Reflects (Stands key text) (progress.runWaves place waves) (other.runWaves place waves) := by
  induction waves generalizing place progress other with
  | nil => exact .pure stands
  | cons wave rest ih =>
    rw [List.flatten_cons, List.forall_mem_append] at takes differs
    refine (stands.runWave plain place wave takes.1 differs.1).bind ?_
    intro next next' stands
    exact ih takes.2 differs.2 (place + wave.length) stands

/-! ## The first wave -/

theorem start_standsIn (root : RootSchema) (items others : List ItemSchema) (options : Options)
    (absent : options.overrides.get? key = none) :
    (start ⟨root, items⟩ (options.withOverrides [(key, text)])).scope.StandsIn key text
      (start ⟨root, others⟩ options).scope :=
  ⟨rfl, absent, rfl, rfl, .nil⟩

theorem mirrors_first (first : ItemSchema) (front : List ItemSchema)
    (takes : ∀ item ∈ front, item.value.EachBound (Bound.TakesAlike text))
    (apart : ∀ item ∈ front, Waves.Apart (.ofSchema first) (.ofSchema item))
    {scope other : Scope} (stands : scope.StandsIn first.key text other) :
    Mirrors (fun results results' => ∃ more more', results = .ok (.text text) :: more ∧
        results' = .ok (.ofBare text) :: more' ∧
        List.Forall₂ (SameEnd (Value.Alike text)) more more')
      (Action.all ((first :: front).map (evaluateItem scope)))
      (Action.all ((first.withBare text :: front).map (evaluateItem other))) := by
  have evaluated : List.Forall₂ (Mirrors (SameEnd (Value.Alike text)))
      (front.map (evaluateItem scope)) (front.map (evaluateItem other)) := by
    rw [List.forall₂_map_left_iff, List.forall₂_map_right_iff, List.forall₂_same]
    intro item member
    -- An item of the same wave reads known keys, and the overridden one is not among them.
    obtain ⟨differs, reads, known, unread⟩ := apart item member
    change item.value.dependencies = some reads at known
    apply mirrors_evaluateItem stands item differs (takes item member)
    rw [known]
    exact stands.alikeOn reads unread
  have both := (mirrors_evaluateItem_overridden first stands).both (Mirrors.all evaluated)
  refine both.bind ?_
  rintro ⟨result, more⟩ ⟨result', more'⟩ ⟨⟨rfl, rfl⟩, same⟩
  exact .done ⟨more, more', rfl, rfl, same⟩

theorem reflects_firstWave (first : ItemSchema) (front : List ItemSchema)
    (takes : ∀ item ∈ front, item.value.EachBound (Bound.TakesAlike text))
    (apart : ∀ item ∈ front, Waves.Apart (.ofSchema first) (.ofSchema item))
    (place : Nat) {progress other : Progress}
    (stands : progress.scope.StandsIn first.key text other.scope)
    (failures : progress.failures = other.failures) :
    Reflects (Stands first.key text) (progress.runWave place (first :: front))
      (other.runWave place (first.withBare text :: front)) := by
  refine .bind (.lift (.refl (fun _ => rfl) (Action.report _))) fun _ _ _ => ?_
  refine .bind (.lift (mirrors_first first front takes apart stands)) ?_
  rintro _ _ ⟨more, more', rfl, rfl, same⟩
  have settled : (progress.succeed first.key (.text text)).Stands first.key text
      (other.succeed first.key (.ofBare text)) := by
    refine ⟨stands.insert first.key .typed, congrArg (Keyed.erase first.key) failures, ?_⟩
    simp only [succeed, Scope.insert, Keyed.get?_set, if_true]
  refine Stands.settleAll (Waves.forall₂_zip same front) ?_ settled
  intro entry member
  exact (apart entry.1 (List.of_mem_zip member).1).1

end Progress

/-! ## The waves of items with another first value -/

namespace Waves

theorem sizesFrom_of_ne_nil (keys : List Text) (items : List WaveItem) (gathered : keys ≠ []) :
    ∃ more sizes, sizesFrom keys items = (keys.length + more) :: sizes := by
  induction items generalizing keys with
  | nil =>
    cases keys with
    | nil => exact absurd rfl gathered
    | cons first rest => exact ⟨0, [], rfl⟩
  | cons item rest ih =>
    simp only [sizesFrom]
    split
    · exact ⟨0, _, rfl⟩
    · obtain ⟨more, sizes, same⟩ := ih (keys ++ [item.key]) (by simp)
      refine ⟨1 + more, sizes, ?_⟩
      rw [same, List.length_append, Nat.add_assoc]
      rfl

end Waves

theorem Resolution.wavesOf_cons (first : ItemSchema) (rest : List ItemSchema) :
    ∃ front waves, front ++ waves.flatten = rest ∧
      (∀ item ∈ front, Waves.Apart (.ofSchema first) (.ofSchema item)) ∧
      ∀ value, wavesOf ({ first with value } :: rest) = ({ first with value } :: front) :: waves := by
  obtain ⟨more, sizes, same⟩ := Waves.sizesFrom_of_ne_nil [first.key] (rest.map WaveItem.ofSchema)
    (List.cons_ne_nil _ _)
  have waves : ∀ value, wavesOf ({ first with value } :: rest) =
      ({ first with value } :: rest.take more) :: Waves.cut sizes (rest.drop more) := by
    intro value
    change Waves.cut (Waves.sizesFrom [first.key] (rest.map WaveItem.ofSchema)) _ = _
    rw [same, List.length_singleton, Nat.add_comm 1 more]
    rfl
  have parts := flatten_wavesOf (first :: rest)
  have independent := independent_of_mem_wavesOf (first :: rest)
  have original := waves first.value
  change wavesOf (first :: rest) = _ at original
  rw [original] at parts independent
  refine ⟨rest.take more, Waves.cut sizes (rest.drop more), ?_, ?_, waves⟩
  · exact (List.cons.inj parts).2
  · exact (List.pairwise_cons.mp (independent _ List.mem_cons_self)).1

/-! ## The final states -/

/-- Final states of a key that are the same, but for what a value remembers beside its text. -/
structure ResolvedItem.Agrees (item other : ResolvedItem) : Prop where
  key : item.key = other.key
  exported : item.value.exported = other.value.exported
  required : item.required = other.required
  errors : item.errors = other.errors
  description : item.description = other.description
  aliases : item.aliases = other.aliases

structure Resolution.Agrees (resolution other : Resolution) : Prop where
  environment : resolution.environment = other.environment
  items : resolution.items.Alike ResolvedItem.Agrees other.items
  envName : resolution.envName = other.envName

/-- In a state that the waves leave, no item that has the text for its value tells it from what it
reads as, and no rule comes to the text for zero. -/
structure Progress.TakesAlike (text : Text) (progress : Progress) (item : ItemSchema) : Prop where
  value : progress.scope.values.get? item.key = some (.text text) → item.TakesAlike text
  rule : ∀ expression, item.priority = .dynamic expression →
    (expression.evaluate (progress.scope.forKey item.key)).run.Reaches (.ok (.text text)) →
      text ≠ ['0']

theorem Progress.takesAlike_of_not_number (plain : text.IsPlain)
    (notNumber : ∀ x, Scalar.ofBare text ≠ .number x) (progress : Progress) (item : ItemSchema) :
    progress.TakesAlike text item := by
  refine ⟨fun _ => ItemSchema.takesAlike_of_not_number plain notNumber item, ?_⟩
  rintro _ _ _ rfl
  exact notNumber (.ofNat 0) (by decide +kernel)

namespace Resolution

theorem environment_agrees {items others : Keyed ResolvedItem}
    (agrees : items.Alike ResolvedItem.Agrees others) (envName otherName : Option Text) :
    environment ⟨items, envName⟩ = environment ⟨others, otherName⟩ := by
  unfold environment list
  induction agrees with
  | nil => rfl
  | @cons first second rest others same more ih =>
    simp only [List.map_cons, List.filterMap_cons, same.2.exported, same.2.key, ih]

theorem reflects_isRequired (plain : text.IsPlain) (item : ItemSchema) (root : RootSchema)
    {scope other : Scope} (alike : scope.AlikeOn text none other)
    (asks : ∀ expression, item.priority = .dynamic expression →
      (expression.evaluate scope).run.Reaches (.ok (.text text)) → text ≠ ['0'])
    (takes : item.priority.Each (Expr.EachBound (Bound.TakesAlike text))) :
    Reflects Eq (item.isRequired root scope) (item.isRequired root other) := by
  unfold ItemSchema.isRequired
  cases rule : item.priority with
  | fixed priority => exact .pure rfl
  | dynamic expression =>
    rw [rule] at takes
    have values := expression.reflects_evaluate scope other takes (alike.anywhere _)
    refine values.bind_reaching fun value value' same reaches => ?_
    cases same with
    | same => exact .pure rfl
    | typed => exact .pure (Value.isTruthy_ofBare plain (asks expression rule reaches))

theorem reflects_isSensitive (item : ItemSchema) (root : RootSchema) {scope other : Scope}
    (alike : scope.AlikeOn text none other)
    (takes : item.sensitivity.Each (Expr.EachBound (Bound.TakesAlike text))) :
    Reflects (fun _ _ => True) (item.isSensitive root scope) (item.isSensitive root other) := by
  unfold ItemSchema.isSensitive
  cases rule : item.sensitivity with
  | fixed sensitivity => cases sensitivity <;> exact .pure trivial
  | dynamic expression =>
    rw [rule] at takes
    refine (expression.reflects_evaluate scope other takes (alike.anywhere _)).bind ?_
    exact fun _ _ _ => .pure trivial

theorem mirrors_absorb {rel : Bool → Bool → Prop} {attempt other : Attempt Bool} (default : Bool)
    (reflexive : rel default default) (reflects : Reflects rel attempt other) :
    Mirrors (Action.Together rel Eq) (absorb attempt default) (absorb other default) := by
  refine Mirrors.bind reflects fun result result' same => ?_
  cases same with
  | error error => exact .done ⟨reflexive, rfl⟩
  | ok related => exact .done ⟨related, rfl⟩

theorem mirrors_finishItem (plain : text.IsPlain) (root : RootSchema) (item : ItemSchema)
    (takes : item.Each (Expr.EachBound (Bound.TakesAlike text))) {progress other : Progress}
    (asks : progress.TakesAlike text item) (stands : progress.Stands key text other) :
    Mirrors ResolvedItem.Agrees (finishItem root progress item) (finishItem root other item) := by
  have alike := (stands.scope.alike plain stands.defined).forKey item.key
  have needed := reflects_isRequired plain item root alike asks.rule takes.priority
  refine (mirrors_absorb false rfl needed).bind ?_
  rintro ⟨required, ruleErrors⟩ ⟨_, _⟩ ⟨rfl, rfl⟩
  have shown := reflects_isSensitive item root alike takes.sensitivity
  refine (mirrors_absorb true ?_ shown).bind ?_
  · trivial
  rintro ⟨sensitive, moreErrors⟩ ⟨sensitive', _⟩ ⟨-, rfl⟩
  have found := stands.scope.values.get? item.key
  have asksValue := asks.value
  dsimp only [Scope.forKey]
  generalize progress.scope.values.get? item.key = here at found asksValue ⊢
  generalize other.scope.values.get? item.key = there at found ⊢
  have values : Value.Alike text (here.getD .undefined) (there.getD .undefined) := by
    cases found with
    | none => exact .same _
    | some alike => exact alike
  have takesValue : here.getD .undefined = .text text → item.TakesAlike text := by
    intro isText
    cases here with
    | none => cases isText
    | some value => exact asksValue (congrArg some isText)
  rw [stands.failures]
  cases other.failures.get? item.key with
  | some error => exact .done ⟨rfl, values.exported plain, rfl, rfl, rfl, rfl⟩
  | none =>
    obtain ⟨errors, exported⟩ := ItemSchema.check_alike plain takesValue values required
    refine .done ⟨rfl, exported, rfl, ?_, rfl, rfl⟩
    exact congrArg (ruleErrors ++ moreErrors ++ ·) errors

theorem reflects_finishAll (plain : text.IsPlain) (root : RootSchema) (entries : Keyed ItemSchema)
    (takes : ∀ entry ∈ entries, entry.2.Each (Expr.EachBound (Bound.TakesAlike text)))
    {progress other : Progress} (asks : ∀ entry ∈ entries, progress.TakesAlike text entry.2)
    (stands : progress.Stands key text other) :
    Reflects (Keyed.Alike ResolvedItem.Agrees) (finishAll root progress entries)
      (finishAll root other entries) := by
  have sameStop : progress.scope.options.failFast = other.scope.options.failFast := by
    rw [stands.scope.options]
    rfl
  induction entries with
  | nil => exact .pure .nil
  | cons entry rest ih =>
    obtain ⟨key', item⟩ := entry
    have more := ih (fun entry member => takes entry (List.mem_cons_of_mem _ member))
      (fun entry member => asks entry (List.mem_cons_of_mem _ member))
    refine .bind (.lift (mirrors_finishItem plain root item (takes _ List.mem_cons_self)
      (asks _ List.mem_cons_self) stands)) ?_
    intro resolved resolved' agrees
    have finished : Reflects (Keyed.Alike ResolvedItem.Agrees)
        (do return (key', resolved) :: (← finishAll root progress rest))
        (do return (key', resolved') :: (← finishAll root other rest)) :=
      more.bind fun _ _ related => .pure (.cons ⟨rfl, agrees⟩ related)
    rw [agrees.errors, sameStop]
    cases resolved'.errors with
    | nil => exact finished
    | cons error others =>
      refine .bind (.lift (.refl (fun _ => rfl) _)) fun _ _ _ => ?_
      by_cases stops : other.scope.options.failFast = true
      · simp only [stops, if_true]
        exact .throw _
      · simp only [stops]
        exact finished

/-! ## Schemas -/

theorem lastDefinitions_cons (first : ItemSchema) (rest : List ItemSchema)
    (only : ∀ item ∈ rest, item.key ≠ first.key) :
    lastDefinitions (first :: rest) = (first.key, first) :: lastDefinitions rest := by
  apply Keyed.setAll_cons_of_absent first.key first []
  intro entry member
  obtain ⟨item, inRest, rfl⟩ := List.mem_map.mp member
  exact only item inRest

theorem reflects_waves (plain : text.IsPlain) (root : RootSchema) (first : ItemSchema)
    (rest : List ItemSchema) (only : ∀ item ∈ rest, item.key ≠ first.key)
    (takes : ∀ item ∈ rest, item.value.EachBound (Bound.TakesAlike text))
    (options : Options) (absent : options.overrides.get? first.key = none) :
    Reflects (Progress.Stands first.key text)
      ((Progress.start ⟨root, first :: rest⟩ (options.withOverrides [(first.key, text)])).runWaves 0
        (wavesOf (first :: rest)))
      ((Progress.start ⟨root, first.withBare text :: rest⟩ options).runWaves 0
        (wavesOf (first.withBare text :: rest))) := by
  obtain ⟨front, waves, parts, apart, same⟩ := wavesOf_cons first rest
  have inFront : ∀ item ∈ front, item ∈ rest := by
    intro item member
    exact parts ▸ List.mem_append_left _ member
  have inWaves : ∀ item ∈ waves.flatten, item ∈ rest := by
    intro item member
    exact parts ▸ List.mem_append_right _ member
  have original : wavesOf (first :: rest) = (first :: front) :: waves := same first.value
  have written : wavesOf (first.withBare text :: rest) = (first.withBare text :: front) :: waves :=
    same (.literal (.ofBare text))
  rw [original, written]
  refine (Progress.reflects_firstWave first front ?_ apart 0
    (Progress.start_standsIn root _ _ options absent) rfl).bind ?_
  · exact fun item member => takes item (inFront item member)
  · intro progress progress' stands
    apply stands.runWaves plain waves ?_ ?_
    · exact fun item member => takes item (inWaves item member)
    · exact fun item member => (only item (inWaves item member)).symm

theorem reflects_ofSchema (plain : text.IsPlain) (root : RootSchema) (first : ItemSchema)
    (rest : List ItemSchema) (only : ∀ item ∈ rest, item.key ≠ first.key)
    (takes : ∀ item ∈ first :: rest, item.Each (Expr.EachBound (Bound.TakesAlike text)))
    (options : Options) (absent : options.overrides.get? first.key = none)
    (asks : ∀ progress, ((Progress.start ⟨root, first :: rest⟩
        (options.withOverrides [(first.key, text)])).runWaves 0
          (wavesOf (first :: rest))).run.Reaches (.ok progress) →
      ∀ entry ∈ lastDefinitions (first :: rest), progress.TakesAlike text entry.2) :
    Reflects Agrees (ofSchema ⟨root, first :: rest⟩ (options.withOverrides [(first.key, text)]))
      (ofSchema ⟨root, first.withBare text :: rest⟩ options) := by
  have waves := reflects_waves plain root first rest only
    (fun item member => (takes item (List.mem_cons_of_mem _ member)).value) options absent
  rw [ofSchema_eq_finish, ofSchema_eq_finish]
  refine waves.bind_reaching fun progress progress' stands reaches => ?_
  have finished : Reflects (Keyed.Alike ResolvedItem.Agrees)
      (finishAll root progress (lastDefinitions (first :: rest)))
      (finishAll root progress' (lastDefinitions (first.withBare text :: rest))) := by
    -- What remains to be done for an item does not look at its expression.
    have same : finishAll root progress' (lastDefinitions (first.withBare text :: rest)) =
        finishAll root progress' (lastDefinitions (first :: rest)) := by
      rw [lastDefinitions_cons first rest only,
        lastDefinitions_cons (first.withBare text) rest only]
      rfl
    rw [same]
    apply reflects_finishAll plain root _ ?_ (asks progress reaches) stands
    intro entry member
    exact takes entry.2 (mem_lastDefinitions _ entry member)
  refine finished.bind fun items items' agrees => ?_
  have envName := (stands.scope.alike plain stands.defined).currentEnv plain
  refine .bind (.lift (.note _ _ (.done rfl))) fun _ _ _ => ?_
  exact .pure ⟨environment_agrees agrees _ _, agrees, envName⟩

/-! ## Documents -/

/-- A plain text for the only definition of the first item's key gives the same as an override and
as the value of the definition. A text that reads as a number does so where no item which comes to
have the text tells it from the number; any other plain text does so outright. -/
theorem override_agrees (registry : Registry) (library : registry.Binds Bound.IsLibrary)
    (document : Document) (first : Item) (rest : List Item)
    (items : document.items = first :: rest) (given : first.HasValue)
    (only : ∀ item ∈ rest, item.key ≠ first.key) (text : Text) (plain : text.IsPlain)
    (schema : Schema) (compiled : Schema.ofDocument registry document = .ok schema)
    (options : Options) (absent : options.overrides.get? first.key = none)
    (asks : ∀ x, Scalar.ofBare text = .number x →
      ∀ progress, ((Progress.start schema
          (options.withOverrides [(first.key, text)])).runWaves 0
            (wavesOf schema.items)).run.Reaches (.ok progress) →
        ∀ entry ∈ lastDefinitions schema.items, progress.TakesAlike text entry.2)
    (world : σ) :
    SameEnd Agrees
      ((ofDocument registry (options.withOverrides [(first.key, text)]) document).run.perform
        world).result
      ((ofDocument registry options (document.withBare first.key text)).run.perform
        world).result := by
  have takesAlike : ∀ progress, ((Progress.start schema
      (options.withOverrides [(first.key, text)])).runWaves 0
        (wavesOf schema.items)).run.Reaches (.ok progress) →
      ∀ entry ∈ lastDefinitions schema.items, progress.TakesAlike text entry.2 := by
    intro progress reaches entry member
    by_cases isNumber : ∃ x, Scalar.ofBare text = .number x
    · obtain ⟨x, reads⟩ := isNumber
      exact asks x reads progress reaches entry member
    · exact progress.takesAlike_of_not_number plain (fun x reads => isNumber ⟨x, reads⟩) entry.2
  obtain ⟨item, others, itemsAre, isKey, onlyItem, written⟩ :=
    Schema.ofDocument_withBare plain registry document first rest items given only schema compiled
  have takes : ∀ item ∈ schema.items, item.Each (Expr.EachBound (Bound.TakesAlike text)) := by
    apply Schema.eachBound_of_ofDocument ?_ document schema compiled
    intro name resolver found function args bound success
    exact (library name resolver found function args bound success).takesAlike plain
  obtain ⟨root, schemaItems⟩ := schema
  dsimp only at itemsAre
  subst itemsAre
  rw [← isKey] at onlyItem absent takesAlike
  have reflects := reflects_ofSchema plain root item others onlyItem takes options absent takesAlike
  rw [isKey] at reflects
  unfold ofDocument
  rw [compiled, written]
  exact (reflects.perform world).1

def overriding (overrides : List (Text × Text)) (document : Document) :
    Except ResolveError Resolution :=
  ((ofDocument (.withBuiltins []) ((Options.ofEnvironment []).withOverrides overrides)
    document).run.perform (World.new [] [])).result

theorem reaches_of_overriding (overrides : List (Text × Text)) (document : Document)
    (result : Except ResolveError Resolution) (ran : overriding overrides document = result) :
    (ofDocument (.withBuiltins []) ((Options.ofEnvironment []).withOverrides overrides)
      document).run.Reaches result := by
  rw [← ran]
  exact Action.reaches_perform _ _

def under (name : String) (setting : Setting) (item : Item) : Item :=
  { item with above := [.decorated (.new [⟨[], name.toList, setting⟩])] }

/-- `A=1`, `B=ref(A)`, a command `C` and an item `D` without a value that `A` may ask for. -/
def referring : Document :=
  let toA : Term := .applyNamed "ref" [.literal (.bare ['A'])]
  let command : Term := .applyNamed "exec" [.literal (.bare "echo".toList)]
  { nodes :=
      [.item (.new ['A'] (some (.literal (.bare ['1'])))), .item (.new ['B'] (some toA)),
       .item (.new ['C'] (some command)), .item (under "required" (.assigned toA) (.new ['D'] none))]
    trailingNewline := true }

/-- A number that is read by a reference, by a rule and by a command, which writes what it sees of
the key. -/
theorem override_agrees_referring :
    let outside : Outside :=
      { outcome := fun command =>
          .ended (some 0) (.ofText ((command.environment.get? ['A']).getD [])) []
        reply := fun secret => .ok (.text secret.key) }
    let resolved (overrides : List (Text × Text)) (document : Document) :=
      ((ofDocument (.withBuiltins []) ((Options.ofEnvironment []).withOverrides overrides)
        document).run.perform outside).result
    (Registry.withBuiltins []).Binds Bound.IsLibrary ∧ Text.IsPlain ['5'] ∧
    ((resolved [(['A'], ['5'])] referring).toOption.map environment =
        some [(['A'], ['5']), (['B'], ['5']), (['C'], ['5'])] ∧
      (resolved [(['A'], ['5'])] referring).toOption.map errors = some [(['D'], .missing)]) ∧
    SameEnd Agrees (resolved [(['A'], ['5'])] referring)
      (resolved [] (referring.withBare ['A'] ['5'])) := by
  intro outside resolved
  have library : (Registry.withBuiltins []).Binds Bound.IsLibrary :=
    Registry.each_withBuiltins [] Resolver.builtins_isLibrary (by simp)
  have plain : Text.IsPlain ['5'] := ⟨by decide, by decide, by decide, by decide⟩
  have asks : ∀ schema, Schema.ofDocument (.withBuiltins []) referring = .ok schema →
      ∀ progress : Progress, ∀ entry ∈ lastDefinitions schema.items,
        progress.TakesAlike ['5'] entry.2 := by
    intro schema compiled progress entry member
    have items : schema.items = [_, _, _, _] :=
      (congrArg Schema.items (Except.ok.inj compiled)).symm.trans rfl
    have unbounded : ∀ item ∈ schema.items,
        item.type = none ∧ item.least = none ∧ item.most = none := by
      rw [items]
      decide
    obtain ⟨untyped, least, most⟩ :=
      unbounded entry.2 (mem_lastDefinitions schema.items entry member)
    refine ⟨fun _ => ItemSchema.takesAlike_of_unbounded ?_ least most, ?_⟩
    · rw [untyped]
      rintro ⟨⟩
    · rintro _ _ _ ⟨⟩
  refine ⟨library, plain, by decide +kernel, ?_⟩
  exact override_agrees _ library referring _ _ rfl ⟨_, rfl, by rintro _ ⟨⟩; decide⟩
    (by decide) ['5'] plain _ rfl (.ofEnvironment []) rfl
    (fun _ _ progress _ => asks _ rfl progress) outside

/-- An override stays a text, where the same text in the document may be a number: a number has
bounds for itself and a text for its length, a number has other JSON than its text, zero is no but
its text is yes, and a value that is no expression stands in the way of an override. -/
theorem override_differs :
    let item (key value : Text) : Item := .new key (some (.literal (.bare value)))
    let document (items : List Item) : Document := ⟨items.map Node.item, true⟩
    let bounded := document [under "min" (.assigned (.literal (.bare ['3']))) (item ['A'] ['x'])]
    let json := document [under "json" .flag (item ['A'] ['1'])]
    let ruled := document [item ['A'] ['1'],
      under "required" (.assigned (.applyNamed "ref" [.literal (.bare ['A'])])) (.new ['B'] none)]
    let unknown := document [.new ['A'] (some (.applyNamed "nosuch" []))]
    ((overriding [(['A'], ['5'])] bounded).toOption.map isValid = some false ∧
      (overriding [] (bounded.withBare ['A'] ['5'])).toOption.map isValid = some true) ∧
    ((overriding [(['A'], ['8'])] json).toOption.map environment = some [(['A'], ['8'])] ∧
      (overriding [] (json.withBare ['A'] ['8'])).toOption.map environment =
        some [(['A'], "8.0".toList)]) ∧
    ((overriding [(['A'], ['0'])] ruled).toOption.map isValid = some false ∧
      (overriding [] (ruled.withBare ['A'] ['0'])).toOption.map isValid = some true) ∧
    ((overriding [(['A'], ['x'])] unknown).isOk = false ∧
      (overriding [] (unknown.withBare ['A'] ['x'])).isOk = true) := by
  decide +kernel

end Resolution

end Dotenv
