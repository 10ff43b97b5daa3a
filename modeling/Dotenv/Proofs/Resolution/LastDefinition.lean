import Dotenv.Proofs.Resolution.Record
import Dotenv.Resolver.Sample
/-!
# The last definition decides

A key may be defined several times, and earlier definitions may succeed or fail as they like. What
a run that succeeds says of the key comes from its last definition: what that was evaluated to, and
what its rules ended in.
-/

set_option autoImplicit false

namespace Dotenv

namespace Evaluated

def IsLastOf (entry : Evaluated) (key : Text) (record : List Evaluated) : Prop :=
  ∃ front back, record = front ++ entry :: back ∧ entry.item.key = key ∧
    ∀ later ∈ back, later.item.key ≠ key

theorem IsLastOf.key_eq {entry : Evaluated} {key : Text} {record : List Evaluated}
    (last : entry.IsLastOf key record) : entry.item.key = key := by
  obtain ⟨_, _, _, isKey, _⟩ := last
  exact isKey

theorem IsLastOf.mem {entry : Evaluated} {key : Text} {record : List Evaluated}
    (last : entry.IsLastOf key record) : entry ∈ record := by
  obtain ⟨front, back, rfl, _, _⟩ := last
  exact List.mem_append_right front List.mem_cons_self

theorem IsLastOf.eq {entry other : Evaluated} {key : Text} {record : List Evaluated}
    (last : entry.IsLastOf key record) (otherLast : other.IsLastOf key record) : entry = other := by
  obtain ⟨front, back, rfl, isKey, absent⟩ := last
  obtain ⟨front', back', same, isKey', absent'⟩ := otherLast
  rcases List.append_eq_append_iff.mp same with ⟨inner, -, isRest⟩ | ⟨inner, -, isRest⟩
  · cases inner with
    | nil => exact (List.cons.inj isRest).1
    | cons first inner =>
      have isBack : back = inner ++ other :: back' := (List.cons.inj isRest).2
      have member : other ∈ back := isBack ▸ List.mem_append_right _ List.mem_cons_self
      exact absurd isKey' (absent other member)
  · cases inner with
    | nil => exact (List.cons.inj isRest).1.symm
    | cons first inner =>
      have isBack : back' = inner ++ entry :: back := (List.cons.inj isRest).2
      have member : entry ∈ back' := isBack ▸ List.mem_append_right _ List.mem_cons_self
      exact absurd isKey (absent' entry member)

/-- The value of a definition after its checks, and what is wrong with it. -/
def checked (entry : Evaluated) (isRequired : Bool) : Value × List ItemError :=
  match entry.result with
  | .ok value => entry.item.check value isRequired
  | .error error => (.undefined, [.resolution error])

def resolved (options : Options) (entry : Evaluated)
    (required sensitive : Except ResolutionError Bool) : ResolvedItem :=
  let isRequired := required.toOption.getD false
  { key := entry.item.key
    value := (entry.checked isRequired).1
    required := isRequired
    sensitive := sensitive.toOption.getD true
    overridden := options.overrides.contains entry.item.key
    description := entry.item.description
    aliases := entry.item.aliases
    errors := Resolution.listed required ++ Resolution.listed sensitive ++
      (entry.checked isRequired).2 }

/-- A final state is what a definition means in the scope after all waves. -/
def Decides (root : RootSchema) (final : Scope) (entry : Evaluated) (item : ResolvedItem) : Prop :=
  ∃ required sensitive,
    (entry.item.isRequired root (final.forKey entry.item.key)).run.Reaches required ∧
    (entry.item.isSensitive root (final.forKey entry.item.key)).run.Reaches sensitive ∧
    item = entry.resolved final.options required sensitive ∧
    ∀ error : ResolutionError, .resolution error ∈ item.errors ↔
      required = .error error ∨ sensitive = .error error ∨ entry.result = .error error

theorem mem_errors_resolved (options : Options) (entry : Evaluated)
    (required sensitive : Except ResolutionError Bool) (error : ResolutionError) :
    ItemError.resolution error ∈ (entry.resolved options required sensitive).errors ↔
      required = .error error ∨ sensitive = .error error ∨ entry.result = .error error := by
  simp only [resolved, List.mem_append, Resolution.mem_listed, or_assoc]
  refine or_congr_right (or_congr_right ?_)
  unfold checked
  cases entry.result with
  | ok value => simp [Resolution.not_mem_check]
  | error failure => simp [eq_comm]

end Evaluated

namespace Resolution

theorem exists_split_of_map {α β : Type} {image : α → β} {list : List α} {upper lower : List β}
    {middle : β} (mapped : list.map image = upper ++ middle :: lower) :
    ∃ front one back, list = front ++ one :: back ∧ front.map image = upper ∧
      image one = middle ∧ back.map image = lower := by
  obtain ⟨front, rest, rfl, isUpper, isRest⟩ := List.map_eq_append_iff.mp mapped
  obtain ⟨one, back, rfl, isMiddle, isLower⟩ := List.map_eq_cons_iff.mp isRest
  exact ⟨front, one, back, rfl, isUpper, isMiddle, isLower⟩

theorem mem_lastDefinitions_last (items : List ItemSchema) (key : Text) (item : ItemSchema)
    (member : (key, item) ∈ lastDefinitions items) :
    ∃ front back, items = front ++ item :: back ∧ item.key = key ∧
      ∀ later ∈ back, later.key ≠ key := by
  obtain ⟨front, back, isItems, last⟩ := Keyed.mem_ofList key item _ member
  obtain ⟨upper, _, lower, rfl, -, isEntry, rfl⟩ := exists_split_of_map isItems
  obtain ⟨rfl, rfl⟩ := Prod.mk.inj isEntry
  exact ⟨upper, lower, rfl, rfl, fun later inLower => last _ (List.mem_map_of_mem inLower)⟩

theorem exists_mem_of_forall₂ {α β : Type} {rel : α → β → Prop} {list : List α} {others : List β}
    (related : List.Forall₂ rel list others) (other : β) (member : other ∈ others) :
    ∃ one ∈ list, rel one other := by
  induction related with
  | nil => cases member
  | cons first _ ih =>
    rcases List.mem_cons.mp member with rfl | inRest
    · exact ⟨_, List.mem_cons_self, first⟩
    · obtain ⟨one, inList, isRelated⟩ := ih inRest
      exact ⟨one, List.mem_cons_of_mem _ inList, isRelated⟩

theorem keys_lastDefinitions (items : List ItemSchema) :
    (lastDefinitions items).keys = (items.map ItemSchema.key).eraseDups := by
  rw [lastDefinitions, Keyed.keys_ofList, List.map_map]
  rfl

theorem isLastOf_of_mem {schema : Schema} {record : List Evaluated}
    (items : record.map Evaluated.item = schema.items) (key : Text) (item : ItemSchema)
    (member : (key, item) ∈ lastDefinitions schema.items) :
    ∃ entry : Evaluated, entry.item = item ∧ entry.IsLastOf key record := by
  obtain ⟨front, back, isItems, isKey, last⟩ := mem_lastDefinitions_last schema.items key item member
  rw [isItems] at items
  obtain ⟨upper, entry, lower, rfl, -, isEntry, rfl⟩ := exists_split_of_map items
  exact ⟨entry, isEntry, upper, lower, rfl, isEntry ▸ isKey,
    fun later inLower => last _ (List.mem_map_of_mem inLower)⟩

/-- After all waves, what is made of a definition depends on what it was evaluated to alone, if it
is the last of its key. -/
theorem finished_eq_resolved (schema : Schema) (options : Options) (record : List Evaluated)
    (entry : Evaluated) (last : entry.IsLastOf entry.item.key record)
    (required sensitive : Except ResolutionError Bool) :
    finished ((Progress.start schema options).takeAll record) entry.item required sensitive =
      entry.resolved options required sensitive := by
  obtain ⟨front, back, rfl, -, others⟩ := last
  have value := (Progress.start schema options).values_takeAll front entry back others
  have failure := (Progress.start schema options).failures_takeAll .nil front entry back others
  simp only [finished, value, failure, Option.getD_some, Progress.options_takeAll]
  unfold Evaluated.resolved Evaluated.checked Evaluated.value Evaluated.error?
  cases entry.result <;> rfl

theorem reaches_recorded (schema : Schema) (options : Options) (record : List Evaluated)
    (resolution : Resolution)
    (runs : (recorded schema options).run.Reaches (.ok (record, resolution))) :
    Progress.Records (Progress.start schema options) (wavesOf schema.items) record ∧
      (finish schema ((Progress.start schema options).takeAll record)).run.Reaches
        (.ok resolution) := by
  obtain ⟨⟨taken, progress⟩, waves, runs⟩ := (Action.reaches_ok_bind _ _ _).mp runs
  obtain ⟨reached, ends, same⟩ := (Action.reaches_ok_bind _ _ _).mp runs
  cases same
  obtain ⟨records, rfl⟩ := Progress.reaches_recordWaves _ _ _ _ _ waves
  exact ⟨records, ends⟩

theorem items_of_records {schema : Schema} {options : Options} {record : List Evaluated}
    (records : Progress.Records (Progress.start schema options) (wavesOf schema.items) record) :
    record.map Evaluated.item = schema.items :=
  records.items.trans (flatten_wavesOf schema.items)

theorem reaches_finish (schema : Schema) (progress : Progress) (resolution : Resolution)
    (ends : (finish schema progress).run.Reaches (.ok resolution)) :
    List.Forall₂ (fun entry resolved => resolved.1 = entry.1 ∧
        (finishItem schema.root progress entry.2).Reaches resolved.2)
      (lastDefinitions schema.items) resolution.items := by
  obtain ⟨items, finishes, ends⟩ := (Action.reaches_ok_bind _ _ _).mp ends
  obtain ⟨_, _, ends⟩ := (Action.reaches_ok_bind _ _ _).mp ends
  cases ends
  exact reaches_finishAll schema.root progress _ items finishes

theorem keys_of_reaches_finish (schema : Schema) (progress : Progress) (resolution : Resolution)
    (ends : (finish schema progress).run.Reaches (.ok resolution)) :
    resolution.items.keys = (schema.items.map ItemSchema.key).eraseDups := by
  have finishes := reaches_finish schema progress resolution ends
  have sameKeys : resolution.items.keys = (lastDefinitions schema.items).keys := by
    refine List.forall₂_eq_eq_eq ▸ ?_
    rw [Keyed.keys, Keyed.keys, List.forall₂_map_left_iff, List.forall₂_map_right_iff]
    exact finishes.flip.imp fun _ _ same => same.1
  rw [sameKeys, keys_lastDefinitions]

theorem decides_of_mem (schema : Schema) (options : Options) (record : List Evaluated)
    (resolution : Resolution) (items : record.map Evaluated.item = schema.items)
    (ends : (finish schema ((Progress.start schema options).takeAll record)).run.Reaches
      (.ok resolution)) (key : Text) (resolved : ResolvedItem)
    (member : (key, resolved) ∈ resolution.items) :
    ∃ entry : Evaluated, entry.IsLastOf key record ∧
      entry.Decides schema.root ((Progress.start schema options).takeAll record).scope
        resolved := by
  have finishes := reaches_finish schema _ resolution ends
  obtain ⟨⟨_, item⟩, inLast, isKey, itemEnds⟩ := exists_mem_of_forall₂ finishes _ member
  cases isKey
  obtain ⟨entry, rfl, last⟩ := isLastOf_of_mem items _ item inLast
  have lastOfOwn : entry.IsLastOf entry.item.key record := last.key_eq.symm ▸ last
  obtain ⟨required, sensitive, requires, hides, rfl⟩ := reaches_finishItem _ _ _ _ itemEnds
  refine ⟨entry, last, required, sensitive, requires, hides, ?_, fun error => ?_⟩
  · rw [finished_eq_resolved schema options record entry lastOfOwn, Progress.options_takeAll]
    rfl
  · rw [finished_eq_resolved schema options record entry lastOfOwn]
    exact Evaluated.mem_errors_resolved options entry required sensitive error

/-- A recorded run is the run of the schema. When it succeeds, its record has what each definition
was evaluated to, and the resolution has each key once, in the order of the first definitions, with
what the last definition means. -/
theorem last_definition_decides (schema : Schema) (options : Options) (record : List Evaluated)
    (resolution : Resolution)
    (runs : (recorded schema options).run.Reaches (.ok (record, resolution))) :
    ofSchema schema options = Prod.snd <$> recorded schema options ∧
    record.map Evaluated.item = schema.items ∧
    (∀ entry ∈ record, (Progress.evaluateItem entry.scope entry.item).Reaches entry.result) ∧
    resolution.items.keys = (schema.items.map ItemSchema.key).eraseDups ∧
    ∀ key resolved, (key, resolved) ∈ resolution.items →
      ∃ entry : Evaluated, entry.IsLastOf key record ∧
        entry.Decides schema.root ((Progress.start schema options).takeAll record).scope
          resolved := by
  obtain ⟨records, ends⟩ := reaches_recorded schema options record resolution runs
  have items := items_of_records records
  exact ⟨ofSchema_eq_recorded schema options, items, records.reaches,
    keys_of_reaches_finish schema _ resolution ends,
    decides_of_mem schema options record resolution items ends⟩

def failingTwice : Document :=
  let invalid : Option Term := some (.applyNamed "invalid" [.literal (.bare ['x'])])
  let one : Option Term := some (.literal (.bare ['1']))
  { nodes :=
      [.item (.new ['A'] invalid), .item (.new ['B'] one), .item (.new ['A'] one),
        .item (.new ['B'] invalid)]
    trailingNewline := true }

/-- A failure that a later definition makes good, and one that comes last. -/
theorem last_definition_decides_failures :
    ∃ schema record resolution,
      Schema.ofDocument (.withBuiltins [.invalid]) failingTwice = .ok schema ∧
      (recorded schema (.ofEnvironment [])).run.Reaches (.ok (record, resolution)) ∧
      resolution.items.keys = [['A'], ['B']] ∧
      resolution.errors = [(['B'], .resolution (.invalidValue ['x']))] ∧
      ∀ key resolved, (key, resolved) ∈ resolution.items →
        ∃ entry : Evaluated, entry.IsLastOf key record ∧
          entry.Decides schema.root
            ((Progress.start schema (.ofEnvironment [])).takeAll record).scope resolved := by
  have compiled : ∃ schema, Schema.ofDocument (.withBuiltins [.invalid]) failingTwice =
      .ok schema ∧ schema.items.map ItemSchema.key = [['A'], ['B'], ['A'], ['B']] ∧
      ((recorded schema (.ofEnvironment [])).run.perform (World.new [] [])).result.toOption.map
        (fun pair => pair.2.errors) = some [(['B'], .resolution (.invalidValue ['x']))] :=
    ⟨_, rfl, rfl, by decide +kernel⟩
  obtain ⟨schema, isSchema, keys, lists⟩ := compiled
  obtain ⟨⟨record, resolution⟩, ends, errors⟩ := Action.exists_reaches_of_perform lists
  obtain ⟨_, _, _, inOrder, decided⟩ :=
    last_definition_decides schema (.ofEnvironment []) record resolution ends
  rw [keys] at inOrder
  exact ⟨schema, record, resolution, isSchema, ends, inOrder, errors, decided⟩

end Resolution

end Dotenv
