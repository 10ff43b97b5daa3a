import Dotenv.Proofs.Resolution.LastDefinition
import Dotenv.Proofs.Value.Conversion
/-!
# What is valid

A key is valid when its last definition and the rules of that definition were evaluated, and its
value is one that the definition takes: an empty value where none is required, or a value of the
type that is asked for which meets every constraint. Nothing else is listed as an error.
-/

set_option autoImplicit false

namespace Dotenv

/-! ## Checks -/

namespace ItemSchema

/-- A number that is neither below the least nor above the most that an item allows. -/
structure Spans (item : ItemSchema) (number : Double) : Prop where
  least : ∀ least, item.least = some least → number.lt least = false
  most : ∀ most, item.most = some most → most.lt number = false

/-- A value that is not empty is one that the item takes, and is reported as what it is converted
to. Bounds are for a number itself, for the length of a list, and for the number of characters of
anything else. -/
structure Takes (item : ItemSchema) (value reported : Value) : Prop where
  untyped : item.type = none → reported = value
  typed : ∀ type, item.type = some type →
    value.convert? type = some reported ∧ reported.HasType type
  pattern : ∀ pattern, item.pattern = some pattern → pattern.isFoundIn reported.display = true
  allowed : ∀ allowed, item.allowed = some allowed → reported.display ∈ allowed
  number : ∀ number, reported = .number number → item.Spans number
  list : ∀ entries, reported = .list entries → item.Spans (.ofNat entries.length)
  other : (∀ number, reported ≠ .number number) → (∀ entries, reported ≠ .list entries) →
    item.Spans (.ofNat reported.display.length)

theorem isInRange_iff (item : ItemSchema) (number : Double) :
    item.isInRange number = true ↔ item.Spans number := by
  have unfolded : item.isInRange number = true ↔
      (∀ least, item.least = some least → number.lt least = false) ∧
        ∀ most, item.most = some most → most.lt number = false := by
    unfold isInRange
    cases item.least <;> cases item.most <;> simp
  rw [unfolded]
  constructor
  · rintro ⟨least, most⟩
    exact ⟨least, most⟩
  · rintro ⟨least, most⟩
    exact ⟨least, most⟩

theorem spans_measure_iff (item : ItemSchema) (value : Value) :
    item.Spans (measure value) ↔
      (∀ number, value = .number number → item.Spans number) ∧
      (∀ entries, value = .list entries → item.Spans (.ofNat entries.length)) ∧
      ((∀ number, value ≠ .number number) → (∀ entries, value ≠ .list entries) →
        item.Spans (.ofNat value.display.length)) := by
  cases value <;> simp [measure]

theorem constraintErrors_eq_nil_iff (item : ItemSchema) (value : Value) :
    item.constraintErrors value = [] ↔
      (∀ pattern, item.pattern = some pattern → pattern.isFoundIn value.display = true) ∧
      (∀ allowed, item.allowed = some allowed → value.display ∈ allowed) ∧
      item.isInRange (measure value) = true := by
  simp only [constraintErrors, List.append_eq_nil_iff, and_assoc]
  refine and_congr ?_ (and_congr ?_ ?_)
  · cases item.pattern with
    | none => simp
    | some pattern => simp
  · cases item.allowed with
    | none => simp
    | some allowed => simp
  · simp

theorem takes_iff (item : ItemSchema) (value reported : Value) (given : value.isEmpty = false) :
    item.Takes value reported ↔
      item.typed? value = some reported ∧ item.constraintErrors reported = [] := by
  rw [constraintErrors_eq_nil_iff, isInRange_iff, spans_measure_iff]
  unfold typed?
  constructor
  · intro takes
    refine ⟨?_, takes.pattern, takes.allowed, takes.number, takes.list, takes.other⟩
    cases type : item.type with
    | none => rw [takes.untyped type]
    | some asked => exact (takes.typed asked type).1
  · intro fine
    obtain ⟨converted, pattern, allowed, number, list, other⟩ := fine
    refine ⟨?_, ?_, pattern, allowed, number, list, other⟩
    · intro type
      rw [type] at converted
      exact (Option.some.inj converted).symm
    · intro asked type
      rw [type] at converted
      have defined : value ≠ .undefined := by
        rintro rfl
        cases given
      exact ⟨converted, value.hasType_of_convert? asked reported defined converted⟩

/-- A check finds nothing wrong in an empty value that need not be there, and in a value that the
item takes. -/
theorem check_eq_nil_iff (item : ItemSchema) (value : Value) (isRequired : Bool) :
    (item.check value isRequired).2 = [] ↔
      value.isEmpty = true ∧ isRequired = false ∨
      value.isEmpty = false ∧ item.Takes value (item.check value isRequired).1 := by
  unfold check
  cases empty : value.isEmpty with
  | true => cases isRequired <;> simp
  | false =>
    simp only [Bool.false_eq_true, if_false, false_and, false_or, true_and]
    rw [item.takes_iff value _ empty]
    cases item.typed? value with
    | none => simp
    | some typed => simp

end ItemSchema

/-! ## Definitions -/

namespace Evaluated

/-- A definition with nothing wrong about it, given what its rules ended in and what is reported:
all was evaluated, and its value is one that its item takes. -/
def InOrder (entry : Evaluated) (required sensitive : Except ResolutionError Bool)
    (reported : Value) : Prop :=
  ∃ value needed hidden, entry.result = .ok value ∧ required = .ok needed ∧
    sensitive = .ok hidden ∧
      (value.isEmpty = true ∧ needed = false ∨
        value.isEmpty = false ∧ entry.item.Takes value reported)

theorem listed_eq_nil_iff (result : Except ResolutionError Bool) :
    Resolution.listed result = [] ↔ ∃ answer, result = .ok answer := by
  cases result with
  | ok answer => simp [Resolution.listed]
  | error error => simp [Resolution.listed]

theorem resolved_inOrder_iff (options : Options) (entry : Evaluated)
    (required sensitive : Except ResolutionError Bool) :
    (entry.resolved options required sensitive).errors = [] ↔
      entry.InOrder required sensitive (entry.resolved options required sensitive).value := by
  simp only [resolved, List.append_eq_nil_iff, listed_eq_nil_iff, and_assoc]
  unfold InOrder checked
  constructor
  · intro fine
    obtain ⟨⟨needed, rfl⟩, ⟨hidden, rfl⟩, found⟩ := fine
    cases result : entry.result with
    | error error =>
      rw [result] at found
      cases found
    | ok value =>
      rw [result] at found
      exact ⟨value, needed, hidden, rfl, rfl, rfl, (entry.item.check_eq_nil_iff value needed).mp found⟩
  · intro inOrder
    obtain ⟨value, needed, hidden, result, rfl, rfl, takes⟩ := inOrder
    rw [result] at takes ⊢
    exact ⟨⟨needed, rfl⟩, ⟨hidden, rfl⟩, (entry.item.check_eq_nil_iff value needed).mpr takes⟩

end Evaluated

/-! ## Runs -/

namespace Resolution

/-- In a run that succeeds a key has no errors exactly where its last definition and its rules were
evaluated and the value is one that the definition takes. -/
theorem valid_iff_inOrder (schema : Schema) (options : Options) (record : List Evaluated)
    (resolution : Resolution)
    (runs : (recorded schema options).run.Reaches (.ok (record, resolution))) :
    ofSchema schema options = Prod.snd <$> recorded schema options ∧
    (resolution.isValid = true ↔ ∀ entry ∈ resolution.items, entry.2.errors = []) ∧
    ∀ key item, (key, item) ∈ resolution.items →
      ∃ (entry : Evaluated) (required sensitive : Except ResolutionError Bool),
      entry.IsLastOf key record ∧
      (Progress.evaluateItem entry.scope entry.item).Reaches entry.result ∧
      (entry.item.isRequired schema.root (((Progress.start schema options).takeAll
        record).scope.forKey key)).run.Reaches required ∧
      (entry.item.isSensitive schema.root (((Progress.start schema options).takeAll
        record).scope.forKey key)).run.Reaches sensitive ∧
      item = entry.resolved options required sensitive ∧
      (item.errors = [] ↔ entry.InOrder required sensitive item.value) := by
  obtain ⟨records, ends⟩ := reaches_recorded schema options record resolution runs
  refine ⟨ofSchema_eq_recorded schema options, resolution.isValid_iff, ?_⟩
  intro key item member
  obtain ⟨entry, last, required, sensitive, requires, hides, isResolved, _⟩ :=
    decides_of_mem schema options record resolution (items_of_records records) ends key item member
  rw [last.key_eq] at requires hides
  rw [Progress.options_takeAll] at isResolved
  have reaches := records.reaches entry last.mem
  refine ⟨entry, required, sensitive, last, reaches, requires, hides, isResolved, ?_⟩
  rw [isResolved]
  exact entry.resolved_inOrder_iff options required sensitive

/-- Numbers from 2 and from 5 up, texts of at most three characters, lists of at least and of at most
three entries, a text that a pattern is not found in, and two keys without a value, of which the
first is optional. -/
def bounded : Document :=
  let item (key : Char) (settings : List (String × Setting)) (value : Option String) : Node :=
    .item { Item.new [key] (value.map fun text => .literal (.bare text.toList)) with
      above := [.decorated (.new (settings.map fun set => ⟨[], set.1.toList, set.2⟩))] }
  let set (name text : String) : String × Setting :=
    (name, .assigned (.literal (.bare text.toList)))
  { nodes :=
      [item 'A' [("number", .flag), set "min" "2"] (some "3"),
        item 'B' [("number", .flag), set "min" "5"] (some "3"),
        item 'E' [set "max" "3"] (some "abc"), item 'F' [set "max" "3"] (some "abcd"),
        item 'G' [("array", .flag), set "max" "3"] (some "a,b,c"),
        item 'H' [("array", .flag), set "min" "3"] (some "a,b"),
        item 'P' [set "pattern" "^b"] (some "ab"),
        item 'C' [("optional", .flag)] none, item 'D' [] none]
    trailingNewline := true }

/-- Values in their range and out of it, and a missing value where none is required and where one
is. The five characters of `a,b,c` are three entries. -/
theorem valid_iff_inOrder_bounded :
    let errors : List (Text × ItemError) :=
      [(['B'], .outOfRange "expected at least 5".toList),
        (['F'], .outOfRange "expected at most 3".toList),
        (['H'], .outOfRange "expected at least 3".toList), (['P'], .pattern "^b".toList),
        (['D'], .missing)]
    ∃ schema record resolution,
      Schema.ofDocument (.withBuiltins []) bounded = .ok schema ∧
      (recorded schema (.ofEnvironment [])).run.Reaches (.ok (record, resolution)) ∧
      resolution.errors = errors ∧
      ∀ key item, (key, item) ∈ resolution.items →
        ∃ (entry : Evaluated) (required sensitive : Except ResolutionError Bool),
          entry.IsLastOf key record ∧
          (item.errors = [] ↔ entry.InOrder required sensitive item.value) := by
  intro errors
  have compiled : ∃ schema, Schema.ofDocument (.withBuiltins []) bounded = .ok schema ∧
      ((recorded schema (.ofEnvironment [])).run.perform (World.new [] [])).result.toOption.map
        (fun pair => pair.2.errors) = some errors :=
    ⟨_, rfl, by decide +kernel⟩
  obtain ⟨schema, isSchema, lists⟩ := compiled
  obtain ⟨⟨record, resolution⟩, ends, lists⟩ := Action.exists_reaches_of_perform lists
  obtain ⟨_, _, decided⟩ := valid_iff_inOrder schema (.ofEnvironment []) record resolution ends
  refine ⟨schema, record, resolution, isSchema, ends, lists, ?_⟩
  intro key item member
  obtain ⟨entry, required, sensitive, last, _, _, _, _, valid⟩ := decided key item member
  exact ⟨entry, required, sensitive, last, valid⟩

end Resolution

end Dotenv
