import Dotenv.Proofs.Resolution.LastDefinition
import Dotenv.Proofs.Resolution.Override
import Dotenv.Proofs.Template.Reference
/-!
# What references read and what is exported

A value is converted to the type of its item at the very end, when every reference has been
followed. What later definitions and commands read of a key is what its definition was evaluated
to, and what is exported is that value converted.
-/

set_option autoImplicit false

namespace Dotenv

def Command.Sees (key text : Text) (command : Command) : Prop :=
  command.environment.get? key = some text

/-! ## Scopes with a value -/

theorem Value.exported_of_given {value : Value} (given : value.isEmpty = false) :
    value.exported = some value.display := by
  cases value with
  | undefined => cases given
  | _ => rfl

namespace Scope

variable {scope : Scope} {key : Text} {value : Value}

theorem get?_environment (free : scope.options.overrides.get? key = none)
    (found : scope.values.get? key = some value) (given : value.isEmpty = false) :
    scope.environment.get? key = some value.display := by
  unfold environment
  rw [Keyed.get?_setAll_of_absent key _ _ free]
  exact Keyed.get?_filterMap_of_found Value.exported key scope.values value _ found
    (Value.exported_of_given given)

theorem lookUp_of_found (named : key ≠ []) (free : scope.options.overrides.get? key = none)
    (found : scope.values.get? key = some value) (given : value.isEmpty = false) :
    Resolver.lookUp scope key = pure value := by
  simp only [Resolver.lookUp, if_neg named, lookup, free, found]
  cases value with
  | undefined => cases given
  | _ => rfl

end Scope

/-! ## Items -/

/-- The only definition of a key, and below it the last definition of another, whose value refers to
the key and which has no decorators. -/
structure Document.Refers (document : Document) (definition user : Item) : Prop where
  placed : ∃ front middle back, document.items = front ++ definition :: (middle ++ user :: back) ∧
    (∀ other ∈ front ++ (middle ++ user :: back), other.key ≠ definition.key) ∧
    ∀ later ∈ back, later.key ≠ user.key
  value : ∃ literal bare, literal.RefersTo definition.key ∧
    user.value = some ((Term.literal literal).expand bare)
  undecorated : user.decorators = []

namespace ItemSchema

theorem value_of_valueOf (registry : Registry) (item : Item) (expr : Expr)
    (bound : valueOf registry item = .ok expr) (schema : ItemSchema)
    (compiled : ofItem registry item = .ok schema) : schema.value = expr := by
  simp only [ofItem, bound] at compiled
  split at compiled
  · cases compiled
    rfl
  · cases compiled

theorem value_of_refersTo (registry : Registry) (isRef : registry.get? "ref".toList = some .ref)
    (item : Item) (literal : Literal) (bare : Bool) (key : Text) (refers : literal.RefersTo key)
    (isValue : item.value = some ((Term.literal literal).expand bare)) (schema : ItemSchema)
    (compiled : ofItem registry item = .ok schema) : schema.value = .reference key := by
  apply value_of_valueOf registry item _ _ schema compiled
  rw [valueOf, isValue]
  exact Expr.ofTerm_refersTo registry isRef bare literal key refers

theorem type_of_undecorated (registry : Registry) (item : Item) (plain : item.decorators = [])
    (schema : ItemSchema) (compiled : ofItem registry item = .ok schema) : schema.type = none := by
  have none : item.decoratorsByName = [] := by
    rw [Item.decoratorsByName, plain]
    rfl
  simp only [ofItem, none] at compiled
  split at compiled
  · cases compiled
    rfl
  · cases compiled

theorem typed?_of_check (item : ItemSchema) (value : Value) (isRequired : Bool)
    (passes : (item.check value isRequired).2 = [])
    (given : (item.check value isRequired).1.isEmpty = false) :
    value.isEmpty = false ∧ item.typed? value = some (item.check value isRequired).1 := by
  unfold check at passes given ⊢
  split at given
  · rename_i empty
    rw [empty] at given
    cases given
  · rename_i full
    refine ⟨by simpa using full, ?_⟩
    simp only [full] at passes ⊢
    cases converted : item.typed? value with
    | some typed => rfl
    | none => simp [converted] at passes

theorem check_of_untyped (item : ItemSchema) (untyped : item.type = none) (value : Value)
    (isRequired : Bool) : (item.check value isRequired).1 = value := by
  unfold check typed?
  rw [untyped]
  split <;> rfl

end ItemSchema

namespace Evaluated

theorem typed?_of_decides (root : RootSchema) (final : Scope) (entry : Evaluated)
    (resolved : ResolvedItem) (decides : entry.Decides root final resolved)
    (valid : resolved.isValid = true) (given : resolved.value.isEmpty = false) :
    ∃ value, entry.result = .ok value ∧ value.isEmpty = false ∧
      entry.item.typed? value = some resolved.value := by
  obtain ⟨required, sensitive, -, -, rfl, -⟩ := decides
  have fine : (entry.checked (required.toOption.getD false)).2 = [] :=
    (List.append_eq_nil_iff.mp (List.isEmpty_iff.mp valid)).2
  change (entry.checked (required.toOption.getD false)).1.isEmpty = false at given
  change ∃ value, entry.result = .ok value ∧ value.isEmpty = false ∧
    entry.item.typed? value = some (entry.checked (required.toOption.getD false)).1
  unfold checked at fine given ⊢
  cases result : entry.result with
  | error error =>
    rw [result] at fine
    cases fine
  | ok value =>
    rw [result] at fine given
    exact ⟨value, rfl, entry.item.typed?_of_check value _ fine given⟩

theorem value_of_untyped (root : RootSchema) (final : Scope) (entry : Evaluated)
    (resolved : ResolvedItem) (decides : entry.Decides root final resolved) (value : Value)
    (result : entry.result = .ok value) (untyped : entry.item.type = none) :
    resolved.value = value := by
  obtain ⟨required, sensitive, -, -, rfl, -⟩ := decides
  change (entry.checked (required.toOption.getD false)).1 = value
  unfold checked
  rw [result]
  exact entry.item.check_of_untyped untyped value _

end Evaluated

/-! ## Later definitions -/

/-- A place in the record of a run: a key that is not overridden was evaluated there to a value that
is not empty, and is not defined again. -/
structure Evaluated.Settles (schema : Schema) (options : Options) (front : List Evaluated)
    (entry : Evaluated) (back : List Evaluated) (value : Value) : Prop where
  records : Progress.Records (Progress.start schema options) (Resolution.wavesOf schema.items)
    (front ++ entry :: back)
  last : ∀ later ∈ back, later.item.key ≠ entry.item.key
  free : options.overrides.get? entry.item.key = none
  result : entry.result = .ok value
  given : value.isEmpty = false

namespace Evaluated.Settles

variable {schema : Schema} {options : Options} {front back : List Evaluated}
  {entry later : Evaluated} {value : Value}

theorem value_eq (settles : Settles schema options front entry back value) :
    entry.value = value := by
  rw [Evaluated.value, settles.result]

theorem options_later (settles : Settles schema options front entry back value)
    (member : later ∈ back) : later.scope.options = options :=
  settles.records.options later (List.mem_append_right _ (List.mem_cons_of_mem _ member))

theorem free_later (settles : Settles schema options front entry back value)
    (member : later ∈ back) : later.scope.options.overrides.get? entry.item.key = none := by
  rw [settles.options_later member]
  exact settles.free

theorem read (settles : Settles schema options front entry back value) (member : later ∈ back)
    (reads : ∀ keys, later.item.value.dependencies = some keys → entry.item.key ∈ keys) :
    later.scope.values.get? entry.item.key = some value := by
  obtain ⟨before, after, rfl⟩ := List.append_of_mem member
  rw [← settles.value_eq]
  apply settles.records.read _ front entry before later after rfl
  · exact fun other inBefore => settles.last other (List.mem_append_left _ inBefore)
  · rintro ⟨-, keys, known, unread⟩
    exact unread (reads keys known)
  · exact Resolution.independent_of_mem_wavesOf schema.items

theorem result_of_reference (settles : Settles schema options front entry back value)
    (named : entry.item.key ≠ []) (member : later ∈ back)
    (isReference : later.item.value = .reference entry.item.key)
    (ownFree : options.overrides.get? later.item.key = none) : later.result = .ok value := by
  have found : later.scope.values.get? entry.item.key = some value := by
    apply settles.read member
    intro keys known
    rw [isReference, Expr.dependencies_reference] at known
    cases known
    exact List.mem_cons_self
  have looksUp : later.item.value.evaluate (later.scope.forKey later.item.key) = pure value := by
    rw [isReference, Expr.evaluate_reference]
    exact Scope.lookUp_of_found named (settles.free_later member) found settles.given
  have reaches := settles.records.reaches later
    (List.mem_append_right _ (List.mem_cons_of_mem _ member))
  rw [← settles.options_later member] at ownFree
  unfold Progress.evaluateItem at reaches
  rw [ownFree, looksUp] at reaches
  change Except.ok value = later.result at reaches
  exact reaches.symm

theorem eachCommand_evaluateItem (settles : Settles schema options front entry back value)
    (member : later ∈ back) (shows : later.item.value.EachBound Bound.ShowsScope) :
    (Progress.evaluateItem later.scope later.item).EachCommand
      (Command.Sees entry.item.key value.display) := by
  apply Progress.eachCommand_evaluateItem later.scope later.item shows
  intro unknown command sees
  -- An item that runs commands may read any key.
  have found : later.scope.values.get? entry.item.key = some value := by
    apply settles.read member
    intro keys known
    rw [unknown] at known
    cases known
  unfold Command.Sees
  rw [sees]
  exact Scope.get?_environment (settles.free_later member) found settles.given

theorem eachCommand_finishItem (settles : Settles schema options front entry back value)
    (item : ItemSchema) (shows : item.Each (Expr.EachBound Bound.ShowsScope)) :
    (Resolution.finishItem schema.root
      ((Progress.start schema options).takeAll (front ++ entry :: back)) item).EachCommand
        (Command.Sees entry.item.key value.display) := by
  apply Resolution.eachCommand_finishItem schema.root _ item shows
  intro command sees
  unfold Command.Sees
  rw [sees]
  apply Scope.get?_environment _ _ settles.given
  · rw [Progress.options_takeAll]
    exact settles.free
  · rw [← settles.value_eq]
    exact Progress.values_takeAll _ front entry back settles.last

end Evaluated.Settles

/-! ## Runs -/

namespace Resolution

theorem get?_environment (resolution : Resolution)
    (own : ∀ entry ∈ resolution.items, entry.2.key = entry.1)
    (distinct : resolution.items.keys.Nodup) (key : Text) (resolved : ResolvedItem)
    (member : (key, resolved) ∈ resolution.items) (given : resolved.value.isEmpty = false) :
    resolution.environment.get? key = some resolved.value.display := by
  have byKey : resolution.environment = resolution.items.filterMap fun entry =>
      entry.2.value.exported.map fun text => (entry.1, text) := by
    unfold environment list
    rw [List.filterMap_map]
    apply List.filterMap_congr
    intro entry inItems
    rw [Function.comp_apply, own entry inItems]
  have found := Keyed.get?_of_mem key resolved _ distinct member
  rw [byKey]
  exact Keyed.get?_filterMap_of_found (fun item => item.value.exported) key _ resolved _ found
    (Value.exported_of_given given)

theorem exists_record (registry : Registry) (options : Options) (document : Document)
    (resolution : Resolution)
    (ends : (ofDocument registry options document).run.Reaches (.ok resolution)) :
    ∃ schema record, Schema.ofDocument registry document = .ok schema ∧
      (recorded schema options).run.Reaches (.ok (record, resolution)) := by
  obtain ⟨schema, compiled, ends⟩ := reaches_ofDocument registry options document resolution ends
  rw [ofSchema_eq_recorded, map_eq_pure_bind] at ends
  obtain ⟨⟨record, last⟩, runs, same⟩ := (Action.reaches_ok_bind _ _ _).mp ends
  cases same
  exact ⟨schema, record, compiled, runs⟩

section

variable {schema : Schema} {options : Options} {record : List Evaluated} {resolution : Resolution}

theorem exists_decided (items : record.map Evaluated.item = schema.items)
    (ends : (finish schema ((Progress.start schema options).takeAll record)).run.Reaches
      (.ok resolution)) (entry : Evaluated) (key : Text) (last : entry.IsLastOf key record) :
    ∃ resolved, (key, resolved) ∈ resolution.items ∧
      entry.Decides schema.root ((Progress.start schema options).takeAll record).scope resolved := by
  have inKeys : key ∈ resolution.items.keys := by
    rw [keys_of_reaches_finish schema _ resolution ends, List.mem_eraseDups, ← items]
    obtain ⟨front, back, rfl, rfl, -⟩ := last
    simp
  obtain ⟨⟨_, resolved⟩, member, rfl⟩ := List.mem_map.mp inKeys
  obtain ⟨other, lastOther, decides⟩ :=
    decides_of_mem schema options record resolution items ends _ resolved member
  rw [lastOther.eq last] at decides
  exact ⟨resolved, member, decides⟩

theorem get?_environment_of_reaches (items : record.map Evaluated.item = schema.items)
    (ends : (finish schema ((Progress.start schema options).takeAll record)).run.Reaches
      (.ok resolution)) (key : Text) (resolved : ResolvedItem)
    (member : (key, resolved) ∈ resolution.items) (given : resolved.value.isEmpty = false) :
    resolution.environment.get? key = some resolved.value.display := by
  apply get?_environment resolution _ _ key resolved member given
  · rintro ⟨other, state⟩ inItems
    obtain ⟨entry, last, _, _, _, _, rfl, _⟩ :=
      decides_of_mem schema options record resolution items ends other state inItems
    exact last.key_eq
  · rw [keys_of_reaches_finish schema _ resolution ends, ← keys_lastDefinitions]
    exact Keyed.nodup_keys_ofList _

end

theorem placed_in_record (registry : Registry) (document : Document) (definition user : Item)
    (refers : document.Refers definition user) (schema : Schema)
    (compiled : Schema.ofDocument registry document = .ok schema) (record : List Evaluated)
    (items : record.map Evaluated.item = schema.items) :
    ∃ front entry middle reader back, record = front ++ entry :: (middle ++ reader :: back) ∧
      ItemSchema.ofItem registry definition = .ok entry.item ∧
      ItemSchema.ofItem registry user = .ok reader.item ∧
      (∀ other ∈ front ++ (middle ++ reader :: back), other.item.key ≠ definition.key) ∧
      ∀ later ∈ back, later.item.key ≠ user.key := by
  obtain ⟨front, middle, back, isItems, only, last⟩ := refers.placed
  have all := Schema.items_of_ofDocument registry document schema compiled
  rw [isItems] at all
  obtain ⟨upper, own, rest, isUpper, ofFront, ofDefinition, ofRest⟩ :=
    Schema.ofItems_split registry _ definition _ _ all
  obtain ⟨between, next, lower, rfl, ofMiddle, ofUser, ofBack⟩ :=
    Schema.ofItems_split registry _ user _ _ ofRest
  rw [isUpper] at items
  obtain ⟨before, entry, others, rfl, rfl, rfl, isRest⟩ := exists_split_of_map items
  obtain ⟨beside, reader, after, rfl, rfl, rfl, rfl⟩ := exists_split_of_map isRest
  refine ⟨before, entry, beside, reader, after, rfl, ofDefinition, ofUser, ?_, ?_⟩
  · rw [List.forall_mem_append] at only ⊢
    constructor
    · intro other member
      have absent := Schema.ne_key_of_ofItems registry front _ ofFront definition.key only.1
      exact absent _ (List.mem_map_of_mem member)
    · intro other member
      have absent := Schema.ne_key_of_ofItems registry _ _ ofRest definition.key only.2
      rw [← List.map_cons, ← List.map_append] at absent
      exact absent _ (List.mem_map_of_mem member)
  · intro later member
    have absent := Schema.ne_key_of_ofItems registry back _ ofBack user.key last
    exact absent _ (List.mem_map_of_mem member)

theorem get?_environment_of_reference (schema : Schema) (options : Options)
    (front : List Evaluated) (entry : Evaluated) (middle : List Evaluated) (reader : Evaluated)
    (back : List Evaluated) (value : Value)
    (settles : Evaluated.Settles schema options front entry (middle ++ reader :: back) value)
    (named : entry.item.key ≠ []) (isReference : reader.item.value = .reference entry.item.key)
    (untyped : reader.item.type = none) (free : options.overrides.get? reader.item.key = none)
    (last : ∀ later ∈ back, later.item.key ≠ reader.item.key) (resolution : Resolution)
    (ends : (finish schema ((Progress.start schema options).takeAll
      (front ++ entry :: (middle ++ reader :: back)))).run.Reaches (.ok resolution)) :
    resolution.environment.get? reader.item.key = some value.display := by
  have items := items_of_records settles.records
  have result := settles.result_of_reference named
    (List.mem_append_right middle List.mem_cons_self) isReference free
  have isLast : reader.IsLastOf reader.item.key (front ++ entry :: (middle ++ reader :: back)) :=
    ⟨front ++ entry :: middle, back, by simp, rfl, last⟩
  obtain ⟨state, member, decides⟩ := exists_decided items ends reader _ isLast
  have isValue : state.value = value :=
    Evaluated.value_of_untyped schema.root _ reader state decides value result untyped
  have given := settles.given
  rw [← isValue] at given ⊢
  exact get?_environment_of_reaches items ends _ state member given

/-- What later definitions and commands read of a key is what its only definition was evaluated to.
What is exported is that value converted to the type of the key. -/
theorem references_read_unconverted (registry : Registry)
    (isRef : registry.get? "ref".toList = some .ref) (options : Options) (document : Document)
    (definition user : Item) (refers : document.Refers definition user)
    (free : options.overrides.get? definition.key = none)
    (freeUser : options.overrides.get? user.key = none) (resolution : Resolution)
    (ends : (ofDocument registry options document).run.Reaches (.ok resolution))
    (resolved : ResolvedItem) (member : (definition.key, resolved) ∈ resolution.items)
    (valid : resolved.isValid = true) (given : resolved.value.isEmpty = false) :
    ∃ schema record front entry back value,
      Schema.ofDocument registry document = .ok schema ∧
      (recorded schema options).run.Reaches (.ok (record, resolution)) ∧
      record = front ++ entry :: back ∧ ItemSchema.ofItem registry definition = .ok entry.item ∧
      entry.result = .ok value ∧ entry.item.typed? value = some resolved.value ∧
      resolution.environment.get? definition.key = some resolved.value.display ∧
      resolution.environment.get? user.key = some value.display ∧
      (registry.Binds Bound.ShowsScope →
        (∀ later ∈ back, (Progress.evaluateItem later.scope later.item).EachCommand
          (Command.Sees definition.key value.display)) ∧
        ∀ item ∈ schema.items,
          (finishItem schema.root ((Progress.start schema options).takeAll record) item).EachCommand
            (Command.Sees definition.key value.display)) := by
  obtain ⟨schema, record, compiled, runs⟩ := exists_record registry options document resolution ends
  obtain ⟨records, finishes⟩ := reaches_recorded schema options record resolution runs
  have items := items_of_records records
  obtain ⟨literal, bare, refersTo, isTerm⟩ := refers.value
  obtain ⟨front, entry, middle, reader, back, rfl, ofDefinition, ofUser, only, lastUser⟩ :=
    placed_in_record registry document definition user refers schema compiled record items
  have isKey := ItemSchema.key_of_ofItem registry definition entry.item ofDefinition
  have isUserKey := ItemSchema.key_of_ofItem registry user reader.item ofUser
  have isReference := ItemSchema.value_of_refersTo registry isRef user literal bare _ refersTo
    isTerm reader.item ofUser
  have named := refersTo.referable.ne_nil
  rw [← isKey] at free only isReference named member ⊢
  rw [← isUserKey] at freeUser lastUser ⊢
  have isLast : entry.IsLastOf entry.item.key (front ++ entry :: (middle ++ reader :: back)) :=
    ⟨front, _, rfl, rfl, (List.forall_mem_append.mp only).2⟩
  obtain ⟨other, last, decides⟩ :=
    decides_of_mem schema options _ resolution items finishes entry.item.key resolved member
  rw [last.eq isLast] at decides
  obtain ⟨value, result, full, typed⟩ :=
    Evaluated.typed?_of_decides schema.root _ entry resolved decides valid given
  have settles : Evaluated.Settles schema options front entry (middle ++ reader :: back) value :=
    ⟨records, (List.forall_mem_append.mp only).2, free, result, full⟩
  have untyped :=
    ItemSchema.type_of_undecorated registry user refers.undecorated reader.item ofUser
  refine ⟨schema, _, front, entry, middle ++ reader :: back, value, compiled, runs, rfl,
    ofDefinition, result, typed, ?_, ?_, fun shows => ?_⟩
  · exact get?_environment_of_reaches items finishes _ resolved member given
  · exact get?_environment_of_reference schema options front entry middle reader back value settles
      named isReference untyped freeUser lastUser resolution finishes
  · have shown := Schema.eachBound_of_ofDocument shows document schema compiled
    constructor
    · intro later inRest
      have inSchema : later.item ∈ schema.items := by
        rw [← items]
        exact List.mem_map_of_mem (List.mem_append_right _ (List.mem_cons_of_mem _ inRest))
      exact settles.eachCommand_evaluateItem inRest (shown _ inSchema).value
    · intro item inSchema
      exact settles.eachCommand_finishItem item (shown item inSchema)

def yes : Item := under "boolean" .flag (.new ['K'] (some (.literal (.bare ['y', 'e', 's']))))

def readsK : Item := .new ['V'] (some ((Term.reference ['K']).withSource (Text.braced ['K'])))

/-- A boolean, a reference to it, and below them `C=exec("echo $K")`. -/
def converted : Document :=
  { nodes := [.item yes, .item readsK,
      .item (.new ['C'] (some (.applyNamed "exec" [Term.text "echo $K".toList .double])))]
    trailingNewline := true }

theorem refers_converted : converted.Refers yes readsK := by
  have refersTo : (Literal.bare (Text.braced ['K'])).RefersTo ['K'] :=
    Literal.refersTo_bare ['K'] ⟨rfl, List.forall_mem_singleton.mpr rfl⟩
  refine ⟨⟨[], [], _, rfl, by decide, by decide⟩, ⟨_, true, refersTo, ?_⟩, rfl⟩
  rw [Term.expand_refersTo true _ _ refersTo]
  rfl

/-- The reader of a boolean, and every command below it, has the word that stands in the document. -/
theorem references_read_unconverted_yes :
    let run := (ofDocument (.withBuiltins []) (.ofEnvironment []) converted).run
    (Registry.withBuiltins []).get? "ref".toList = some .ref ∧
    (Registry.withBuiltins []).Binds Bound.ShowsScope ∧ converted.Refers yes readsK ∧
    ∃ resolution resolved, run.Reaches (.ok resolution) ∧
      (['K'], resolved) ∈ resolution.items ∧ resolved.isValid = true ∧
      resolved.value.isEmpty = false ∧ resolved.value.display = ['t', 'r', 'u', 'e'] ∧
      resolution.environment.get? ['V'] = some ['y', 'e', 's'] ∧
      ∃ schema front entry back,
        (recorded schema (.ofEnvironment [])).run.Reaches
          (.ok (front ++ entry :: back, resolution)) ∧
        ∀ later ∈ back, (Progress.evaluateItem later.scope later.item).EachCommand
          (Command.Sees ['K'] ['y', 'e', 's']) := by
  intro run
  have shows : (Registry.withBuiltins []).Binds Bound.ShowsScope := by
    intro name resolver found function args bound success
    have own : (Registry.withBuiltins []).Binds Bound.IsOwn :=
      Registry.each_withBuiltins [] Resolver.builtins_isOwn (by simp)
    exact (own name resolver found function args bound success).showsScope
  have lists : (run.perform (World.new [] [])).result.toOption.map (fun resolution =>
      (resolution.items.map fun entry => (entry.1, entry.2.isValid, entry.2.value.isEmpty),
        resolution.environment)) =
      some ([(['K'], true, false), (['V'], true, false), (['C'], true, false)],
        [(['K'], ['t', 'r', 'u', 'e']), (['V'], ['y', 'e', 's']), (['C'], ['y', 'e', 's'])]) := by
    decide +kernel
  obtain ⟨resolution, ends, lists⟩ := Action.exists_reaches_of_perform lists
  obtain ⟨items, environment⟩ := Prod.mk.inj lists
  obtain ⟨⟨_, resolved⟩, others, isItems, isFirst, -⟩ := List.map_eq_cons_iff.mp items
  obtain ⟨rfl, valid, given⟩ : _ = ['K'] ∧ resolved.isValid = true ∧
      resolved.value.isEmpty = false := by
    simpa using isFirst
  have member : (['K'], resolved) ∈ resolution.items := isItems ▸ List.mem_cons_self
  have conclusion := references_read_unconverted (.withBuiltins []) rfl (.ofEnvironment [])
    converted yes readsK refers_converted rfl rfl resolution ends resolved member valid given
  obtain ⟨schema, record, front, entry, back, value, -, runs, rfl, -, -, -, exported, read,
    commands⟩ := conclusion
  rw [environment] at exported read
  have isWord : value.display = ['y', 'e', 's'] := (Option.some.inj read).symm
  obtain ⟨later, -⟩ := commands shows
  change ∀ later ∈ back, (Progress.evaluateItem later.scope later.item).EachCommand
    (Command.Sees ['K'] value.display) at later
  rw [isWord] at later
  refine ⟨rfl, shows, refers_converted, resolution, resolved, ends, member, valid, given,
    (Option.some.inj exported).symm, ?_, schema, front, entry, back, runs, later⟩
  rw [environment]
  rfl

/-- What is converted reads otherwise than it is exported, to references and to commands. Nor does a
reference say what is exported of its own key if that is overridden or defined again below, and a
name with a hyphen in braces is no reference to a key of that name. -/
theorem references_differ_from_exports :
    let one := Term.literal (.bare ['1'])
    let hyphenated := (Term.literal (.bare "${A-B}".toList)).expand true
    let document (items : List (Text × Term)) : Document :=
      ⟨items.map fun entry => .item (.new entry.1 (some entry.2)), true⟩
    let reference := (Term.reference ['K']).withSource (Text.braced ['K'])
    converted.Refers yes readsK ∧
    (overriding [] converted).toOption.map environment =
      some [(['K'], ['t', 'r', 'u', 'e']), (['V'], ['y', 'e', 's']), (['C'], ['y', 'e', 's'])] ∧
    (overriding [(['V'], ['2'])] (document [(['K'], one), (['V'], reference)])).toOption.map
      environment = some [(['K'], ['1']), (['V'], ['2'])] ∧
    (overriding [] (document [(['K'], one), (['V'], reference),
      (['V'], .literal (.bare ['2']))])).toOption.map environment =
        some [(['K'], ['1']), (['V'], ['2'])] ∧
    (overriding [] (document [(['A', '-', 'B'], one), (['V'], hyphenated)])).toOption.map
      environment = some [(['A', '-', 'B'], ['1']), (['V'], ['B'])] := by
  intro one hyphenated document reference
  -- The hyphen sets off a default.
  have isDefault : hyphenated = (Term.applyNamed "coalesce"
      [Term.reference ['A'], Term.text ['B'] .double]).withSource "${A-B}".toList := by
    simp only [hyphenated, Term.expand]
    rfl
  refine ⟨refers_converted, by decide +kernel, by decide +kernel, by decide +kernel, ?_⟩
  rw [isDefault]
  decide +kernel

end Resolution

end Dotenv
