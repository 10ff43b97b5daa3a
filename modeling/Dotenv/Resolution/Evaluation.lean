import Dotenv.Schema.Reading
/-!
# Resolving a document

The waves of a document are evaluated one after the other, each against the values of those
before it. An item that fails is undefined for what comes after it. At the end the last
definition of each key is checked. A fatal error stops the waves, and so does the first
error of all where one is enough.
-/

set_option autoImplicit false

namespace Dotenv

/-! ## Waves

Items that follow each other and do not read each other make a wave, and are evaluated side
by side. A wave ends before an item that reads or defines again a key of the wave, or that may
read any key. -/

structure WaveItem where
  key : Text
  /-- The keys that the item reads, when they are known. -/
  reads : Option (List Text)
deriving DecidableEq, Repr

def WaveItem.ofSchema (item : ItemSchema) : WaveItem := ⟨item.key, item.value.dependencies⟩

namespace Waves

/-- Whether an item cannot stand in a wave with items of some keys before it. -/
def breaks (keys : List Text) (item : WaveItem) : Bool :=
  match item.reads with
  | none => true
  | some reads => keys.contains item.key || reads.any keys.contains

def sizesFrom : List Text → List WaveItem → List Nat
  | [], [] => []
  | keys, [] => [keys.length]
  | keys, item :: rest =>
    if keys ≠ [] ∧ breaks keys item then keys.length :: sizesFrom [item.key] rest
    else sizesFrom (keys ++ [item.key]) rest

def sizes (items : List WaveItem) : List Nat := sizesFrom [] items

def rangesFrom : Nat → List Nat → List (Nat × Nat)
  | _, [] => []
  | start, size :: rest => (start, start + size) :: rangesFrom (start + size) rest

/-- The waves of items as ranges of places, the end of each not in it. -/
def plan (items : List WaveItem) : List (Nat × Nat) := rangesFrom 0 (sizes items)

def cut {α : Type} : List Nat → List α → List (List α)
  | [], _ => []
  | size :: sizes, list => list.take size :: cut sizes (list.drop size)

end Waves

/-! ## Resolutions

The final state of every key of a document, in the order in which the keys were first
defined, and the ways to look at it: by name or alias, as an environment, as lines that are
safe to show, and as JSON. -/

structure ResolvedItem where
  key : Text
  value : Value
  required : Bool
  sensitive : Bool
  overridden : Bool
  description : Option Text
  aliases : List Text
  errors : List ItemError
deriving Repr, Inhabited

namespace ResolvedItem

def isValid (item : ResolvedItem) : Bool := item.errors.isEmpty

def display (item : ResolvedItem) : Text :=
  if item.sensitive then item.value.redacted else item.value.display

def toJson (item : ResolvedItem) : Json :=
  let text (name : String) (value : Json) : Text × Json := (name.toList, value)
  .object <|
    [text "key" (.string item.key), text "value" item.value.toJson,
     text "required" (.boolean item.required), text "sensitive" (.boolean item.sensitive),
     text "overridden" (.boolean item.overridden)] ++
    (item.description.map fun said => text "description" (.string said)).toList ++
    (if item.aliases = [] then []
      else [text "aliases" (.array (item.aliases.map .string))])

end ResolvedItem

structure Resolution where
  items : Keyed ResolvedItem
  envName : Option Text
deriving Repr, Inhabited

namespace Resolution

def list (resolution : Resolution) : List ResolvedItem := resolution.items.map Prod.snd

/-- The item of a key, or else the first with an alias. -/
def get? (resolution : Resolution) (name : Text) : Option ResolvedItem :=
  (Keyed.get? name resolution.items).or
    (resolution.list.find? fun item => item.aliases.contains name)

def isValid (resolution : Resolution) : Bool := resolution.list.all ResolvedItem.isValid

def errors (resolution : Resolution) : List (Text × ItemError) :=
  resolution.list.flatMap fun item => item.errors.map fun error => (item.key, error)

/-- The values as environment variables; undefined ones are left out. -/
def environment (resolution : Resolution) : Keyed Text :=
  resolution.list.filterMap fun item => item.value.exported.map fun text => (item.key, text)

def redacted (resolution : Resolution) : Text :=
  resolution.list.flatMap fun item => item.key ++ '=' :: item.display ++ ['\n']

def toJson (resolution : Resolution) : Json :=
  .object <|
    ("items".toList, .object (resolution.items.map fun entry => (entry.1, entry.2.toJson))) ::
      (resolution.envName.map fun name => ("env_name".toList, Json.string name)).toList

end Resolution

/-! ## Evaluation -/

abbrev Resolving (α : Type) := ExceptT ResolveError Action α

structure Progress where
  scope : Scope
  failures : Keyed ResolutionError

namespace Progress

def start (schema : Schema) (options : Options) : Progress :=
  ⟨⟨[], options, schema.root.envFlag, none⟩, []⟩

/-- The value of an item: its override, or what its expression evaluates to. -/
def evaluateItem (scope : Scope) (item : ItemSchema) : Action (Except ResolutionError Value) := do
  match scope.options.overrides.get? item.key with
  | some text =>
    Action.report (.usingOverride item.key)
    return .ok (.text text)
  | none =>
    match ← (item.value.evaluate (scope.forKey item.key)).run with
    | .ok value =>
      Action.report (.resolvedItem item.key value.redacted)
      return .ok value
    | .error error => return .error error

def succeed (progress : Progress) (key : Text) (value : Value) : Progress :=
  ⟨progress.scope.insert key value, progress.failures.erase key⟩

def fail (progress : Progress) (key : Text) (error : ResolutionError) : Progress :=
  ⟨progress.scope.insert key .undefined, progress.failures.set key error⟩

def stop? (options : Options) (key : Text) (error : ResolutionError) : Option ResolveError :=
  if error.isFatal then some (.fatal key error)
  else if options.failFast then some (.failFast key (.resolution error))
  else none

def settle (progress : Progress) (key : Text) : Except ResolutionError Value → Resolving Progress
  | .ok value => pure (progress.succeed key value)
  | .error error => do
    Action.report (.failedItem key error.message)
    match stop? progress.scope.options key error with
    | some stop => throw stop
    | none => return progress.fail key error

def settleAll (progress : Progress) :
    List (ItemSchema × Except ResolutionError Value) → Resolving Progress
  | [] => pure progress
  | (item, result) :: rest => do (← progress.settle item.key result).settleAll rest

def runWave (progress : Progress) (place : Nat) (wave : List ItemSchema) : Resolving Progress := do
  Action.report (.resolvingWave place wave.length)
  let results ← (Action.all (wave.map (evaluateItem progress.scope)) : Action _)
  progress.settleAll (wave.zip results)

def runWaves (progress : Progress) (place : Nat) : List (List ItemSchema) → Resolving Progress
  | [] => pure progress
  | wave :: rest => do (← progress.runWave place wave).runWaves (place + wave.length) rest

end Progress

namespace Resolution

/-- A yes or no that may fail, what stands for it then, and the error. -/
def absorb (attempt : Attempt Bool) (default : Bool) : Action (Bool × List ItemError) := do
  match ← attempt.run with
  | .ok answer => return (answer, [])
  | .error error => return (default, [.resolution error])

def finishItem (root : RootSchema) (progress : Progress) (item : ItemSchema) :
    Action ResolvedItem := do
  let scope := progress.scope.forKey item.key
  let value := (scope.values.get? item.key).getD .undefined
  let (required, ruleErrors) ← absorb (item.isRequired root scope) false
  let (sensitive, moreErrors) ← absorb (item.isSensitive root scope) true
  let (value, found) :=
    match progress.failures.get? item.key with
    | some error => (value, [.resolution error])
    | none => item.check value required
  return { key := item.key, value, required, sensitive
           overridden := scope.options.overrides.contains item.key
           description := item.description, aliases := item.aliases
           errors := ruleErrors ++ moreErrors ++ found }

/-- The final states of keys, up to the first that is invalid where one is enough. -/
def finishAll (root : RootSchema) (progress : Progress) :
    Keyed ItemSchema → Resolving (Keyed ResolvedItem)
  | [] => pure []
  | (key, item) :: rest => do
    let resolved ← (finishItem root progress item : Action _)
    match resolved.errors with
    | [] => pure ()
    | error :: _ =>
      Action.report (.invalidItem key error.message)
      if progress.scope.options.failFast then throw (.failFast key error)
    return (key, resolved) :: (← finishAll root progress rest)

/-- The last definition of each key, in the order of the first ones. -/
def lastDefinitions (items : List ItemSchema) : Keyed ItemSchema :=
  .ofList (items.map fun item => (item.key, item))

def wavesOf (items : List ItemSchema) : List (List ItemSchema) :=
  Waves.cut (Waves.sizes (items.map WaveItem.ofSchema)) items

def ofSchema (schema : Schema) (options : Options) : Resolving Resolution := do
  let progress ← (Progress.start schema options).runWaves 0 (wavesOf schema.items)
  let items ← finishAll schema.root progress (lastDefinitions schema.items)
  let resolution : Resolution := ⟨items, progress.scope.currentEnv⟩
  let invalid := resolution.list.filter fun item => !item.isValid
  Action.report (.resolutionComplete items.length invalid.length)
  return resolution

/-- A document resolved. Nothing is evaluated when something is wrong with its schema. -/
def ofDocument (registry : Registry) (options : Options) (document : Document) :
    Resolving Resolution :=
  match Schema.ofDocument registry document with
  | .ok schema => ofSchema schema options
  | .error issues => throw (.schema issues)

end Resolution

end Dotenv
