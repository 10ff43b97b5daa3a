import Dotenv.Resolver.Basic
/-!
# The library's own functions

References to other keys, choices among values, functions on texts, and scripts.
-/

set_option autoImplicit false

namespace Dotenv

/-! ## References

The functions that read other keys. `ref(KEY)` gives the value of a key; `forEnv(a, b)`
tells whether the name of the environment is one of its arguments. -/

namespace Resolver

/-- The value of a key. A key that is defined and has no value reads as the empty text. -/
def lookUp (scope : Scope) (key : Text) : Attempt Value :=
  if key = [] then
    throw (.invalidArgument "ref".toList "key resolved to an empty string".toList)
  else
    match scope.lookup key with
    | .overridden text => pure (.text text)
    | .defined .undefined => pure (.text [])
    | .defined value => pure value
    | .unknown =>
      if scope.options.strictRefs then throw (.unknownReference key) else pure .undefined

def refTo (key : Text) : Bound :=
  { dependencies := some [key], run := fun call => lookUp call.scope key }

def refComputed : Bound :=
  { dependencies := none, run := fun call => do lookUp call.scope (← call.text 0) }

def ref : Resolver :=
  { name := "ref".toList
    bind := fun function args => do
      let _ ← args.expectPositional function
      args.expectCount function 1 (some 1)
      match args.text? 0 with
      | some [] => throw (.refused "ref" "key must not be empty")
      | some key => return refTo key
      | none => return refComputed }

/-- Whether the name of the environment is one of the arguments. Where there is no name, none of
them is evaluated. -/
def isForEnv (call : Invocation) : Attempt Value := do
  if call.scope.envFlag.isNone then
    throw (.invalidArgument "forEnv".toList "no @envFlag decorator in the header".toList)
  match call.scope.currentEnv with
  | none => return .boolean false
  | some current => return .boolean ((← call.values).any fun value => value.display == current)

def forEnv : Resolver :=
  { name := "forEnv".toList
    bind := fun function args => do
      let _ ← args.expectPositional function
      args.expectCount function 1 none
      return { dependencies := none, run := isForEnv } }

/-! ## Choices

`fallback` gives the first argument that is neither undefined nor empty, `coalesce` the
first that is not undefined. What comes after that argument is not evaluated. -/

/-- A reference to a key that nothing defines counts as undefined. -/
def lenient (attempt : Attempt Value) : Attempt Value :=
  .mk do
    match ← attempt.run with
    | .error (.unknownReference _) => return .ok .undefined
    | result => return result

def firstAccepted (accepts : Value → Bool) : List Argument → Attempt Value
  | [] => pure .undefined
  | argument :: rest => do
    let value ← lenient argument.value
    if accepts value then return value else firstAccepted accepts rest

def choice (name : String) (accepts : Value → Bool) : Resolver :=
  { name := name.toList
    bind := fun function args => do
      let _ ← args.expectPositional function
      return { dependencies := some [], run := fun call => firstAccepted accepts call.arguments } }

def fallback : Resolver := choice "fallback" fun value => !value.isEmpty

def coalesce : Resolver := choice "coalesce" fun value => !value.isUndefined

/-! ## Functions on texts

`concat(a, b, ...)` joins its arguments. `replace(value, search, replacement)` replaces the
first occurrence. `remap(value, NAME=match, ...)` gives the name of the first match that
equals the value, and the value itself when there is none. -/

def joined (call : Invocation) : Attempt Value := do
  return .text ((← call.values).flatMap Value.display)

def concat : Resolver :=
  { name := "concat".toList
    bind := fun function args => do
      let _ ← args.expectPositional function
      return { dependencies := some [], run := joined } }

/-- The first occurrence replaced. Undefined stays undefined, whatever the other arguments are. -/
def replaced (call : Invocation) : Attempt Value := do
  let value ← call.value 0
  if value.isUndefined then return .undefined
  let search ← call.text 1
  let replacement ← call.text 2
  return .text (Text.replaceFirst search replacement value.display)

def replace : Resolver :=
  { name := "replace".toList
    bind := fun function args => do
      let _ ← args.expectPositional function
      args.expectCount function 3 (some 3)
      return { dependencies := some [], run := replaced } }

/-- The key of the first argument whose value is exported as a text; the others after it are not
evaluated. -/
def firstMatch (wanted : Text) : List Argument → Attempt (Option Text)
  | [] => pure none
  | argument :: rest => do
    let candidate ← argument.value
    match argument.key with
    | some key =>
      if candidate.exported = some wanted then return some key else firstMatch wanted rest
    | none => firstMatch wanted rest

def remapped (call : Invocation) : Attempt Value := do
  let value ← call.value 0
  match value.exported with
  | none => return value
  | some wanted =>
    match ← firstMatch wanted (call.arguments.drop 1) with
    | some key => return .text key
    | none => return value

def isValueAndPairs (args : Args) : Bool :=
  match args.toList with
  | [] => false
  | value :: pairs => value.key.isNone && pairs.all (·.key.isSome)

def remap : Resolver :=
  { name := "remap".toList
    bind := fun function args => do
      args.expectCount function 1 none
      if !isValueAndPairs args then
        throw (.refused "remap" "expected a value followed by key=value pairs")
      return { dependencies := some [], run := remapped } }

/-! ## Commands

`exec(script)` runs a script in the shell of the options. The script sees the values so
far and the overrides as variables. What it writes is the value, blanks at the end aside. -/

/-- What a command leads to: its output, when it ends with code zero. -/
def ofOutcome (limit : Nat) : Outcome → Except ResolutionError Value
  | .ended (some 0) stdout _ => .ok (.text (Text.trimEnd (Octets.decodeLossy stdout)))
  | .ended code _ stderr => .error (.commandFailed code (Text.trim (Octets.decodeLossy stderr)))
  | .timedOut => .error (.commandTimedOut limit)
  | .notStarted reason => .error (.commandNotStarted reason)

def runScript (scope : Scope) (script : Text) : Attempt Value :=
  .mk do
    Action.report (.runningCommand (scope.key.getD []))
    let limit := scope.options.commandLimit
    return ofOutcome limit
      (← Action.run (.ofScript scope.options.shell script scope.environment limit))

/-- `exec(script)`. A script may read any key. -/
def exec : Resolver :=
  { name := "exec".toList
    bind := fun function args => do
      let _ ← args.expectPositional function
      args.expectCount function 1 (some 1)
      return { dependencies := none, run := fun call => do runScript call.scope (← call.text 0) } }

end Resolver

/-! ## All of them -/

def Resolver.builtins : List Resolver :=
  [.ref, .forEnv, .concat, .replace, .remap, .fallback, .coalesce, .exec]

def Registry.withBuiltins (others : List Resolver) : Registry :=
  others.foldl register ((ofList Resolver.builtins).addAlias "eval".toList "exec".toList)

end Dotenv
