import Dotenv.Value
/-!
# Options and scopes

What a run is told beside the document, and what an expression sees while it is evaluated.
-/

set_option autoImplicit false

namespace Dotenv

/-! ## Directories

The files that commands read and write, by name. -/

abbrev Directory := Keyed Octets

namespace Directory

def ofTexts (files : List (Text × Text)) : Directory :=
  Keyed.ofList (files.map fun file => (file.1, Octets.ofText file.2))

end Directory

/-! ## Options

What a run may be told beside the document. The variables of the environment give the
shell, the time that a command may take and the time for which a store gathers keys; what
is not given, or is no number of milliseconds, has a default. -/

abbrev Environment := Keyed Text

namespace Environment

/-- A number of milliseconds: digits, a plus sign before them or not, below `2 ^ 64`. -/
def milliseconds? (text : Text) : Option Nat :=
  let digits := (Text.dropStart? ['+'] text).getD text
  if digits ≠ [] ∧ digits.all Char.isDigit then
    let value := Text.toNat digits
    if value < twoPow 64 then some value else none
  else none

def duration (environment : Environment) (name : String) (default : Nat) : Nat :=
  ((environment.get? name.toList).bind milliseconds?).getD default

def commandLimit (environment : Environment) : Nat :=
  environment.duration "ENVSPEC_EXEC_TIMEOUT_MS" 10000

def batchWindow (environment : Environment) : Nat :=
  environment.duration "ENVSPEC_BATCH_WINDOW_MS" 25

def shell (environment : Environment) : Text :=
  match environment.get? "ENVSPEC_SHELL".toList with
  | some name => if Text.trim name = [] then "sh".toList else name
  | none => "sh".toList

end Environment

structure Options where
  overrides : Keyed Text
  shell : Text
  commandLimit : Nat
  strictRefs : Bool
  failFast : Bool
  /-- The directory for commands, when it is not the one that the program runs in. -/
  directory : Option Directory
deriving DecidableEq, Repr, Inhabited

namespace Options

def ofEnvironment (environment : Environment) : Options :=
  { overrides := [], shell := environment.shell, commandLimit := environment.commandLimit,
    strictRefs := false, failFast := false, directory := none }

def withOverrides (options : Options) (overrides : List (Text × Text)) : Options :=
  { options with overrides := options.overrides.setAll overrides }

end Options

/-! ## Scopes

What an expression sees while it is evaluated: the values of the items before it, the
options of the run with their overrides, the key that tells the environment's name, and
the key that is being given a value. Overrides come before values. -/

inductive Lookup where
  | overridden (text : Text)
  | defined (value : Value)
  | unknown
deriving Inhabited, Repr

structure Scope where
  values : Keyed Value
  options : Options
  envFlag : Option Text
  key : Option Text
deriving Inhabited, Repr

namespace Scope

def forKey (scope : Scope) (key : Text) : Scope := { scope with key := some key }

def insert (scope : Scope) (key : Text) (value : Value) : Scope :=
  { scope with values := scope.values.set key value }

def lookup (scope : Scope) (key : Text) : Lookup :=
  match scope.options.overrides.get? key with
  | some text => .overridden text
  | none =>
    match scope.values.get? key with
    | some value => .defined value
    | none => .unknown

def currentEnv (scope : Scope) : Option Text :=
  match scope.envFlag with
  | none => none
  | some flag =>
    match scope.lookup flag with
    | .overridden text => some text
    | .defined value => value.exported
    | .unknown => none

/-- The variables that a command sees: defined values, and overrides on top of them. -/
def environment (scope : Scope) : Keyed Text :=
  Keyed.setAll
    (scope.values.filterMap fun entry => entry.2.exported.map fun text => (entry.1, text))
    scope.options.overrides

end Scope

end Dotenv
