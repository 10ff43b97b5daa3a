import Dotenv.Action.Basic
import Dotenv.Pattern.Reader
import Dotenv.Scope
/-!
# Resolvers

A resolver is a function that values may call. It takes part twice: once when a call is
bound, where it sees the arguments as written and may refuse them, and then whenever the
call is carried out, where it decides which arguments to evaluate.
-/

set_option autoImplicit false

namespace Dotenv

/-! ## Expectations of arguments

What functions ask of the arguments that are written in a call, before anything is
evaluated. The errors name the function as the call does. -/

namespace Args

def size (args : Args) : Nat := args.toList.length

def scalar? (args : Args) (index : Nat) : Option Scalar :=
  args.toList[index]?.bind fun arg => arg.value.scalar?

def text? (args : Args) (index : Nat) : Option Text := (args.scalar? index).map Scalar.display

def countText (least : Nat) (most : Option Nat) : Text :=
  match most with
  | some most =>
    if most = least then Text.ofNat least
    else Text.ofNat least ++ " to ".toList ++ Text.ofNat most
  | none => "at least ".toList ++ Text.ofNat least

def expectCount (args : Args) (function : Text) (least : Nat) (most : Option Nat) :
    Except SchemaError Unit :=
  if least ≤ args.size ∧ args.size ≤ most.getD args.size then .ok ()
  else
    .error (.invalidArguments function ("expected ".toList ++ countText least most ++
      " argument(s), got ".toList ++ Text.ofNat args.size))

def expectShape (args : Args) (function : Text) : Except SchemaError ArgShape :=
  match args.shape? with
  | some shape => .ok shape
  | none => .error (.mixedArguments function)

def expectPositional (args : Args) (function : Text) : Except SchemaError (List Term) := do
  match ← args.expectShape function with
  | .positional terms => .ok terms
  | .named _ => .error (.invalidArguments function "expected positional arguments".toList)

def expectNamed (args : Args) (function : Text) : Except SchemaError (Keyed Term) := do
  match ← args.expectShape function with
  | .named entries => .ok entries
  | .positional [] => .ok []
  | .positional _ =>
    .error (.invalidArguments function "expected key=value arguments".toList)

end Args

/-! ## Functions -/

structure Argument where
  key : Option Text
  value : Attempt Value

structure Invocation where
  function : Text
  arguments : List Argument
  scope : Scope

namespace Invocation

def value (call : Invocation) (index : Nat) : Attempt Value :=
  match call.arguments[index]? with
  | some argument => argument.value
  | none => pure .undefined

def text (call : Invocation) (index : Nat) : Attempt Text := do
  return (← call.value index).display

def values (call : Invocation) : Attempt (List Value) :=
  .mk (Action.allUnlessError (call.arguments.map fun argument => argument.value.run))

def named? (call : Invocation) (key : Text) : Attempt (Option Value) :=
  match call.arguments.find? (·.key == some key) with
  | some argument => do return some (← argument.value)
  | none => pure none

end Invocation

structure Bound where
  /-- The keys that the call reads, besides those that its arguments read; `none` when it may
  read any key. -/
  dependencies : Option (List Text)
  run : Invocation → Attempt Value

structure Resolver where
  name : Text
  bind : Text → Args → Except SchemaError Bound

/-! ## Registries

What a document may use: functions, by the names under which it may call them, and the patterns
that its items may ask for. One function may stand under several names. -/

structure Registry where
  resolvers : Keyed Resolver
  /-- The pattern that a text is, or what is wrong with the text. -/
  readPattern : Text → Except Text Pattern

namespace Registry

/-- The registry without functions, with regular expressions for patterns. -/
def empty : Registry where
  resolvers := []
  readPattern source :=
    match Pattern.ofText? source with
    | some pattern => .ok pattern
    | none => .error source

def get? (registry : Registry) (name : Text) : Option Resolver := registry.resolvers.get? name

def contains (registry : Registry) (name : Text) : Bool := registry.resolvers.contains name

def register (registry : Registry) (resolver : Resolver) : Registry :=
  { registry with resolvers := registry.resolvers.set resolver.name resolver }

/-- The function that stands under one name put under another name too; `none` when there is
no such function. -/
def addAlias? (registry : Registry) (name target : Text) : Option Registry :=
  (registry.get? target).map fun resolver =>
    { registry with resolvers := registry.resolvers.set name resolver }

/-- A registry with another name for a function, where there is such a function. -/
def addAlias (registry : Registry) (name target : Text) : Registry :=
  (registry.addAlias? name target).getD registry

def names (registry : Registry) : List Text := registry.resolvers.keys.mergeSort Text.le

/-- The registry of some functions, of which the last one of a name counts. -/
def ofList (resolvers : List Resolver) : Registry := resolvers.foldl register empty

def registrations (resolvers : List Resolver) : List Event :=
  resolvers.map fun resolver => .registered resolver.name

def shown (registry : Registry) : Text :=
  "Registry \x7b resolvers: [".toList ++
    Text.join [',', ' '] (registry.names.map Text.quoted) ++ "] \x7d".toList

end Registry

end Dotenv
