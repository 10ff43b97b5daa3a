import Dotenv.Resolver.Basic
/-!
# Sample functions

Three functions that show what can be added to a registry. `truncate(value, n)` checks a
literal argument when it is bound, `probe(x=...)` shows what a function sees of its call,
and `invalid(reason)` always fails.
-/

set_option autoImplicit false

namespace Dotenv.Resolver

def lengthOf? : Option Scalar → Option Nat
  | some (.number value) =>
    match value.toInt? with
    | some (.ofNat n) => some n
    | _ => none
  | _ => none

def truncate : Resolver :=
  { name := "truncate".toList
    bind := fun function args => do
      let _ ← args.expectPositional function
      args.expectCount function 2 (some 2)
      match lengthOf? (args.scalar? 1) with
      | none => throw (.refused "truncate" "length must be a whole number")
      | some length =>
        return { dependencies := some []
                 run := fun call => do return .text ((← call.text 0).take length) } }

def seen (call : Invocation) : Attempt Value := do
  let x ← call.named? ['x']
  let beyond ← call.value call.arguments.length
  let keys := call.arguments.map fun argument => argument.key.getD ['-']
  let shown :=
    match x with
    | some value => "some:".toList ++ value.display
    | none => "none".toList
  return .text (Text.join ['|'] [call.function, call.scope.key.getD ['?'],
    Scalar.word call.arguments.isEmpty, Text.join [','] keys, shown,
    Scalar.word beyond.isUndefined])

def probe : Resolver :=
  { name := "probe".toList
    bind := fun _ _ => .ok { dependencies := some [], run := seen } }

def invalid : Resolver :=
  { name := "invalid".toList
    bind := fun _ _ => .ok
      { dependencies := some []
        run := fun call => do throw (.invalidValue (← call.text 0)) } }

end Dotenv.Resolver
