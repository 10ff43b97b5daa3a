import Dotenv.Scope
import Dotenv.Shell.Syntax
/-!
# The state of a shell

What a running shell knows: its variables and functions, the directory, what is left to
read, how the last command ended, how long commands have slept, and how the script goes on.
-/

set_option autoImplicit false

namespace Dotenv.Shell

structure Chunk where
  stream : Nat
  octets : Octets
deriving DecidableEq, Repr

inductive Flow where
  | onward
  | breaking (loops : Nat)
  | continuing (loops : Nat)
  | returning
  | ended
  | killed
deriving DecidableEq, Repr

structure State where
  name : Text
  arguments : List Text
  environment : Keyed Text
  functions : Keyed Stage
  directory : Directory
  input : Octets
  status : Nat
  line : Nat
  clock : Nat
  /-- When the last of the commands ends that nothing waits for. -/
  lingering : Nat
  flow : Flow
  speaking : Text
  loops : Nat
  strict : Bool
  /-- Whether a variable without a text is a fault. -/
  demanding : Bool
  /-- Whether the status of what is run decides on something, so that it ends no script. -/
  tested : Bool

namespace State

def start (name : Text) (arguments : List Text) (environment : Keyed Text)
    (directory : Directory) : State :=
  { name, arguments, environment, functions := [], directory, input := [], status := 0, line := 1
    clock := 0, lingering := 0, flow := .onward, speaking := [], loops := 0, strict := false
    demanding := false, tested := false }

def goesOn (state : State) : Bool := state.flow = .onward

def process : Text := "4096".toList

def background : Text := "4097".toList

def speaker (state : State) : Text :=
  state.name ++ ": ".toList ++ Text.ofNat state.line ++ ": ".toList ++ state.speaking

def ending (state : State) (status : Nat) : State := { state with status }

def complaint (state : State) (message : Text) : Chunk :=
  ⟨2, Octets.ofText (state.speaker ++ message ++ ['\n'])⟩

def complain (state : State) (message : Text) (status : Nat) : State × List Chunk :=
  (state.ending status, [state.complaint message])

def fail (state : State) (message : Text) : State × List Chunk :=
  ({ state with status := 2, flow := .ended }, [state.complaint message])

/-- The state after a part that ran in a shell of its own: only what it did outside counts. -/
def afterInner (state inner : State) : State :=
  { state with
    directory := inner.directory, input := inner.input, status := inner.status
    clock := inner.clock, lingering := inner.lingering
    flow := if inner.flow = .killed then .killed else state.flow }

end State

end Dotenv.Shell
