import Dotenv.Shell.Expansion
import Dotenv.Shell.Utility
/-!
# Commands of the shell itself

The commands that change the state of the shell: they set variables and options, read
lines, leave loops, functions and the shell, and signal processes. Those that only print or
decide are here as well, since the shell does not look for programs of their names.
-/

set_option autoImplicit false

namespace Dotenv.Shell

def statusOf (argument : Text) : Option Nat :=
  if argument ≠ [] ∧ argument.all Char.isDigit then some (Text.toNat argument % 256) else none

/-- A command of the shell: its state and the arguments lead to a state and what is written. -/
abbrev Builtin := State → List Text → State × List Chunk

namespace Builtin

def leave (name : String) (flow : Flow) : Builtin := fun state arguments =>
  match arguments with
  | [] => ({ state with flow }, [])
  | argument :: _ =>
    match statusOf argument with
    | some status => ({ state with status, flow }, [])
    | none => state.fail (name.toList ++ ": Illegal number: ".toList ++ argument)

/-- A way out of loops: out of one, or of as many as there are up to a number. -/
def leaveLoops (name : String) (flow : Nat → Flow) : Builtin := fun state arguments =>
  let count := arguments.head?.getD ['1']
  if count.all Char.isDigit ∧ Text.toNat count ≠ 0 then
    let loops := min (Text.toNat count) state.loops
    ({ state with status := 0, flow := if loops = 0 then state.flow else flow loops }, [])
  else state.fail (name.toList ++ ": Illegal number: ".toList ++ count)

def isSignal (name : Text) : Bool :=
  (["HUP", "INT", "QUIT", "KILL", "TERM", "USR1", "USR2", "PIPE", "ALRM", "ABRT", "SEGV", "1",
    "2", "3", "6", "9", "10", "11", "12", "13", "14", "15"].map String.toList).contains name

def kill : Builtin := fun state arguments =>
  let (signal, processes) : Text × List Text :=
    match arguments with
    | ['-', 's'] :: signal :: rest => (signal, rest)
    | ('-' :: signal) :: rest => (signal, rest)
    | _ => ("TERM".toList, arguments)
  if processes = [] then
    state.complain
      ("kill: Usage: kill [-s sigspec | -signum | -sigspec] [pid | job]... or\n" ++
        "kill -l [exitstatus]").toList 2
  else if signal ≠ ['0'] ∧ !isSignal signal then
    state.complain ("kill: Illegal option -".toList ++ signal.take 1) 2
  else if processes.contains State.process then
    if signal = ['0'] then (state.ending 0, []) else ({ state with flow := .killed }, [])
  else if processes.contains State.background then
    ({ state with
        status := 0, lingering := if signal = ['0'] then state.lingering else state.clock }, [])
  else state.complain "kill: No such process\n".toList 1

def declare : Builtin := fun state arguments =>
  let isBad (argument : Text) : Bool := !isName (argument.takeWhile (· ≠ '='))
  match arguments.find? isBad with
  | some argument =>
    state.fail ("export: ".toList ++ argument.takeWhile (· ≠ '=') ++ ": bad variable name".toList)
  | none =>
    let environment := arguments.foldl (fun environment argument =>
      match argument.dropWhile (· ≠ '=') with
      | _ :: value => Keyed.set (argument.takeWhile (· ≠ '=')) value environment
      | [] => environment) state.environment
    ({ state with environment, status := 0 }, [])

def unset : Builtin := fun state arguments =>
  let names := arguments.filter fun argument => argument.head? ≠ some '-'
  match names.find? fun name => !isName name with
  | some name => state.fail ("unset: ".toList ++ name ++ ": bad variable name".toList)
  | none =>
    if arguments.head? = some ['-', 'f'] then
      ({ state with
          functions := names.foldl (fun all name => Keyed.erase name all) state.functions
          status := 0 }, [])
    else
      ({ state with
          environment := names.foldl (fun all name => Keyed.erase name all) state.environment
          status := 0 }, [])

def setOption (state : State) (on : Bool) (letter : Char) : State :=
  if letter = 'e' then { state with strict := on }
  else if letter = 'u' then { state with demanding := on }
  else state

def set : Builtin := fun state arguments => go (state.ending 0) arguments
where
  /-- The options one after the other, then the arguments. -/
  go : State → List Text → State × List Chunk
    | state, [] => (state, [])
    | state, argument :: rest =>
      match argument with
      | ['-', '-'] => ({ state with arguments := rest }, [])
      | '-' :: letters => go (letters.foldl (setOption · true) state) rest
      | '+' :: letters => go (letters.foldl (setOption · false) state) rest
      | _ => ({ state with arguments := argument :: rest }, [])

def shift : Builtin := fun state arguments =>
  let count := arguments.head?.getD ['1']
  if !count.all Char.isDigit then state.fail ("shift: Illegal number: ".toList ++ count)
  else if state.arguments.length < Text.toNat count then
    state.fail "shift: can't shift that many".toList
  else ({ state with arguments := state.arguments.drop (Text.toNat count), status := 0 }, [])

/-- A line with its backslashes taken away, except where they count as text. -/
def unescapeLine (raw : Bool) : Text → Text
  | '\\' :: c :: rest =>
    if raw then '\\' :: c :: unescapeLine raw rest else c :: unescapeLine raw rest
  | c :: rest => c :: unescapeLine raw rest
  | [] => []

/-- Fields of a line given to variables: the last gets what is left. -/
def distribute : List Text → Text → Keyed Text → Keyed Text
  | [], _, environment => environment
  | [name], line, environment =>
    environment.set name (Text.dropEndWhile Text.isGap (Text.skipGap line))
  | name :: rest, line, environment =>
    let line := Text.skipGap line
    let field := line.takeWhile fun c => !Text.isGap c
    distribute rest (line.drop field.length) (environment.set name field)

def read : Builtin := fun state arguments =>
  let raw := arguments.contains ['-', 'r']
  let names := arguments.filter fun argument => argument.head? ≠ some '-'
  let line := state.input.takeWhile (· ≠ 10)
  let rest := state.input.drop line.length
  let text := unescapeLine raw (Octets.decodeLossy line)
  if names = [] then state.complain "read: arg count".toList 2
  else
    ({ state with
        environment := distribute names text state.environment
        input := rest.drop 1
        status := if rest = [] then 1 else 0 }, [])

def isSpecial (name : Text) : Bool :=
  ([":", "break", "continue", "eval", "exec", "exit", "export", "readonly", "return", "set",
    "shift", "unset"].map String.toList).contains name

def ofName? (name : Text) : Option Builtin :=
  let good : Builtin := fun state _ => (state.ending 0, [])
  let printing (utility : State → Utility) : Builtin := fun state arguments =>
    let effect := utility state arguments [] state.directory
    (state.ending effect.status, effect.chunks)
  let deciding (title : String) : Builtin :=
    printing fun state => test (state.speaker ++ title.toList)
  let bracket : Builtin := fun state arguments =>
    if (arguments.getLast?.bind List.head?) = some ']' then deciding "[" state arguments.dropLast
    else state.complain "[: missing ]".toList 2
  let builtins : List (String × Builtin) :=
    [(":", good), ("true", good), ("false", fun state _ => (state.ending 1, [])),
     ("exit", leave "exit" .ended), ("return", leave "return" .returning),
     ("break", leaveLoops "break" .breaking),
     ("continue", leaveLoops "continue" .continuing),
     ("kill", kill), ("export", declare), ("readonly", declare), ("local", declare),
     ("unset", unset), ("set", set), ("shift", shift), ("read", read),
     ("wait", fun state _ =>
       ({ state with status := 0, clock := max state.clock state.lingering }, [])),
     ("echo", printing fun _ arguments _ directory => .written (echo arguments) directory),
     ("printf", printing fun state => printfUtility state.speaker),
     ("test", deciding "test"), ("[", bracket)]
  (builtins.find? (·.1.toList = name)).map Prod.snd

end Builtin

end Dotenv.Shell
