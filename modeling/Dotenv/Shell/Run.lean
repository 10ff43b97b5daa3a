import Dotenv.Action.Basic
import Dotenv.Shell.Builtin
import Dotenv.Shell.Reader
/-!
# Running scripts

A script is run from left to right. What it writes is a list of chunks, so that a
redirection can send each to its place. Commands made of others, functions, and scripts
inside words are run with one step less of a given number of steps; a script that uses them
up counts as one that never ends.
-/

set_option autoImplicit false

namespace Dotenv.Shell

/-! ## Redirections

Where the streams of a command go: to those of the whole, or to files. What was written is
sent to its places when the command has ended. -/

/-- Where a stream goes: to another stream of the whole, or to a file. -/
inductive Target where
  | stream (number : Nat)
  | file (name : Text)
deriving DecidableEq, Repr

/-- The streams of a command, with what it reads when that is not what is left to read. -/
structure Plumbing where
  input : Option Octets
  output : Target
  errors : Target
deriving DecidableEq, Repr

namespace Plumbing

def straight : Plumbing := ⟨none, .stream 1, .stream 2⟩

def target (plumbing : Plumbing) (stream : Nat) : Target :=
  if stream = 2 then plumbing.errors else plumbing.output

def send (plumbing : Plumbing) (stream : Nat) (target : Target) : Plumbing :=
  if stream = 2 then { plumbing with errors := target }
  else if stream = 1 then { plumbing with output := target }
  else plumbing

def unwritable? (name : Text) : Option Text :=
  let name := (Text.dropStart? ['.', '/'] name).getD name
  if isPlace name then some "Is a directory".toList
  else if name = [] ∨ name.contains '/' ∧ name ≠ "/dev/null".toList then
    some "Directory nonexistent".toList
  else none

/-- One redirection: the streams after it and the directory, or a complaint. -/
def redirect (plumbing : Plumbing) (directory : Directory) (stream : Nat) (direction : Direction)
    (name : Text) : Except Text (Plumbing × Directory) :=
  let file := (Text.dropStart? ['.', '/'] name).getD name
  let writing (octets : Octets) : Except Text (Plumbing × Directory) :=
    match unwritable? name with
    | some reason => .error ("cannot create ".toList ++ name ++ ": ".toList ++ reason)
    | none =>
      .ok (plumbing.send stream (.file file),
        if name = "/dev/null".toList then directory else directory.set file octets)
  match direction with
  | .duplicate =>
    match name with
    | [c] =>
      if c = '1' ∨ c = '2' then
        .ok (plumbing.send stream (plumbing.target (c.toNat - '0'.toNat)), directory)
      else .ok (plumbing, directory)
    | _ => .ok (plumbing, directory)
  | .document => .ok ({ plumbing with input := some (Octets.ofText name) }, directory)
  | .read =>
    match contents? directory name with
    | some octets => .ok ({ plumbing with input := some octets }, directory)
    | none => .error ("cannot open ".toList ++ name ++ ": No such file".toList)
  | .write => writing []
  | .append => writing ((directory.get? file).getD [])

/-- Redirections from left to right: the streams and the state after them, or a complaint. -/
def redirectAll (inner : Inner) : Plumbing → State → List Redirection →
    Except Text Plumbing × State × List Chunk
  | plumbing, state, [] => (.ok plumbing, state, [])
  | plumbing, state, redirection :: rest =>
    let (name, state, chunks) := expandWhole inner state redirection.target
    match
      plumbing.redirect state.directory redirection.stream redirection.direction name with
    | .error message => (.error message, state, chunks)
    | .ok (plumbing, directory) =>
      let (found, state, others) := redirectAll inner plumbing { state with directory } rest
      (found, state, chunks ++ others)

/-- Chunks sent where their streams go: those that stay, and the directory. -/
def deliver (plumbing : Plumbing) : List Chunk → Directory → List Chunk × Directory
  | [], directory => ([], directory)
  | chunk :: rest, directory =>
    match plumbing.target chunk.stream with
    | .stream number =>
      let (kept, directory) := deliver plumbing rest directory
      (⟨number, chunk.octets⟩ :: kept, directory)
    | .file name =>
      if name = "/dev/null".toList then deliver plumbing rest directory
      else
        deliver plumbing rest
          (Keyed.set name ((Keyed.get? name directory).getD [] ++ chunk.octets) directory)

end Plumbing

/-! ## Scripts -/

def assignment? : Word → Option (Text × Word)
  | .bare text :: rest =>
    let name := text.takeWhile isNameChar
    match text.dropWhile isNameChar, name.head? with
    | '=' :: value, some c => if isNameStart c then some (name, .bare value :: rest) else none
    | _, _ => none
  | _ => none

/-- The variables that the first words set, and the words after them. -/
def assignments : List Word → List (Text × Word) × List Word
  | [] => ([], [])
  | word :: rest =>
    match assignment? word with
    | none => ([], word :: rest)
    | some found =>
      let (more, words) := assignments rest
      (found :: more, words)

def assign (inner : Inner) : State → List (Text × Word) → State × List Chunk
  | state, [] => (state, [])
  | state, (name, value) :: rest =>
    let (text, state, chunks) := expandWhole inner state value
    if state.goesOn then
      let (state, others) := assign inner (state.setVariable name text) rest
      (state, chunks ++ others)
    else (state, chunks)

def never : Nat := tenPow 15

def State.endless (state : State) : State := { state with clock := never, flow := .ended }

def callFunction (inner : Inner) (state : State) (body : Stage) (arguments : List Text) :
    State × List Chunk :=
  let (ended, chunks) :=
    inner.script { state with arguments, loops := 0 } [.mk .always false [body] false]
  ({ ended with
      arguments := state.arguments, loops := state.loops
      flow := if ended.flow = .returning then .onward else ended.flow }, chunks)

def runProgram (state : State) (name : Text) (arguments : List Text) : State × List Chunk :=
  match utility? (programName name) with
  | some utility =>
    let effect := utility arguments state.input state.directory
    ({ state with
        directory := effect.directory, status := effect.status
        clock := state.clock + effect.slept
        input := if effect.reads then [] else state.input }, effect.chunks)
  | none =>
    if name = [] then state.complain ": Permission denied".toList 127
    else if isPlace name then state.complain (name ++ ": Permission denied".toList) 126
    else state.complain (name ++ ": not found".toList) 127

def runPlain (state : State) (name : Text) (arguments : List Text) : State × List Chunk :=
  match Builtin.ofName? name with
  | some builtin =>
    let (ended, chunks) := builtin { state with speaking := [] } arguments
    ({ ended with speaking := state.speaking }, chunks)
  | none => runProgram state name arguments

def describe (state : State) (name : Text) : State × List Chunk :=
  let print (text : Text) : State × List Chunk :=
    (state.ending 0, [⟨1, Octets.ofText (text ++ ['\n'])⟩])
  if (Builtin.ofName? name).isSome ∨ (state.functions.get? name).isSome then print name
  else if (utility? name).isSome then print ("/usr/bin/".toList ++ name)
  else (state.ending 127, [])

def isShell (name : Text) : Bool :=
  (["sh", "dash", "bash", "ash"].map String.toList).contains (programName name)

def scriptOf (name : Text) : List Text → Text × Text × List Text
  | ['-', 'c'] :: script :: own :: arguments => (script, own, arguments)
  | ['-', 'c'] :: script :: [] => (script, name, [])
  | _ => ([], name, [])

def runShell (inner : Inner) (state : State) (name : Text) (arguments : List Text) :
    State × List Chunk :=
  let (script, name, arguments) := scriptOf name arguments
  let fresh := State.start name arguments state.environment state.directory
  let (ended, chunks) :=
    inner.text
      { fresh with input := state.input, clock := state.clock, lingering := state.lingering } script
  (state.afterInner ended, chunks)

def runCommand (inner : Inner) (state : State) (name : Text) (arguments : List Text) :
    State × List Chunk :=
  match if Builtin.isSpecial name then none else state.functions.get? name with
  | some body => callFunction inner state body arguments
  | none =>
    if name = "eval".toList then
      let (ended, chunks) :=
        inner.text { state with status := 0, speaking := "eval: ".toList }
          (Text.join [' '] arguments)
      ({ ended with speaking := state.speaking, line := state.line }, chunks)
    else if name = "exec".toList then
      match arguments with
      | [] => (state.ending 0, [])
      | name :: arguments =>
        if (utility? (programName name)).isSome then
          let (ended, chunks) := runProgram state name arguments
          ({ ended with flow := .ended }, chunks)
        else
          let (ended, chunks) :=
            state.complain ("exec: ".toList ++ name ++ ": not found".toList) 127
          ({ ended with flow := .ended }, chunks)
    else if name = "command".toList then
      match arguments with
      | [] => (state.ending 0, [])
      | ['-', 'v'] :: name :: _ => describe state name
      | name :: arguments => runPlain state name arguments
    else if isShell name then runShell inner state name arguments
    else runPlain state name arguments

def runsScript (word : Word) : Bool :=
  word.any fun piece =>
    match piece with
    | .output _ _ => true
    | _ => false

def redirected (inner : Inner) (state : State) (redirections : List Redirection) (isFirm : Bool)
    (run : State → State × List Chunk) : State × List Chunk :=
  match Plumbing.redirectAll inner .straight state redirections with
  | (.error message, state, before) =>
    let (ended, chunks) := if isFirm then state.fail message else state.complain message 2
    (ended, before ++ chunks)
  | (.ok plumbing, state, before) =>
    if !state.goesOn then (state, before)
    else
      let (ended, chunks) := run { state with input := plumbing.input.getD state.input }
      let (kept, directory) := plumbing.deliver chunks ended.directory
      ({ ended with
          directory, input := if plumbing.input.isSome then state.input else ended.input },
        before ++ kept)

def runFields (inner : Inner) (state : State) (settings : List (Text × Word)) (name : Text)
    (arguments : List Text) : State × List Chunk :=
  let (set, before) := assign inner state settings
  if !set.goesOn then (set, before)
  else
    let (ended, chunks) := runCommand inner set name arguments
    let environment :=
      if settings = [] ∨ Builtin.isSpecial name then ended.environment else state.environment
    ({ ended with environment }, before ++ chunks)

/-- Words with settings in front of them. Without a command the status is that of the last script
that was run for a word. -/
def runSimple (inner : Inner) (state : State) (words : List Word)
    (redirections : List Redirection) : State × List Chunk :=
  let (settings, words) := assignments words
  let (fields, state, before) := expandAll inner state words
  if !state.goesOn then (state, before)
  else
    let isFirm := fields.head?.any Builtin.isSpecial
    let (ended, chunks) :=
      redirected inner state redirections isFirm fun state =>
        match fields with
        | [] => assign inner (if words.any runsScript then state else state.ending 0) settings
        | name :: arguments => runFields inner state settings name arguments
    (ended, before ++ chunks)

/-- The way on after the body of a loop: none, when the loop is left. -/
def afterBody (state : State) : Option State :=
  match state.flow with
  | .onward => some state
  | .continuing 1 => some { state with flow := .onward }
  | _ => none

def afterLoop (loops : Nat) (state : State) : State :=
  let flow :=
    match state.flow with
    | .breaking (n + 2) => .breaking (n + 1)
    | .continuing (n + 2) => .continuing (n + 1)
    | .breaking _ | .continuing _ => .onward
    | flow => flow
  { state with flow, loops }

def runEach (inner : Inner) (name : Text) (body : Script) :
    State → List Text → State × List Chunk
  | state, [] => (state, [])
  | state, word :: rest =>
    let (ended, chunks) := inner.script (state.setVariable name word) body
    match afterBody ended with
    | none => (ended, chunks)
    | some state =>
      let (state, others) := runEach inner name body state rest
      (state, chunks ++ others)

/-- A script run while another one ends well, or until it does, with what was written before. -/
def runLoop (inner : Inner) (untilGood : Bool) (test body : Script) :
    Nat → State → Nat → List (List Chunk) → State × List Chunk
  | 0, state, _, chunks => (state.endless, chunks.reverse.flatten)
  | fuel + 1, state, status, chunks =>
    let (decided, before) := inner.script { state with tested := true } test
    let decided := { decided with tested := state.tested }
    let chunks := before :: chunks
    if !decided.goesOn then (decided, chunks.reverse.flatten)
    else if (decided.status = 0) = untilGood then
      (decided.ending status, chunks.reverse.flatten)
    else
      let (ended, after) := inner.script decided body
      match afterBody ended with
      | none => (ended, (after :: chunks).reverse.flatten)
      | some state => runLoop inner untilGood test body fuel state state.status (after :: chunks)

def runCases (inner : Inner) (text : Text) : State → List Case → State × List Chunk
  | state, [] => (state.ending 0, [])
  | state, .mk patterns body :: rest =>
    let isMatch := patterns.any fun pattern =>
      (Glyph.glob (expand inner state pattern).1).isMatch text
    if isMatch then
      if body.isEmpty then (state.ending 0, []) else inner.script state body
    else runCases inner text state rest

def Compound.countsLine : Compound → Bool
  | subshell _ | each _ _ _ | select _ _ => true
  | block _ | choice _ _ _ | loop _ _ _ => false

def runCompound (inner : Inner) (steps : Nat) (state : State) : Compound → State × List Chunk
  | .subshell body =>
    let (ended, chunks) := inner.script state body
    (state.afterInner ended, chunks)
  | .block body => inner.script state body
  | .choice test body otherwise =>
    let (decided, before) := inner.script { state with tested := true } test
    let decided := { decided with tested := state.tested }
    if !decided.goesOn then (decided, before)
    else
      let chosen := if decided.status = 0 then body else otherwise
      if chosen.isEmpty then (decided.ending 0, before)
      else
        let (ended, chunks) := inner.script decided chosen
        (ended, before ++ chunks)
  | .loop untilGood test body =>
    let (ended, chunks) :=
      runLoop inner untilGood test body steps { state with loops := state.loops + 1 } 0 []
    (afterLoop state.loops ended, chunks)
  | .each name words body =>
    let (fields, state, before) :=
      match words with
      | none => (state.arguments, state, [])
      | some words => expandAll inner state words
    if !state.goesOn then (state, before)
    else
      let inLoop := { state with loops := state.loops + 1, status := 0 }
      let (ended, chunks) := runEach inner name body inLoop fields
      (afterLoop state.loops ended, before ++ chunks)
  | .select word cases =>
    let (text, state, before) := expandWhole inner state word
    if !state.goesOn then (state, before)
    else
      let (ended, chunks) := runCases inner text state cases
      (ended, before ++ chunks)

def runStage (inner : Inner) (steps : Nat) (state : State) : Stage → State × List Chunk
  | .simple line words redirections =>
    runSimple inner { state with line } words redirections
  | .compound line body redirections =>
    let state := if redirections = [] ∧ !body.countsLine then state else { state with line }
    redirected inner state redirections false fun state => runCompound inner steps state body
  | .function name body =>
    ({ state with functions := state.functions.set name body, status := 0 }, [])

/-- Stages joined by pipes, each in a shell of its own unless there is only one. They sleep side
by side. -/
def runPipeline (inner : Inner) (steps : Nat) : State → List Stage → State × List Chunk
  | state, [] => (state, [])
  | state, [stage] => runStage inner steps state stage
  | state, stage :: rest =>
    let (ended, chunks) := runStage inner steps state stage
    let next :=
      { state with
        directory := ended.directory, input := written chunks 1
        flow := if ended.flow = .killed then .killed else state.flow }
    let (last, others) := runPipeline inner steps next rest
    ({ state.afterInner last with
        clock := max ended.clock last.clock, lingering := max ended.lingering last.lingering
        input := ended.input },
      chunks.filter (·.stream ≠ 1) ++ others)

/-- Whether a pipeline that fails can end the script: the commands in a command made of others have
had their say already. -/
def isJudged : List Stage → Bool
  | [.compound _ body _] =>
    match body with
    | .subshell _ => true
    | _ => false
  | [.function _ _] => false
  | _ => true

def runEntry (inner : Inner) (steps : Nat) (state : State) (isDecisive : Bool) :
    Entry → State × List Chunk
  | .mk _ negated stages inBackground =>
    let tested := state.tested || isDecisive || negated
    let (ended, chunks) := runPipeline inner steps { state with tested } stages
    let ended :=
      if inBackground then
        let after := state.afterInner ended
        { after with
          status := 0, clock := state.clock, lingering := max ended.clock ended.lingering }
      else { ended with tested := state.tested }
    let ended := if negated then ended.ending (if ended.status = 0 then 1 else 0) else ended
    let ends :=
      ended.strict && !tested && isJudged stages && ended.status ≠ 0 && ended.goesOn
    (if ends then { ended with flow := .ended } else ended, chunks)

def runAll (inner : Inner) (steps : Nat) : State → Script → State × List Chunk
  | state, [] => (state, [])
  | state, entry :: rest =>
    let due :=
      match entry.condition with
      | .always => true
      | .afterSuccess => state.status = 0
      | .afterFailure => state.status ≠ 0
    if !state.goesOn || !due then runAll inner steps state rest
    else
      let isDecisive := rest.head?.any fun next => next.condition ≠ .always
      let (state, chunks) := runEntry inner steps state isDecisive entry
      let (state, others) := runAll inner steps state rest
      (state, chunks ++ others)

def runLines (inner : Inner) : State → List Script → State × List Chunk
  | state, [] => (state, [])
  | state, line :: rest =>
    let (state, chunks) := inner.script state line
    if state.goesOn then
      let (state, others) := runLines inner state rest
      (state, chunks ++ others)
    else (state, chunks)

mutual

/-- The text of a script run. What is misspelled is complained of when it is reached. -/
def runText : Nat → State → Text → State × List Chunk
  | 0, state, _ => (state.endless, [])
  | steps + 1, state, text =>
    let inner : Inner := ⟨runText steps, runScript steps, expandText steps⟩
    let (lines, misspelling) := read text
    let (state, chunks) := runLines inner state lines
    match misspelling with
    | some (line, misspelling) =>
      if state.goesOn then
        let (ended, complaints) :=
          { state with line }.fail ("Syntax error: ".toList ++ misspelling.message)
        (ended, chunks ++ complaints)
      else (state, chunks)
    | none => (state, chunks)

def runScript : Nat → State → Script → State × List Chunk
  | 0, state, _ => (state.endless, [])
  | steps + 1, state, script =>
    runAll ⟨runText steps, runScript steps, expandText steps⟩ (steps + 1) state script

def expandText : Nat → State → Bool → Text → List Glyph × State × List Chunk
  | 0, state, _, _ => ([], state.endless, [])
  | steps + 1, state, inQuotes, text =>
    let inner : Inner := ⟨runText steps, runScript steps, expandText steps⟩
    match if inQuotes then quotedWordOf text else wordOf text with
    | .ok pieces =>
      let (glyphs, state, chunks) := expand inner state pieces
      (if inQuotes then .quotes :: glyphs else soften glyphs, state, chunks)
    | .error misspelling => failing state ("Syntax error: ".toList ++ misspelling.message)

end

def outcomeOf (limit : Nat) (state : State) (chunks : List Chunk) : Outcome :=
  if limit ≤ max state.clock state.lingering then .timedOut
  else
    .ended (if state.flow = .killed then none else some state.status) (written chunks 1)
      (written chunks 2)

/-- How many steps a script may take one inside the other or one after the other. -/
def allSteps : Nat := 20000

/-- A command carried out in a directory: what becomes of it, and of the directory. -/
def carryOut (command : Command) (directory : Directory) : Outcome × Directory :=
  if isShell command.program then
    let (script, name, arguments) := scriptOf command.program command.arguments
    let state := State.start name arguments command.environment directory
    let (ended, chunks) := runText allSteps state script
    (outcomeOf command.limit ended chunks, ended.directory)
  else
    match utility? (programName command.program) with
    | some utility =>
      let effect := utility command.arguments [] directory
      let state := State.start command.program [] command.environment directory
      let ended := { state with status := effect.status, clock := effect.slept }
      (outcomeOf command.limit ended effect.chunks, effect.directory)
    | none => (.notStarted "No such file or directory (os error 2)".toList, directory)

end Dotenv.Shell
