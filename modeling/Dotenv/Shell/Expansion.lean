import Dotenv.Shell.Arithmetic
import Dotenv.Shell.State
/-!
# Expansion of words

The pieces of a word are replaced by text. What was not in quotes is then split at blanks,
and a field that is a pattern becomes the names of the files that match it.
-/

set_option autoImplicit false

namespace Dotenv.Shell

/-! ## Patterns of names

A pattern is matched against a whole text: a star stands for any text, a question mark for
any character, and brackets for one of some characters. A character that is not special
stands for itself. -/

inductive GlobItem where
  | char (c : Char)
  | one
  | many
  /-- One character that is in some ranges, or in none of them. -/
  | set (negated : Bool) (ranges : List (Char × Char))
deriving DecidableEq, Repr

abbrev Glob := List GlobItem

namespace Glob

def ranges : List (Char × Bool) → Option (List (Char × Char) × List (Char × Bool))
  | [] => none
  | (']', true) :: rest => some ([], rest)
  | (low, _) :: ('-', true) :: (high, special) :: rest =>
    if high = ']' ∧ special then some ([(low, low), ('-', '-')], rest)
    else (ranges rest).map fun found => ((low, high) :: found.1, found.2)
  | (c, _) :: rest => (ranges rest).map fun found => ((c, c) :: found.1, found.2)

def set? (text : List (Char × Bool)) : Option (GlobItem × List (Char × Bool)) :=
  let (negated, text) :=
    match text with
    | ('!', true) :: rest | ('^', true) :: rest => (true, rest)
    | _ => (false, text)
  let text :=
    match text with
    | (']', true) :: rest => (']', false) :: rest
    | _ => text
  (ranges text).map fun found => (.set negated found.1, found.2)

def ofChars : Nat → List (Char × Bool) → Glob
  | 0, _ => []
  | _ + 1, [] => []
  | fuel + 1, (c, special) :: rest =>
    if special ∧ c = '*' then .many :: ofChars fuel rest
    else if special ∧ c = '?' then .one :: ofChars fuel rest
    else if special ∧ c = '[' then
      match set? rest with
      | some (item, rest) => item :: ofChars fuel rest
      | none => .char c :: ofChars fuel rest
    else .char c :: ofChars fuel rest

def isSpecial (chars : List (Char × Bool)) : Bool :=
  (ofChars (chars.length + 1) chars).any fun item =>
    match item with
    | .char _ => false
    | _ => true

def isMatch : Glob → Text → Bool
  | [], text => text.isEmpty
  | .many :: rest, [] => isMatch rest []
  | .many :: rest, c :: text => isMatch rest (c :: text) || isMatch (.many :: rest) text
  | _ :: _, [] => false
  | .one :: rest, _ :: text => isMatch rest text
  | .char c :: rest, d :: text => c == d && isMatch rest text
  | .set negated ranges :: rest, c :: text =>
    (ranges.any (fun range => range.1 ≤ c && c ≤ range.2) != negated) && isMatch rest text
termination_by pattern text => pattern.length + text.length

/-- The length of the start of a text that matches a pattern: of the shortest or of the longest
such start. -/
def startLength? (pattern : Glob) (longest : Bool) (text : Text) : Option Nat :=
  let lengths := List.range (text.length + 1)
  (if longest then lengths.reverse else lengths).find? fun n => isMatch pattern (text.take n)

/-- The length of what is left in front of the end of a text that matches a pattern: of the
shortest or of the longest such end. -/
def endStart? (pattern : Glob) (longest : Bool) (text : Text) : Option Nat :=
  let starts := List.range (text.length + 1)
  (if longest then starts else starts.reverse).find? fun n => isMatch pattern (text.drop n)

end Glob

/-! ## Fields -/

inductive Glyph where
  | fixed (c : Char)
  | plain (c : Char)
  /-- From a variable outside quotes: the word may be split here. -/
  | soft (c : Char)
  /-- A pair of quotes, which makes a field even of nothing. -/
  | quotes
  | boundary
deriving DecidableEq, Repr

namespace Glyph

def char? : Glyph → Option Char
  | fixed c | plain c | soft c => some c
  | quotes => none
  | boundary => some ' '

def ofText (inQuotes : Bool) (text : Text) : List Glyph :=
  if inQuotes then quotes :: text.map fixed else text.map soft

def unsplit (glyphs : List Glyph) : Text := glyphs.filterMap char?

def fields : Option (List Glyph) → List Glyph → List (List Glyph)
  | none, [] => []
  | some field, [] => [field]
  | field, glyph :: rest =>
    match glyph with
    | .boundary => field.toList ++ fields none rest
    | .soft c =>
      if c = ' ' ∨ c = '\t' ∨ c = '\n' then field.toList ++ fields none rest
      else fields (some (field.getD [] ++ [glyph])) rest
    | _ => fields (some (field.getD [] ++ [glyph])) rest

def chars (glyphs : List Glyph) : List (Char × Bool) :=
  glyphs.filterMap fun glyph =>
    match glyph with
    | fixed c => some (c, false)
    | plain c | soft c => some (c, true)
    | quotes | boundary => none

def glob (glyphs : List Glyph) : Glob := Glob.ofChars (glyphs.length + 1) (chars glyphs)

/-- The names that a field stands for in a directory: those that match it when it is a pattern, and
itself when none does. -/
def names (directory : Directory) (glyphs : List Glyph) : List Text :=
  let isHidden (name : Text) : Bool := name.head? = some '.' && (unsplit glyphs).head? ≠ some '.'
  let found :=
    if Glob.isSpecial (chars glyphs) then
      ((Keyed.keys directory).filter fun name => !isHidden name && (glob glyphs).isMatch name)
    else []
  if found = [] then [unsplit glyphs] else found.mergeSort Text.le

end Glyph

def written (chunks : List Chunk) (stream : Nat) : Octets :=
  (chunks.filter (·.stream = stream)).flatMap Chunk.octets

structure Inner where
  text : State → Text → State × List Chunk
  script : State → Script → State × List Chunk
  word : State → Bool → Text → List Glyph × State × List Chunk

namespace State

def valueOf? (state : State) (name : Text) : Option Text :=
  if name = ['?'] then some (Text.ofNat state.status)
  else if name = ['$'] then some process
  else if name = ['!'] then some background
  else if name = ['-'] then
    some ((if state.strict then ['e'] else []) ++ if state.demanding then ['u'] else [])
  else if name = ['0'] then some state.name
  else if name = ['#'] then some (Text.ofNat state.arguments.length)
  else if name = ['@'] ∨ name = ['*'] then some (Text.join [' '] state.arguments)
  else if name ≠ [] ∧ name.all Char.isDigit then state.arguments[Text.toNat name - 1]?
  else state.environment.get? name

def setVariable (state : State) (name text : Text) : State :=
  { state with environment := state.environment.set name text }

end State

def unchanged (state : State) (glyphs : List Glyph) : List Glyph × State × List Chunk :=
  (glyphs, state, [])

def failing (state : State) (message : Text) : List Glyph × State × List Chunk :=
  ([], state.fail message)

def argumentGlyphs (inQuotes : Bool) : List Text → List Glyph
  | [] => []
  | [argument] => Glyph.ofText inQuotes argument
  | argument :: rest =>
    Glyph.ofText inQuotes argument ++ .boundary :: argumentGlyphs inQuotes rest

def plainValue (state : State) (name : Text) (inQuotes : Bool) : List Glyph × State × List Chunk :=
  if name = ['@'] ∨ (name = ['*'] ∧ !inQuotes) then
    unchanged state (argumentGlyphs inQuotes state.arguments)
  else
    match state.valueOf? name with
    | some text => unchanged state (Glyph.ofText inQuotes text)
    | none =>
      if state.demanding then failing state (name ++ ": parameter not set".toList)
      else unchanged state (Glyph.ofText inQuotes [])

def changedValue (inner : Inner) (state : State) (name : Text) (inQuotes : Bool)
    (change : Change) : List Glyph × State × List Chunk :=
  let text := state.valueOf? name
  let isSet (emptyToo : Bool) : Bool := if emptyToo then text.any (· ≠ []) else text.isSome
  let own := unchanged state (Glyph.ofText inQuotes (text.getD []))
  let other (word : Text) : List Glyph × State × List Chunk := inner.word state inQuotes word
  match change with
  | .orElse emptyToo word => if isSet emptyToo then own else other word
  | .ifSet emptyToo word =>
    if isSet emptyToo then other word else unchanged state (Glyph.ofText inQuotes [])
  | .orSet emptyToo word =>
    if isSet emptyToo then own
    else
      let (glyphs, state, chunks) := other word
      let text := Glyph.unsplit glyphs
      (Glyph.ofText inQuotes text, state.setVariable name text, chunks)
  | .orFail emptyToo word =>
    if isSet emptyToo then own
    else
      let (glyphs, state, chunks) := other word
      let reason :=
        if word ≠ [] then Glyph.unsplit glyphs
        else if emptyToo then "parameter not set or null".toList
        else "parameter not set".toList
      let (state, complaints) := state.fail (name ++ ": ".toList ++ reason)
      ([], state, chunks ++ complaints)
  | .length =>
    unchanged state (Glyph.ofText inQuotes (Text.ofNat (text.getD []).length))
  | .dropStart longest pattern =>
    let (glyphs, state, chunks) := inner.word state false pattern
    let whole := text.getD []
    let length := Glob.startLength? (Glyph.glob glyphs) longest whole
    (Glyph.ofText inQuotes (whole.drop (length.getD 0)), state, chunks)
  | .dropEnd longest pattern =>
    let (glyphs, state, chunks) := inner.word state false pattern
    let whole := text.getD []
    let length := Glob.endStart? (Glyph.glob glyphs) longest whole
    (Glyph.ofText inQuotes (whole.take (length.getD whole.length)), state, chunks)
  | .unknown => failing state "Bad substitution".toList

def expandPiece (inner : Inner) (state : State) : Piece → List Glyph × State × List Chunk
  | .bare text => unchanged state (text.map .plain)
  | .quoted text => unchanged state (.quotes :: text.map .fixed)
  | .variable name inQuotes none => plainValue state name inQuotes
  | .variable name inQuotes (some change) => changedValue inner state name inQuotes change
  | .output script inQuotes =>
    let (ended, chunks) := inner.text { state with tested := false } script
    let text := Text.dropEndWhile (· = '\n') (Octets.decodeLossy (written chunks 1))
    (Glyph.ofText inQuotes text, state.afterInner ended, chunks.filter (·.stream ≠ 1))
  | .number expression inQuotes =>
    let (glyphs, state, chunks) := inner.word state true expression
    let expression := Glyph.unsplit glyphs
    match Arithmetic.evaluate state.environment expression with
    | .ok (environment, value) =>
      (Glyph.ofText inQuotes (Text.ofInt value), { state with environment }, chunks)
    | .error fault =>
      let (state, complaints) := state.fail (fault.message expression)
      ([], state, chunks ++ complaints)

/-- A word with its pieces replaced. Nothing is done after a failure. -/
def expand (inner : Inner) : State → Word → List Glyph × State × List Chunk
  | state, [] => unchanged state []
  | state, piece :: rest =>
    let (glyphs, state, chunks) := expandPiece inner state piece
    if state.goesOn then
      let (more, state, others) := expand inner state rest
      (glyphs ++ more, state, chunks ++ others)
    else (glyphs, state, chunks)

/-- Words in the place of a variable outside quotes: they may be split where they stand bare. -/
def soften (glyphs : List Glyph) : List Glyph :=
  glyphs.map fun glyph =>
    match glyph with
    | .plain c => .soft c
    | glyph => glyph

def expandWhole (inner : Inner) (state : State) (word : Word) : Text × State × List Chunk :=
  let (glyphs, state, chunks) := expand inner state word
  (Glyph.unsplit glyphs, state, chunks)

def expandAll (inner : Inner) : State → List Word → List Text × State × List Chunk
  | state, [] => ([], state, [])
  | state, word :: rest =>
    let (glyphs, state, chunks) := expand inner state word
    if state.goesOn then
      let (more, state, others) := expandAll inner state rest
      ((Glyph.fields none glyphs).flatMap (Glyph.names state.directory) ++ more, state,
        chunks ++ others)
    else ([], state, chunks)

end Dotenv.Shell
