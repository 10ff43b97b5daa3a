import Dotenv.Text.Basic
/-!
# Scripts

What a script of the shell is made of: words in pieces, commands with redirections,
commands made of others, pipelines, and lists of those. A script inside a word is kept as
text and read when it is run.
-/

set_option autoImplicit false

namespace Dotenv.Shell

/-- How the text of a variable is changed before it is used. Where `emptyToo` holds, the empty
text counts as no text. -/
inductive Change where
  /-- A word in the place of no text. -/
  | orElse (emptyToo : Bool) (word : Text)
  | ifSet (emptyToo : Bool) (word : Text)
  /-- A word in the place of no text, which the variable keeps. -/
  | orSet (emptyToo : Bool) (word : Text)
  /-- A complaint in the place of no text. -/
  | orFail (emptyToo : Bool) (word : Text)
  | length
  | dropStart (longest : Bool) (pattern : Text)
  | dropEnd (longest : Bool) (pattern : Text)
  /-- None that there is. -/
  | unknown
deriving DecidableEq, Repr

inductive Piece where
  | bare (text : Text)
  | quoted (text : Text)
  | variable (name : Text) (inQuotes : Bool) (change : Option Change)
  | output (script : Text) (inQuotes : Bool)
  | number (expression : Text) (inQuotes : Bool)
deriving DecidableEq, Repr

abbrev Word := List Piece

inductive Direction where
  | read
  | write
  | append
  /-- To where another stream goes. -/
  | duplicate
  | document
deriving DecidableEq, Repr

structure Redirection where
  stream : Nat
  direction : Direction
  target : Word
deriving DecidableEq, Repr

inductive Condition where
  | always
  | afterSuccess
  | afterFailure
deriving DecidableEq, Repr

mutual

inductive Stage where
  /-- Words on a line, of which the first that sets no variable is the command. -/
  | simple (line : Nat) (words : List Word) (redirections : List Redirection)
  | compound (line : Nat) (body : Compound) (redirections : List Redirection)
  | function (name : Text) (body : Stage)

inductive Compound where
  | subshell (body : List Entry)
  | block (body : List Entry)
  | choice (test body otherwise : List Entry)
  /-- A script run while another one ends well, or until it does. -/
  | loop (untilGood : Bool) (test body : List Entry)
  | each (name : Text) (words : Option (List Word)) (body : List Entry)
  | select (word : Word) (cases : List Case)

inductive Case where
  | mk (patterns : List Word) (body : List Entry)

inductive Entry where
  | mk (condition : Condition) (negated : Bool) (stages : List Stage) (inBackground : Bool)

end

abbrev Script := List Entry

def Entry.condition : Entry → Condition
  | mk condition _ _ _ => condition

def Entry.background : Entry → Entry
  | mk condition negated stages _ => mk condition negated stages true

inductive Misspelling where
  | unclosedQuote
  | unclosedBrace
  | unclosedArithmetic
  | badVariable
  /-- What was found, and what should stand there when only one thing should. -/
  | unexpected (found expected : Text)
deriving DecidableEq, Repr

def Misspelling.message : Misspelling → Text
  | unclosedQuote => "Unterminated quoted string".toList
  | unclosedBrace => "Missing '\x7d'".toList
  | unclosedArithmetic => "Missing '))'".toList
  | badVariable => "Bad for loop variable".toList
  | unexpected found [] => found ++ " unexpected".toList
  | unexpected found expected =>
    found ++ " unexpected (expecting ".toList ++ expected ++ [')']

/-! ## Words -/

def isNameStart (c : Char) : Bool := c.isAlpha || c == '_'

def isNameChar (c : Char) : Bool := c.isAlphanum || c == '_'

def isName (text : Text) : Bool := text.head?.any isNameStart && text.all isNameChar

def endsWord (c : Char) : Bool := [' ', '\t', '\n', ';', '&', '|', '<', '>', '(', ')'].contains c

/-- Whether a character is a variable of its own after a dollar sign. -/
def isSpecialName (c : Char) : Bool :=
  c.isDigit || ['?', '$', '#', '@', '*', '!', '-'].contains c

def upTo? (mark : Char) (text : Text) : Option (Text × Text) :=
  match text.dropWhile (· ≠ mark) with
  | [] => none
  | _ :: rest => some (text.takeWhile (· ≠ mark), rest)

/-- A text up to the bracket that closes it, with what follows the bracket. A bracket in quotes or
after a backslash does not count. -/
def nested? (opening closing : Char) : Nat → Bool → Bool → Text → Option (Text × Text)
  | _, _, _, [] => none
  | depth, inSingle, inDouble, '\\' :: c :: rest =>
    if inSingle then
      (nested? opening closing depth (c ≠ '\'') inDouble rest).map
        fun found => ('\\' :: c :: found.1, found.2)
    else
      (nested? opening closing depth false inDouble rest).map
        fun found => ('\\' :: c :: found.1, found.2)
  | depth, inSingle, inDouble, c :: rest =>
    let go (depth : Nat) (inSingle inDouble : Bool) :=
      (nested? opening closing depth inSingle inDouble rest).map
        fun found => (c :: found.1, found.2)
    if inSingle then go depth (c ≠ '\'') inDouble
    else if c = '\'' ∧ !inDouble then go depth true inDouble
    else if c = '"' then go depth false !inDouble
    else if inDouble then go depth false true
    else if c = closing then
      match depth with
      | 0 => some ([], rest)
      | depth + 1 => go depth false false
    else if c = opening then go (depth + 1) false false
    else go depth false false

/-- The change that an operator with its word asks for, after a colon or without one. -/
def worded? (emptyToo : Bool) : Text → Option Change
  | '-' :: word => some (.orElse emptyToo word)
  | '+' :: word => some (.ifSet emptyToo word)
  | '=' :: word => some (.orSet emptyToo word)
  | '?' :: word => some (.orFail emptyToo word)
  | _ => none

def changeOf : Text → Option Change
  | [] => none
  | '#' :: '#' :: pattern => some (.dropStart true pattern)
  | '#' :: pattern => some (.dropStart false pattern)
  | '%' :: '%' :: pattern => some (.dropEnd true pattern)
  | '%' :: pattern => some (.dropEnd false pattern)
  | ':' :: rest => some ((worded? true rest).getD .unknown)
  | rest => some ((worded? false rest).getD .unknown)

def nameAndRest (text : Text) : Text × Text :=
  match text with
  | c :: rest =>
    if isNameStart c then (text.takeWhile isNameChar, text.dropWhile isNameChar)
    else if c.isDigit then (text.takeWhile Char.isDigit, text.dropWhile Char.isDigit)
    else if isSpecialName c then ([c], rest)
    else ([], text)
  | [] => ([], [])

def braced (inQuotes : Bool) (inner : Text) : Piece :=
  match inner with
  | '#' :: c :: rest =>
    if (nameAndRest (c :: rest)).2 = [] then .variable (c :: rest) inQuotes (some .length)
    else .variable ['#'] inQuotes (changeOf (c :: rest))
  | _ =>
    match nameAndRest inner with
    | ([], _) => .variable [] inQuotes (some .unknown)
    | (name, after) => .variable name inQuotes (changeOf after)

/-- An arithmetic expression, when what stands in parentheses stands in two pairs of them. -/
def arithmetic? : Text → Option Text
  | '(' :: rest => Text.dropFinish? [')'] rest
  | _ => none

def dollar (inQuotes : Bool) (text : Text) : Except Misspelling (Piece × Text) :=
  match text with
  | '(' :: rest =>
    match rest.head? == some '(', nested? '(' ')' 0 false false rest with
    | true, some (script, rest) =>
      match arithmetic? script with
      | some expression => .ok (.number expression inQuotes, rest)
      | none => .error .unclosedArithmetic
    | true, none => .error .unclosedArithmetic
    | false, some (script, rest) => .ok (.output script inQuotes, rest)
    | false, none => .error (.unexpected "end of file".toList ['"', ')', '"'])
  | '\x7b' :: rest =>
    match nested? '\x7b' '\x7d' 0 false false rest with
    | some (inner, rest) => .ok (braced inQuotes inner, rest)
    | none => .error (if inQuotes then .unclosedQuote else .unclosedBrace)
  | c :: rest =>
    if isNameStart c then
      .ok (.variable (text.takeWhile isNameChar) inQuotes none, text.dropWhile isNameChar)
    else if isSpecialName c then .ok (.variable [c] inQuotes none, rest)
    else .ok (.quoted ['$'], text)
  | [] => .ok (.quoted ['$'], [])

/-- The pieces up to a double quote, or up to the end where a double quote is text like any. -/
def doubleQuoted (closes : Bool) : Nat → Text → Except Misspelling (Word × Text)
  | 0, _ => .error .unclosedQuote
  | _ + 1, [] => if closes then .error .unclosedQuote else .ok ([], [])
  | fuel + 1, '\\' :: c :: rest => do
    let (more, rest) ← doubleQuoted closes fuel rest
    let text : Text :=
      if c = '\n' then []
      else if ['$', '\x60', '\\'].contains c ∨ (closes ∧ c = '"') then [c]
      else ['\\', c]
    .ok (.quoted text :: more, rest)
  | fuel + 1, '$' :: rest => do
    let (piece, rest) ← dollar true rest
    let (more, rest) ← doubleQuoted closes fuel rest
    .ok (piece :: more, rest)
  | fuel + 1, c :: rest =>
    if closes ∧ c = '"' then .ok ([], rest)
    else if c = '\x60' then
      match upTo? '\x60' rest with
      | none => .error .unclosedQuote
      | some (script, rest) => do
        let (more, rest) ← doubleQuoted closes fuel rest
        .ok (.output script true :: more, rest)
    else do
      let (more, rest) ← doubleQuoted closes fuel rest
      .ok (.quoted [c] :: more, rest)

def word (ends : Char → Bool) : Nat → Text → Except Misspelling (Word × Text)
  | 0, text => .ok ([], text)
  | _ + 1, [] => .ok ([], [])
  | fuel + 1, c :: rest =>
    let after (piece : Piece) (rest : Text) : Except Misspelling (Word × Text) := do
      let (more, rest) ← word ends fuel rest
      .ok (piece :: more, rest)
    if ends c then .ok ([], c :: rest)
    else if c = '\'' then
      match upTo? '\'' rest with
      | none => .error .unclosedQuote
      | some (text, rest) => after (.quoted text) rest
    else if c = '"' then do
      let (pieces, rest) ← doubleQuoted true (rest.length + 1) rest
      let (more, rest) ← word ends fuel rest
      let opening : Word := if pieces = [.variable ['@'] true none] then [] else [.quoted []]
      .ok (opening ++ pieces ++ more, rest)
    else if c = '\\' then
      match rest with
      | '\n' :: rest => word ends fuel rest
      | c :: rest => after (.quoted [c]) rest
      | [] => .ok ([.quoted ['\\']], [])
    else if c = '$' then do
      let (piece, rest) ← dollar false rest
      after piece rest
    else if c = '\x60' then
      match upTo? '\x60' rest with
      | none => .error .unclosedQuote
      | some (script, rest) => after (.output script false) rest
    else
      let isPlain (c : Char) : Bool :=
        !ends c && c ≠ '\'' && c ≠ '"' && c ≠ '\\' && c ≠ '$' && c ≠ '\x60'
      after (.bare (c :: rest.takeWhile isPlain)) (rest.dropWhile isPlain)

def wordOf (text : Text) : Except Misspelling Word :=
  (word (fun _ => false) (text.length + 1) text).map Prod.fst

def quotedWordOf (text : Text) : Except Misspelling Word :=
  (doubleQuoted false (text.length + 1) text).map Prod.fst

end Dotenv.Shell
