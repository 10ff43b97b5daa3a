import Dotenv.Document.Term
/-!
# Scanning

The tokens of a line. A scanner takes what is left of the line and answers what is left
after its token; the token is what stands in front of that.
-/

set_option autoImplicit false

namespace Dotenv.Scan

def isNameStart (c : Char) : Bool := c.isAlpha || c == '_'

def isNameChar (c : Char) : Bool := c.isAlphanum || c == '_'

def isKeyChar (c : Char) : Bool := isNameChar c || c == '.' || c == '-'

def startsName : Text → Bool
  | c :: _ => isNameStart c
  | [] => false

def name? (text : Text) : Option (Text × Text) :=
  if startsName text then some (text.takeWhile isNameChar, text.dropWhile isNameChar) else none

/-- What is left after the first `mark` that no backslash protects. -/
def closeQuote (mark : Char) : Text → Option Text
  | [] => none
  | '\\' :: c :: rest => if c = mark then closeQuote mark rest else closeQuote mark (c :: rest)
  | c :: rest => if c = mark then some rest else closeQuote mark rest

/-- What is left after the first three marks in a row of which no backslash protects the
first. -/
def closeBlock (mark : Char) : Text → Option Text
  | [] => none
  | '\\' :: c :: rest => if c = mark then closeBlock mark rest else closeBlock mark (c :: rest)
  | c :: rest =>
    match Text.dropStart? [mark, mark, mark] (c :: rest) with
    | some after => some after
    | none => closeBlock mark rest

/-- A literal in quotes on one line, at the start of a text; `none` when the quotes are not
closed. -/
def quotedLiteral (quote : Quote) (text : Text) : Option (Literal × Text) :=
  (closeQuote quote.mark (text.drop 1)).map fun rest => (⟨Text.before rest text, some quote⟩, rest)

def toHash : Text → Text
  | [] => []
  | '\\' :: '#' :: rest => toHash rest
  | '#' :: rest => '#' :: rest
  | _ :: rest => toHash rest

/-- A bare literal: what stands in front of `rest` without the gap at its end. The gap is
left with the rest. -/
def bareLiteral (rest text : Text) : Literal × Text :=
  let raw := Text.dropEndWhile Text.isGap (Text.before rest text)
  (.bare raw, text.drop raw.length)

/-! ## Reading calls

A call is a name with arguments in parentheses, separated by commas; an argument is a
quoted literal, a call, or bare text, and may have a key. Text that only looks like a
call is no fault: the reader answers `none`, and the text is read as a bare literal.

Every step spends one unit of fuel. At most four steps lie between two characters that
are taken for good, so four units per character of the text are enough. -/

/-- Whether bare text inside an argument list ends before a character. -/
def endsArgument (c : Char) : Bool := c == ',' || c == '(' || c == ')'

def argumentKey (text : Text) : Option Text × Text :=
  match name? text with
  | some (key, '=' :: rest) => (some key, rest)
  | _ => (none, text)

def bareArgument (text : Text) : Option (Literal × Text) :=
  let (literal, rest) := bareLiteral (text.dropWhile (!endsArgument ·)) text
  if literal.raw = [] then none else some (literal, rest)

mutual

def call : Nat → Text → Option (Term × Text)
  | 0, _ => none
  | fuel + 1, text =>
    match name? text with
    | some (name, '(' :: rest) =>
      match arguments fuel rest with
      | some (args, after) =>
        some (.call name args (some (Text.before after ('(' :: rest)))
          (some (Text.before after text)), after)
      | none => none
    | _ => none

def arguments : Nat → Text → Option (Args × Text)
  | 0, _ => none
  | fuel + 1, text =>
    match Text.skipGap text with
    | ')' :: rest => some (.nil, rest)
    | text => moreArguments fuel text

def moreArguments : Nat → Text → Option (Args × Text)
  | 0, _ => none
  | fuel + 1, text =>
    let (key, body) := argumentKey text
    match argument fuel body with
    | none => none
    | some (value, rest) =>
      match Text.skipGap rest with
      | ',' :: rest =>
        match moreArguments fuel (Text.skipGap rest) with
        | some (args, after) => some (.cons key value args, after)
        | none => none
      | ')' :: rest => some (.cons key value .nil, rest)
      | _ => none

def argument : Nat → Text → Option (Term × Text)
  | 0, _ => none
  | fuel + 1, text =>
    match text.head?.bind Quote.ofMark? with
    | some quote => (quotedLiteral quote text).map fun found => (.literal found.1, found.2)
    | none =>
      match call fuel text with
      | some found => some found
      | none => (bareArgument text).map fun found => (.literal found.1, found.2)

end

def fuelFor (text : Text) : Nat := 4 * text.length + 4

def call? (text : Text) : Option (Term × Text) := call (fuelFor text) text

def arguments? (text : Text) : Option (Args × Text) := arguments (fuelFor text) text

end Dotenv.Scan
