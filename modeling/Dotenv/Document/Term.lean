import Dotenv.Keyed
import Dotenv.Number.Layout
/-!
# Literals and terms

What stands in a value slot, kept as it was written.
-/

set_option autoImplicit false

namespace Dotenv

/-! ## Literals

A literal is kept as it was written, delimiters included. Its content is the text it
stands for, and its scalar is that text with a type: what stands in quotes is always a
text, what stands bare may be a boolean, a number or undefined. -/

inductive Quote where
  | single
  | double
  | backtick
  | tripleDouble
  | tripleBacktick
deriving DecidableEq, Repr, Inhabited

namespace Quote

def mark : Quote → Char
  | single => '\''
  | double | tripleDouble => '"'
  | backtick | tripleBacktick => '`'

def isTriple : Quote → Bool
  | tripleDouble | tripleBacktick => true
  | _ => false

def delimiter (quote : Quote) : Text :=
  if quote.isTriple then [quote.mark, quote.mark, quote.mark] else [quote.mark]

def name : Quote → Text
  | single => "single".toList
  | double => "double".toList
  | backtick => "backtick".toList
  | tripleDouble => "triple-double".toList
  | tripleBacktick => "triple-backtick".toList

def ofMark? (c : Char) : Option Quote :=
  if c = '\'' then some single
  else if c = '"' then some double
  else if c = '`' then some backtick
  else none

end Quote

inductive Scalar where
  | undefined
  | boolean (value : Bool)
  | number (value : Double)
  | text (value : Text)
deriving DecidableEq, Repr, Inhabited

namespace Scalar

def word (value : Bool) : Text := if value then "true".toList else "false".toList

def display : Scalar → Text
  | undefined => []
  | boolean value => word value
  | number value => value.compact
  | text value => value

def text? : Scalar → Option Text
  | text value => some value
  | _ => none

/-- Whether a text is a whole number in digits, with a fraction or a minus sign or not. -/
def isNumeric (text : Text) : Bool :=
  let digits := match text with
    | '-' :: rest => rest
    | _ => text
  let whole := digits.takeWhile Char.isDigit
  match digits.dropWhile Char.isDigit with
  | [] => whole ≠ []
  | '.' :: fraction => whole ≠ [] && fraction ≠ [] && fraction.all Char.isDigit
  | _ => false

/-- The scalar of a bare text. A numeric text is a number only when that number is written
as the same text, so that leading zeros and digits beyond the precision of a double are
not lost. -/
def ofBare (bare : Text) : Scalar :=
  let trimmed := Text.trim bare
  if trimmed = [] ∨ trimmed = "undefined".toList then undefined
  else if trimmed = "true".toList then boolean true
  else if trimmed = "false".toList then boolean false
  else if isNumeric trimmed then
    match Double.read? trimmed with
    | some value => if value.compact = trimmed then number value else text trimmed
    | none => text trimmed
  else text trimmed

end Scalar

structure Literal where
  raw : Text
  /-- The kind of quotes, none for a bare literal. -/
  quote : Option Quote
deriving DecidableEq, Repr, Inhabited

namespace Literal

def bare (text : Text) : Literal := ⟨text, none⟩

/-- A literal in quotes that stands for exactly `text`. -/
def quoted (text : Text) (quote : Quote) : Literal :=
  let inner := Text.escape quote.mark text
  let delimiter := quote.delimiter
  { raw :=
      if quote.isTriple then delimiter ++ ['\n'] ++ inner ++ ['\n'] ++ delimiter
      else delimiter ++ inner ++ delimiter
    quote := some quote }

/-- The text between delimiters: nothing when there is no room for both. -/
def between (delimiter raw : Text) : Text :=
  (Text.slice? (Text.width delimiter) (Text.width raw - Text.width delimiter) raw).getD []

/-- The inside of a block without the newline after the opening delimiter and the one
before the closing delimiter. -/
def withoutEdges (inner : Text) : Text :=
  let inner := (Text.dropStart? ['\n'] inner).getD inner
  (Text.dropFinish? ['\n'] inner).getD inner

def content (literal : Literal) : Text :=
  match literal.quote with
  | none => Text.unescape '#' (Text.trim literal.raw)
  | some quote =>
    let inner := between quote.delimiter literal.raw
    Text.unescape quote.mark (if quote.isTriple then withoutEdges inner else inner)

def scalar (literal : Literal) : Scalar :=
  match literal.quote with
  | none => .ofBare literal.content
  | some _ => .text literal.content

/-- Whether a literal is taken to the letter: nothing in it is substituted. -/
def isVerbatim (literal : Literal) : Bool := literal.quote == some .single

end Literal

/-! ## Terms

A term is what stands in a value slot: a literal, or the call of a function with terms as
arguments. A call that was read, or put in place of a literal, remembers the text it came
from; `render` gives that text back, `canonical` writes the tree itself. -/

mutual

inductive Term where
  | literal (written : Literal)
  /-- A call, with the text of its argument list and of the whole call where known. -/
  | call (name : Text) (args : Args) (argsSource source : Option Text)

inductive Args where
  | nil
  | cons (key : Option Text) (value : Term) (rest : Args)

end

deriving instance DecidableEq, Repr, Inhabited for Term, Args

structure Arg where
  key : Option Text
  value : Term
deriving DecidableEq, Repr, Inhabited

namespace Args

def toList : Args → List Arg
  | nil => []
  | cons key value rest => ⟨key, value⟩ :: rest.toList

def ofList : List Arg → Args
  | [] => nil
  | arg :: rest => cons arg.key arg.value (ofList rest)

@[simp] theorem toList_ofList (list : List Arg) : (ofList list).toList = list := by
  induction list with
  | nil => rfl
  | cons arg rest ih => simp [ofList, toList, ih]

def positional (terms : List Term) : Args := ofList (terms.map (⟨none, ·⟩))

end Args

def Arg.labelled (key : Option Text) (text : Text) : Text :=
  match key with
  | none => text
  | some key => key ++ '=' :: text

mutual

/-- A term as it was written, or as its tree where that is not known. -/
def Term.render : Term → Text
  | .literal written => written.raw
  | .call name args argsSource source => source.getD (name ++ args.render argsSource)

def Args.render (args : Args) (source : Option Text) : Text :=
  source.getD ('(' :: Text.join [',', ' '] args.renderEach ++ [')'])

def Args.renderEach : Args → List Text
  | .nil => []
  | .cons key value rest => Arg.labelled key value.render :: rest.renderEach

end

mutual

/-- The tree of a term, whatever text it remembers. -/
def Term.canonical : Term → Text
  | .literal written => written.raw
  | .call name args _ _ => name ++ '(' :: Text.join [',', ' '] args.canonicalEach ++ [')']

def Args.canonicalEach : Args → List Text
  | .nil => []
  | .cons key value rest => Arg.labelled key value.canonical :: rest.canonicalEach

end

namespace Term

def apply (name : Text) (terms : List Term) : Term := .call name (.positional terms) none none

def applyNamed (name : String) (terms : List Term) : Term := apply name.toList terms

def scalar? : Term → Option Scalar
  | .literal written => some written.scalar
  | .call _ _ _ _ => none

end Term

inductive ArgShape where
  | positional (terms : List Term)
  | named (entries : Keyed Term)
deriving DecidableEq, Repr

namespace Args

/-- The shape of an argument list, none when it mixes the two. An empty list is positional;
of a repeated key the last value counts. -/
def shape? (args : Args) : Option ArgShape :=
  let list := args.toList
  if list.all (·.key.isNone) then some (.positional (list.map Arg.value))
  else if list.all (·.key.isSome) then
    some (.named (.ofList (list.map fun arg => (arg.key.getD [], arg.value))))
  else none

end Args

end Dotenv
