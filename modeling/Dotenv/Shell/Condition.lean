import Dotenv.Scope
import Dotenv.Shell.Printing
/-!
# Conditions

What `test` decides: conditions on texts, numbers and files, joined by words for not, and
and or. A word counts as an operator or as a text by its place.
-/

set_option autoImplicit false

namespace Dotenv.Shell

def contents? (directory : Directory) (name : Text) : Option Octets :=
  if name = "/dev/null".toList then some []
  else directory.get? ((Text.dropStart? ['.', '/'] name).getD name)

def isPlace (name : Text) : Bool :=
  ([".", "/", "/tmp", "/bin", "/usr", "/etc", "/dev"].map String.toList).contains name

namespace Condition

abbrev Step := Except Text (Bool × List Text)

def isUnary (word : Text) : Bool :=
  (["-n", "-z", "-f", "-e", "-s", "-d", "-r", "-w", "-x", "-h", "-L", "-p", "-S", "-b", "-c", "-t",
    "-u", "-g", "-k", "-O", "-G"].map String.toList).contains word

def isBinary (word : Text) : Bool :=
  (["=", "!=", "<", ">", "-eq", "-ne", "-lt", "-le", "-gt", "-ge", "-nt", "-ot",
    "-ef"].map String.toList).contains word

/-- Whether an operator on one text is a text itself, given the words after it. -/
def isOperand : List Text → Bool
  | [] => true
  | [_] => false
  | _ :: operator :: _ => isBinary operator

def unary (directory : Directory) (operator text : Text) : Bool :=
  if operator = "-n".toList then text ≠ []
  else if operator = "-z".toList then text = []
  else if operator = "-d".toList then isPlace text
  else if operator = "-s".toList then (contents? directory text).any (· ≠ [])
  else if operator = "-f".toList then (directory.get? text).isSome
  else if operator = "-e".toList ∨ operator = "-r".toList ∨ operator = "-w".toList then
    (contents? directory text).isSome || isPlace text
  else false

def number (text : Text) : Except Text Int :=
  let isGap (c : Char) : Bool := c = ' ' || c = '\t' || c = '\n'
  let body := Text.dropEndWhile isGap (text.dropWhile isGap)
  let (value, whole) := integer body
  let unsigned := if body.head?.any ['-', '+'].contains then body.drop 1 else body
  if whole ∧ unsigned.head?.any Char.isDigit ∧ value.natAbs < twoPow 63 then .ok value
  else .error ("Illegal number: ".toList ++ text)

def binary (operator left right : Text) : Except Text Bool :=
  let compare (holds : Int → Int → Bool) : Except Text Bool := do
    let a ← number left
    let b ← number right
    .ok (holds a b)
  if operator = ['='] then .ok (left = right)
  else if operator = ['!', '='] then .ok (left ≠ right)
  else if operator = ['<'] then .ok (left ≠ right && Text.le left right)
  else if operator = ['>'] then .ok (left ≠ right && Text.le right left)
  else if operator = "-eq".toList then compare fun a b => a = b
  else if operator = "-ne".toList then compare fun a b => a ≠ b
  else if operator = "-lt".toList then compare fun a b => a < b
  else if operator = "-le".toList then compare fun a b => a ≤ b
  else if operator = "-gt".toList then compare fun a b => b < a
  else if operator = "-ge".toList then compare fun a b => b ≤ a
  else .ok false

def noArgument (operator : Text) : Text := operator ++ ": argument expected".toList

/-- Operators on two texts that begin with the word after the first. -/
def binaryOf (left : Text) : List Text → Option Step
  | operator :: rest =>
    if isBinary operator then
      match rest with
      | right :: _ => some ((binary operator left right).map fun holds => (holds, rest))
      | [] => some (.error (noArgument operator))
    else none
  | [] => none

mutual

def any (directory : Directory) : Nat → List Text → Step
  | 0, words => .ok (false, words)
  | fuel + 1, words => do
    let (holds, rest) ← all directory fuel words
    match rest with
    | _ :: ['-', 'o'] :: more => do
      let (others, rest) ← any directory fuel more
      .ok (holds || others, rest)
    | _ => .ok (holds, rest)

def all (directory : Directory) : Nat → List Text → Step
  | 0, words => .ok (false, words)
  | fuel + 1, words => do
    let (holds, rest) ← one directory fuel words
    match rest with
    | _ :: ['-', 'a'] :: more => do
      let (others, rest) ← all directory fuel more
      .ok (holds && others, rest)
    | _ => .ok (holds, rest)

def one (directory : Directory) : Nat → List Text → Step
  | 0, words => .ok (false, words)
  | _ + 1, [] => .ok (false, [])
  | fuel + 1, word :: rest =>
    let binaryOrText : Step := (binaryOf word rest).getD (.ok (word ≠ [], word :: rest))
    if word = ['!'] then
      match rest with
      | [] => .ok (true, [word])
      | _ => (one directory fuel rest).map fun found => (!found.1, found.2)
    else if word = ['('] ∧ rest ≠ [] then do
      if rest.head? = some [')'] then .ok (false, rest)
      else
        let (holds, after) ← any directory fuel rest
        match after with
        | _ :: [')'] :: more => .ok (holds, [')'] :: more)
        | _ => .error "closing paren expected".toList
    else if isUnary word ∧ !isOperand rest then
      match rest with
      | text :: _ => .ok (unary directory word text, rest)
      | [] => .error (noArgument word)
    else binaryOrText

end

def whole (directory : Directory) (words : List Text) : Except Text Bool := do
  let (holds, rest) ← any directory (4 * words.length + 4) words
  match rest with
  | [] :: _ :: _ => .error "unexpected operator".toList
  | last :: _ :: _ => .error (last ++ ": unexpected operator".toList)
  | _ => .ok holds

/-- Whether a condition holds. One of three or four words may be in parentheses or follow a word
for not as a whole. -/
def holds (directory : Directory) : List Text → Except Text Bool
  | [] => .ok false
  | [left, operator, right] =>
    if isBinary operator then
      binary operator left right
    else if left = ['('] ∧ right = [')'] then whole directory [operator]
    else if left = ['!'] then (whole directory [operator, right]).map (!·)
    else whole directory [left, operator, right]
  | [first, second, third, fourth] =>
    if first = ['('] ∧ fourth = [')'] then whole directory [second, third]
    else if first = ['!'] then
      (if isBinary third then binary third second fourth
        else whole directory [second, third, fourth]).map (!·)
    else whole directory [first, second, third, fourth]
  | words => whole directory words

end Condition

end Dotenv.Shell
