import Dotenv.Keyed
import Dotenv.Number.Double
import Dotenv.Shell.Printing
import Dotenv.Shell.Syntax
/-!
# Arithmetic

Expressions over whole numbers of 64 bits. A name stands for the number that is the text of
a variable, and for zero when there is no text; a name before an equals sign is set.
-/

set_option autoImplicit false

namespace Dotenv.Shell

inductive ArithmeticFault where
  | noPrimary
  | noEnd
  | noParenthesis
  | noColon
  | divisionByZero
  | noNumber (text : Text)
deriving DecidableEq, Repr

def ArithmeticFault.message (fault : ArithmeticFault) (expression : Text) : Text :=
  let complaint (text : String) : Text :=
    "arithmetic expression: ".toList ++ text.toList ++ ": \"".toList ++ expression ++ ['"']
  match fault with
  | noPrimary => complaint "expecting primary"
  | noEnd => complaint "expecting EOF"
  | noParenthesis => complaint "expecting ')'"
  | noColon => complaint "expecting ':'"
  | divisionByZero => complaint "division by zero"
  | noNumber text => "Illegal number: ".toList ++ text

namespace Arithmetic

abbrev Step := Except ArithmeticFault (Keyed Text × Int × Text)

def wrap (n : Int) : Int := n.bmod (twoPow 64)

def skip (text : Text) : Text := text.dropWhile fun c => c = ' ' || c = '\t' || c = '\n'

def truth (holds : Bool) : Int := if holds then 1 else 0

/-- An operator between two numbers: its text, how closely it binds, and what it does. -/
structure Operator where
  text : String
  level : Nat
  apply : Int → Int → Option Int

def operators : List Operator :=
  let whole (text : String) (level : Nat) (apply : Int → Int → Int) : Operator :=
    ⟨text, level, fun a b => some (apply a b)⟩
  let bits (n : Int) : BitVec 64 := BitVec.ofInt 64 n
  [whole "||" 1 fun a b => truth (a ≠ 0 || b ≠ 0), whole "&&" 2 fun a b => truth (a ≠ 0 && b ≠ 0),
   whole "==" 6 fun a b => truth (a = b), whole "!=" 6 fun a b => truth (a ≠ b),
   whole "<<" 8 fun a b => (bits a <<< (b % 64).toNat).toInt,
   whole ">>" 8 fun a b => ((bits a).sshiftRight (b % 64).toNat).toInt,
   whole "<=" 7 fun a b => truth (a ≤ b), whole ">=" 7 fun a b => truth (b ≤ a),
   whole "<" 7 fun a b => truth (a < b), whole ">" 7 fun a b => truth (b < a),
   whole "|" 3 fun a b => (bits a ||| bits b).toInt,
   whole "^" 4 fun a b => (bits a ^^^ bits b).toInt,
   whole "&" 5 fun a b => (bits a &&& bits b).toInt,
   whole "+" 9 (· + ·), whole "-" 9 (· - ·), whole "*" 10 (· * ·),
   ⟨"/", 10, fun a b => if b = 0 then none else some (a.tdiv b)⟩,
   ⟨"%", 10, fun a b => if b = 0 then none else some (a.tmod b)⟩]

def operator? (text : Text) : Option (Operator × Text) :=
  operators.findSome? fun operator =>
    (Text.dropStart? operator.text.toList text).map fun rest => (operator, rest)

def digit? (base : Nat) (c : Char) : Option Nat :=
  let value :=
    if c.isDigit then c.toNat - '0'.toNat
    else if 'a' ≤ c ∧ c ≤ 'f' then c.toNat - 'a'.toNat + 10
    else if 'A' ≤ c ∧ c ≤ 'F' then c.toNat - 'A'.toNat + 10
    else base
  if value < base then some value else none

def digits (base : Nat) (text : Text) : Int × Text :=
  let isDigit (c : Char) : Bool := (digit? base c).isSome
  ((text.takeWhile isDigit).foldl (fun n c => n * base + ((digit? base c).getD 0 : Nat)) 0,
    text.dropWhile isDigit)

/-- The number at the start of a text, and what follows it: sixteen digits after `0x`, eight after
another zero. A number that is too large counts as the largest. -/
def numeral (text : Text) : Int × Text :=
  let (n, rest) :=
    match text with
    | '0' :: 'x' :: rest | '0' :: 'X' :: rest => digits 16 rest
    | '0' :: rest => digits 8 rest
    | _ => digits 10 text
  (min n (twoPow 63 - 1), rest)

def valueOf (text : Text) : Except ArithmeticFault Int :=
  let (negative, rest) :=
    match skip text with
    | '-' :: rest => (true, rest)
    | rest => (false, rest)
  let (n, after) := numeral rest
  if text = [] then .ok 0
  else if rest ≠ [] ∧ skip after = [] then .ok (if negative then -n else n)
  else .error (.noNumber text)

def Operator.value (operator : Operator) (left right : Int) : Except ArithmeticFault Int :=
  match operator.apply left right with
  | some value => .ok (wrap value)
  | none => .error .divisionByZero

/-- An equals sign at the start of a text, alone or after an operator that joins the number before
to the one after, and what follows it. -/
def setting? (text : Text) : Option ((Int → Int → Except ArithmeticFault Int) × Text) :=
  match text with
  | '=' :: rest => if rest.head? = some '=' then none else some (fun _ n => .ok n, rest)
  | _ =>
    match operator? text with
    | some (operator, '=' :: rest) =>
      if 8 ≤ operator.level ∨ operator.text.length = 1 ∧ operator.level < 6 then
        some (operator.value, rest)
      else none
    | _ => none

mutual

def whole : Nat → Keyed Text → Text → Step
  | 0, _, _ => .error .noEnd
  | fuel + 1, environment, text =>
    let text := skip text
    let name := if text.head?.any isNameStart then text.takeWhile isNameChar else []
    match name, setting? (skip (text.drop name.length)) with
    | _ :: _, some (change, rest) => do
      let (environment, value, rest) ← whole fuel environment rest
      let value ← change (← valueOf ((environment.get? name).getD [])) value
      .ok (environment.set name (Text.ofInt value), value, rest)
    | _, _ => choice fuel environment text

def choice : Nat → Keyed Text → Text → Step
  | 0, _, _ => .error .noEnd
  | fuel + 1, environment, text => do
    let (environment, test, rest) ← operand fuel environment text
    let (environment, test, rest) ← operations fuel 0 environment test rest
    match skip rest with
    | '?' :: rest => do
      let (environment, yes, rest) ← whole fuel environment rest
      match skip rest with
      | ':' :: rest => do
        let (environment, no, rest) ← choice fuel environment rest
        .ok (environment, if test ≠ 0 then yes else no, rest)
      | _ => .error .noColon
    | rest => .ok (environment, test, rest)

def operations : Nat → Nat → Keyed Text → Int → Text → Step
  | 0, _, _, _, _ => .error .noEnd
  | fuel + 1, level, environment, left, text =>
    match operator? (skip text) with
    | none => .ok (environment, left, text)
    | some (operator, rest) =>
      if operator.level ≤ level then .ok (environment, left, text)
      else do
        let (environment, right, rest) ← operand fuel environment rest
        let (environment, right, rest) ← operations fuel operator.level environment right rest
        operations fuel level environment (← operator.value left right) rest

/-- A number, a name, an expression in parentheses, or one of these after a sign. -/
def operand : Nat → Keyed Text → Text → Step
  | 0, _, _ => .error .noEnd
  | fuel + 1, environment, text =>
    let signed (rest : Text) (change : Int → Int) : Step := do
      let (environment, value, rest) ← operand fuel environment rest
      .ok (environment, wrap (change value), rest)
    match skip text with
    | '-' :: rest => signed rest fun n => -n
    | '+' :: rest => signed rest fun n => n
    | '!' :: rest => signed rest fun n => truth (n = 0)
    | '~' :: rest => signed rest fun n => -n - 1
    | '(' :: rest => do
      let (environment, value, rest) ← whole fuel environment rest
      match skip rest with
      | ')' :: rest => .ok (environment, value, rest)
      | _ => .error .noParenthesis
    | c :: rest =>
      if c.isDigit then
        let (n, rest) := numeral (c :: rest)
        .ok (environment, wrap n, rest)
      else if isNameStart c then do
        let name := (c :: rest).takeWhile isNameChar
        let value ← valueOf ((environment.get? name).getD [])
        .ok (environment, value, (c :: rest).dropWhile isNameChar)
      else .error .noPrimary
    | [] => .error .noPrimary

end

def evaluate (environment : Keyed Text) (expression : Text) :
    Except ArithmeticFault (Keyed Text × Int) := do
  let (environment, value, rest) ← whole (4 * expression.length + 4) environment expression
  if skip rest = [] then .ok (environment, value) else .error .noEnd

end Arithmetic

end Dotenv.Shell
