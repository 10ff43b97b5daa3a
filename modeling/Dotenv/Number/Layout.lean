import Dotenv.Number.Double
/-!
# Layouts of numbers

A double is written in its shortest digits, in one of four ways.
-/

set_option autoImplicit false

namespace Dotenv.Double

/-! ## Shortest decimals

The decimal with the fewest digits among those that read back as a given double, and
of these the nearest to it. The reals that round to `mantissa * 2 ^ exponent` form an
interval around it, ends included exactly when the mantissa is even. For each count of
digits only the two points of that decimal grid next to the double are tried: if the
interval holds any point of the grid, it holds one of these. -/

structure Decimal where
  digits : Nat
  exponent : Int
deriving DecidableEq, Repr

def leadingPlace (num den : Nat) : Int :=
  if den ≤ num then ((Nat.toDigits 10 (num / den)).length : Int) - 1
  else
    let places := (Nat.toDigits 10 (den / num)).length
    if den ≤ num * tenPow (places - 1) then -((places : Int) - 1) else -(places : Int)

def inPlaces (num den : Nat) (place : Int) : Nat × Nat :=
  match place with
  | .ofNat p => (num, den * tenPow p)
  | .negSucc p => (num * tenPow (p + 1), den)

/-- The ends of the interval that rounds to the double, and the double itself, in units
of `2 ^ (exponent - 2)`. Below a power of two the doubles lie twice as close. -/
def roundingInterval (mantissa : Nat) (exponent : Int) : Nat × Nat × Nat :=
  let below := if mantissa = twoPow 52 ∧ exponent > -1074 then 1 else 2
  (4 * mantissa - below, 4 * mantissa, 4 * mantissa + 2)

/-- Whether `digits * 10 ^ place` lies in the interval from `low` to `high`, which are in
units of `2 ^ unit`. -/
def inInterval (closed : Bool) (low high : Nat) (unit : Int) (digits : Nat) (place : Int) : Bool :=
  let (lowNum, lowDen) := ratio low unit
  let (highNum, highDen) := ratio high unit
  let (lowNum, lowDen) := inPlaces lowNum lowDen place
  let (highNum, highDen) := inPlaces highNum highDen place
  if closed then lowNum ≤ digits * lowDen && digits * highDen ≤ highNum
  else lowNum < digits * lowDen && digits * highDen < highNum

/-- Which of two decimals is taken when a double lies halfway between them. -/
inductive Tie where
  | up
  | even
deriving DecidableEq, Repr

/-- Whether the lower of two neighbouring decimals is taken, given where between them the
double lies: `rest / den` of the way up. -/
def Tie.takesLower (tie : Tie) (floor rest den : Nat) : Bool :=
  2 * rest < den || (2 * rest == den && tie == .even && floor % 2 == 0)

/-- The point next to the double on the grid of decimals with `count` digits that reads
back, and the nearer one when both do. -/
def gridPoint? (tie : Tie) (mantissa : Nat) (exponent : Int) (count : Nat) : Option Decimal :=
  let (low, mid, high) := roundingInterval mantissa exponent
  let unit := exponent - 2
  let closed := mantissa % 2 = 0
  let (num, den) := ratio mid unit
  let place := leadingPlace num den - ((count : Int) - 1)
  let (n, d) := inPlaces num den place
  let floor := n / d
  let down := inInterval closed low high unit floor place
  let up := inInterval closed low high unit (floor + 1) place
  if down && (!up || tie.takesLower floor (n % d) d) then some ⟨floor, place⟩
  else if up then some ⟨floor + 1, place⟩
  else none

def Decimal.trimZeros : Nat → Decimal → Decimal
  | 0, decimal => decimal
  | fuel + 1, ⟨digits, exponent⟩ =>
    if digits ≠ 0 ∧ digits % 10 = 0 then trimZeros fuel ⟨digits / 10, exponent + 1⟩
    else ⟨digits, exponent⟩

def shortest (tie : Tie) (mantissa : Nat) (exponent : Int) : Decimal :=
  let found := (List.range 17).findSome? fun i => gridPoint? tie mantissa exponent (i + 1)
  (found.getD ⟨0, 0⟩).trimZeros 17

/-! ## Layouts of numbers

Four ways to write a double in its shortest digits: `plain` never uses an exponent,
`compact` writes whole numbers below `10 ^ 15` as integers, `inCode` has a decimal point and
an exponent beyond certain sizes, and so has `scientific?`, the layout of JSON. A double
halfway between two decimals goes up in the first three, to the even one in the last. -/

/-- The digits of a decimal with the point put in, and zeros where it lies outside them. -/
def Decimal.positional (decimal : Decimal) : Text :=
  let digits := Text.ofNat decimal.digits
  match decimal.exponent with
  | .ofNat zeros => digits ++ List.replicate zeros '0'
  | .negSucc places =>
    let fraction := places + 1
    if fraction < digits.length then
      digits.take (digits.length - fraction) ++ '.' :: digits.drop (digits.length - fraction)
    else ['0', '.'] ++ List.replicate (fraction - digits.length) '0' ++ digits

def Decimal.place (decimal : Decimal) : Int :=
  decimal.exponent + (Text.ofNat decimal.digits).length - 1

def signed (negative : Bool) (text : Text) : Text := if negative then '-' :: text else text

def plain : Double → Text
  | .nan => ['N', 'a', 'N']
  | .infinite negative => signed negative ['i', 'n', 'f']
  | .finite negative mantissa exponent =>
    if mantissa = 0 then signed negative ['0']
    else signed negative (shortest .up mantissa exponent).positional

/-- Whole numbers below `10 ^ 15` in size as integers, so that zero has no sign; all other
numbers as in `plain`. -/
def compact (x : Double) : Text :=
  match x.toInt? with
  | some n => if n.natAbs < tenPow 15 then Text.ofInt n else x.plain
  | none => x.plain

/-- The digits of a decimal with a point after the first, and the exponent, which has `plus` in
front when it is not negative. -/
def Decimal.withExponent (decimal : Decimal) (plus : Text) : Text :=
  let digits := Text.ofNat decimal.digits
  let fraction := digits.drop 1
  let place := decimal.place
  digits.take 1 ++ (if fraction = [] then [] else '.' :: fraction) ++ ['e'] ++
    (if place < 0 then [] else plus) ++ Text.ofInt place

/-- The digits of a decimal with at least one digit after the point. -/
def Decimal.pointed (decimal : Decimal) : Text :=
  if 0 ≤ decimal.exponent then decimal.positional ++ ['.', '0'] else decimal.positional

/-- The layout of a number in code: with at least one digit after the point from `10 ^ -4` to
below `10 ^ 16`, else with an exponent. -/
def inCode : Double → Text
  | .nan => ['N', 'a', 'N']
  | .infinite negative => signed negative ['i', 'n', 'f']
  | .finite negative mantissa exponent =>
    if mantissa = 0 then signed negative ['0', '.', '0']
    else
      let decimal := shortest .up mantissa exponent
      signed negative <|
        if decimal.place < -4 ∨ 16 ≤ decimal.place then decimal.withExponent []
        else decimal.pointed

/-- Positional with at least one digit after the point while the leading digit stands
between the fifth place after it and the sixteenth before it, else with an exponent.
What is no finite number has no such layout. -/
def scientific? : Double → Option Text
  | .finite negative mantissa exponent =>
    if mantissa = 0 then some (signed negative ['0', '.', '0'])
    else
      let decimal := shortest .even mantissa exponent
      some <| signed negative <|
        if decimal.place < -5 ∨ 16 ≤ decimal.place then decimal.withExponent ['+']
        else decimal.pointed
  | _ => none

end Dotenv.Double
