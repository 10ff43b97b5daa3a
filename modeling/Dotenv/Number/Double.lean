import Dotenv.Text.Basic
/-!
# Doubles

The numbers of the binary64 format as exact values `± mantissa · 2 ^ exponent`. Every
rounding goes through `ofRatio`: to the nearest double, a tie to the even mantissa.
-/

set_option autoImplicit false

namespace Dotenv

/-! ## Powers

The powers of two and of ten from which doubles and decimals are made. They are written with
`Nat.pow` itself, so that no choice of an instance stands between a power and its digits. -/

def twoPow (exponent : Nat) : Nat := Nat.pow 2 exponent

def tenPow (exponent : Nat) : Nat := Nat.pow 10 exponent

theorem twoPow_pos (exponent : Nat) : 0 < twoPow exponent := Nat.pow_pos (by decide)

/-! ## Values and rounding -/

/-- A binary64 number. A finite one stands for `± mantissa * 2 ^ exponent`; those that
`ofRatio` gives have a mantissa below `2 ^ 53` and an exponent from -1074 to 971, and
below `2 ^ 52` the mantissa goes only with the exponent -1074. -/
inductive Double where
  | nan
  | infinite (negative : Bool)
  | finite (negative : Bool) (mantissa : Nat) (exponent : Int)
deriving DecidableEq, Repr, Inhabited

namespace Double

/-- A quotient rounded to the nearest whole number, a tie to the even one. -/
def roundQuotient (num den : Nat) : Nat :=
  let floor := num / den
  let rest := num % den
  if 2 * rest > den ∨ (2 * rest = den ∧ floor % 2 = 1) then floor + 1 else floor

/-- The quotient `num / den`, measured in units of `2 ^ exponent`, as a pair. -/
def inUnits (num den : Nat) (exponent : Int) : Nat × Nat :=
  match exponent with
  | .ofNat e => (num, den * twoPow e)
  | .negSucc e => (num * twoPow (e + 1), den)

/-- The exponent at which the quotient has a mantissa of 53 bits, or the least exponent
there is. -/
def unitExponent (num den : Nat) : Int :=
  let guess := (num.log2 : Int) - (den.log2 : Int) - 52
  let (n, d) := inUnits num den guess
  max (-1074) (if n / d < twoPow 52 then guess - 1 else guess)

def ofRatio (negative : Bool) (num den : Nat) : Double :=
  if num = 0 then .finite negative 0 (-1074)
  else
    let exponent := unitExponent num den
    let (n, d) := inUnits num den exponent
    let mantissa := roundQuotient n d
    if mantissa = twoPow 53 then
      if exponent ≥ 971 then .infinite negative else .finite negative (twoPow 52) (exponent + 1)
    else if exponent > 971 then .infinite negative
    else .finite negative mantissa exponent

def ofNat (n : Nat) : Double := ofRatio false n 1

def ofInt (n : Int) : Double := ofRatio (n < 0) n.natAbs 1

/-- The double nearest to `± digits * 10 ^ exponent`. Beyond 400 places the answer is
infinite or zero, whatever the digits are. -/
def ofDecimal (negative : Bool) (digits : Nat) (exponent : Int) : Double :=
  let places := exponent + (Nat.toDigits 10 digits).length
  if digits = 0 then ofRatio negative 0 1
  else if places > 400 then .infinite negative
  else if places < -400 then ofRatio negative 0 1
  else
    match exponent with
    | .ofNat e => ofRatio negative (digits * tenPow e) 1
    | .negSucc e => ofRatio negative digits (tenPow (e + 1))

def ratio (mantissa : Nat) (exponent : Int) : Nat × Nat :=
  match exponent with
  | .ofNat e => (mantissa * twoPow e, 1)
  | .negSucc e => (mantissa, twoPow (e + 1))

def signs (left right : Bool) : Bool := left != right

def mul : Double → Double → Double
  | .finite s m e, .finite t n f =>
    let (a, b) := ratio m e
    let (c, d) := ratio n f
    ofRatio (signs s t) (a * c) (b * d)
  | .infinite s, .finite t n _ => if n = 0 then .nan else .infinite (signs s t)
  | .finite s m _, .infinite t => if m = 0 then .nan else .infinite (signs s t)
  | .infinite s, .infinite t => .infinite (signs s t)
  | .nan, _ => .nan
  | _, .nan => .nan

def div : Double → Double → Double
  | .finite s m e, .finite t n f =>
    if n = 0 then if m = 0 then .nan else .infinite (signs s t)
    else
      let (a, b) := ratio m e
      let (c, d) := ratio n f
      ofRatio (signs s t) (a * d) (b * c)
  | .infinite s, .finite t _ _ => .infinite (signs s t)
  | .finite s _ _, .infinite t => ofRatio (signs s t) 0 1
  | .infinite _, .infinite _ => .nan
  | .nan, _ => .nan
  | _, .nan => .nan

def neg : Double → Double
  | .nan => .nan
  | .infinite negative => .infinite (!negative)
  | .finite negative mantissa exponent => .finite (!negative) mantissa exponent

/-- Whether a double is neither infinite nor the value that is no number. -/
def isFinite : Double → Bool
  | .finite _ _ _ => true
  | _ => false

def isZero : Double → Bool
  | .finite _ 0 _ => true
  | _ => false

/-- A finite double in units of `2 ^ unit`, for a unit not above its own. -/
def inUnit (negative : Bool) (mantissa : Nat) (exponent unit : Int) : Int :=
  let size : Int := (mantissa * twoPow (exponent - unit).toNat : Nat)
  if negative then -size else size

/-- The order of doubles. What is no number is below nothing, and nothing is below it. -/
def lt : Double → Double → Bool
  | .finite s m e, .finite t n f =>
    inUnit s m e (min e f) < inUnit t n f (min e f)
  | .infinite s, .infinite t => s && !t
  | .infinite s, .finite _ _ _ => s
  | .finite _ _ _, .infinite t => !t
  | .nan, _ => false
  | _, .nan => false

/-- Equality of numbers: the zeros of both signs are equal, what is no number equals nothing. -/
def same : Double → Double → Bool
  | .nan, _ => false
  | _, .nan => false
  | x, y => !x.lt y && !y.lt x

def toInt? : Double → Option Int
  | .finite negative mantissa exponent =>
    let (num, den) := ratio mantissa exponent
    if num % den = 0 then
      let size : Int := (num / den : Nat)
      some (if negative then -size else size)
    else none
  | _ => none

/-! ## Numerals

Reading a double from decimal text: an optional sign, then digits with an optional point
and an optional exponent, or one of the words for what is not finite. At least one digit
stands before or after the point. No blanks are skipped. -/

def takeSign : Text → Bool × Text
  | '-' :: rest => (true, rest)
  | '+' :: rest => (false, rest)
  | text => (false, text)

/-- The exponent at the end of a numeral: nothing at all, or `e` with digits. -/
def exponent? : Text → Option Int
  | [] => some 0
  | c :: rest =>
    if c = 'e' ∨ c = 'E' then
      let (negative, digits) := takeSign rest
      if digits ≠ [] ∧ digits.all Char.isDigit then
        let size : Int := Text.toNat digits
        some (if negative then -size else size)
      else none
    else none

def unsigned? (negative : Bool) (text : Text) : Option Double :=
  let whole := text.takeWhile Char.isDigit
  let rest := text.dropWhile Char.isDigit
  let (fraction, rest) :=
    match rest with
    | '.' :: after => (after.takeWhile Char.isDigit, after.dropWhile Char.isDigit)
    | _ => ([], rest)
  if whole = [] ∧ fraction = [] then none
  else
    (exponent? rest).map fun exponent =>
      ofDecimal negative (Text.toNat (whole ++ fraction)) (exponent - fraction.length)

def read? (text : Text) : Option Double :=
  let (negative, rest) := takeSign text
  let word := Text.lower rest
  if word = "inf".toList ∨ word = "infinity".toList then some (.infinite negative)
  else if word = "nan".toList then some .nan
  else unsigned? negative rest

end Double

end Dotenv
