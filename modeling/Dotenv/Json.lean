import Dotenv.Number.Layout
/-!
# JSON

JSON values, their text, and the reading of it.
-/

set_option autoImplicit false

namespace Dotenv

/-! ## JSON values

The members of an object are kept in the order of their names, each name once. A number
is a whole number of 64 bits where it fits, and a double otherwise. -/

inductive Json where
  | null
  | boolean (value : Bool)
  | integer (value : Int)
  | double (value : Double)
  | string (value : Text)
  | array (items : List Json)
  | object (members : List (Text × Json))
deriving Inhabited, Repr

namespace Json

/-- A member put into an object, in the place of one of the same name if there is one. -/
def insertMember (name : Text) (value : Json) : List (Text × Json) → List (Text × Json)
  | [] => [(name, value)]
  | (other, old) :: rest =>
    if other = name then (name, value) :: rest
    else if Text.le name other then (name, value) :: (other, old) :: rest
    else (other, old) :: insertMember name value rest

/-- A finite double as a JSON value; JSON has nothing for the others. -/
def ofDouble (value : Double) : Json := if value.isFinite then double value else null

/-! ## JSON numerals

A numeral without fraction and exponent is a whole number where 64 bits hold it. Any other
is a double: its digits up to the last that 64 bits hold are taken as a whole number, and
that is multiplied or divided by a power of ten in double arithmetic. So the result may be
off by a unit in the last place, and a numeral beyond the greatest double is refused. -/

structure Scaled where
  significand : Nat
  exponent : Int
deriving DecidableEq, Repr

def wordMax : Nat := twoPow 64 - 1

/-- Digits before the point taken into a significand. From the first that does not fit on,
each only raises the exponent. -/
def Scaled.takeWhole : Scaled → Text → Scaled
  | scaled, [] => scaled
  | ⟨significand, exponent⟩, c :: rest =>
    if exponent > 0 ∨ significand * 10 + Text.digit c > wordMax then
      takeWhole ⟨significand, exponent + 1⟩ rest
    else takeWhole ⟨significand * 10 + Text.digit c, 0⟩ rest

/-- Digits after the point taken into a significand, up to the first that does not fit. -/
def Scaled.takeFraction : Scaled → Text → Scaled
  | scaled, [] => scaled
  | ⟨significand, exponent⟩, c :: rest =>
    if significand * 10 + Text.digit c > wordMax then ⟨significand, exponent⟩
    else takeFraction ⟨significand * 10 + Text.digit c, exponent - 1⟩ rest

def powerOfTen (exponent : Nat) : Double := .ofNat (tenPow exponent)

def greatestPower : Nat := 308

def divideByTens : Nat → Double → Nat → Double
  | 0, value, exponent => value.div (powerOfTen exponent)
  | steps + 1, value, exponent =>
    if exponent ≤ greatestPower then value.div (powerOfTen exponent)
    else if value.isZero then value
    else divideByTens steps (value.div (powerOfTen greatestPower)) (exponent - greatestPower)

/-- The double that digits and an exponent stand for, unless it is too great. -/
def Scaled.toDouble? (scaled : Scaled) : Option Double :=
  let value := Double.ofNat scaled.significand
  match scaled.exponent with
  | .ofNat exponent =>
    if exponent ≤ greatestPower then
      let product := value.mul (powerOfTen exponent)
      if product.isFinite then some product else none
    else if value.isZero then some value else none
  | .negSucc exponent => some (divideByTens 4 value (exponent + 1))

/-- A whole number in 64 bits, if the sign lets it fit. There is no negative zero. -/
def wholeNumber? (negative : Bool) (significand : Nat) : Option Json :=
  if negative then
    let value : Int := significand
    if 0 < value ∧ value ≤ twoPow 63 then some (.integer (-value)) else none
  else some (.integer significand)

def signedDouble (negative : Bool) (value : Double) : Json :=
  .double (if negative then value.neg else value)

structure NumeralParts where
  whole : Text
  /-- The digits after a point, where there is one. -/
  fraction : Option Text
  /-- The sign and the digits of an exponent, where there is one. -/
  exponent : Option (Bool × Text)
deriving DecidableEq, Repr

def exponentMax : Nat := twoPow 31 - 1

def NumeralParts.value? (negative : Bool) (parts : NumeralParts) : Option Json :=
  let whole := Scaled.takeWhole ⟨0, 0⟩ parts.whole
  match parts.fraction, parts.exponent with
  | none, none =>
    if whole.exponent = 0 then
      match wholeNumber? negative whole.significand with
      | some value => some value
      | none => some (signedDouble negative (.ofNat whole.significand))
    else whole.toDouble?.map (signedDouble negative)
  | fraction, exponent =>
    let scaled := whole.takeFraction (fraction.getD [])
    let scaled? :=
      match exponent with
      | none => scaled.toDouble?
      | some (below, digits) =>
        let size := Text.toNat digits
        if size > exponentMax then
          if scaled.significand ≠ 0 ∧ !below then none else some (.ofNat 0)
        else
          let size : Int := size
          Scaled.toDouble?
            { scaled with exponent := scaled.exponent + (if below then -size else size) }
    scaled?.map (signedDouble negative)

/-! ## Reading JSON

Strict JSON: a text is one value with blanks around its tokens, and nothing else. Arrays
and objects may lie 127 deep. -/

def isSpace (c : Char) : Bool := c == ' ' || c == '\n' || c == '\t' || c == '\r'

def skipSpaces (text : Text) : Text := text.dropWhile isSpace

def hexDigit? (c : Char) : Option Nat :=
  if c.isDigit then some (c.toNat - '0'.toNat)
  else if 'a' ≤ c ∧ c ≤ 'f' then some (c.toNat - 'a'.toNat + 10)
  else if 'A' ≤ c ∧ c ≤ 'F' then some (c.toNat - 'A'.toNat + 10)
  else none

def unit? : Text → Option (Nat × Text)
  | a :: b :: c :: d :: rest => do
    let a ← hexDigit? a
    let b ← hexDigit? b
    let c ← hexDigit? c
    let d ← hexDigit? d
    some (((a * 16 + b) * 16 + c) * 16 + d, rest)
  | _ => none

def escaped? : Text → Option (Char × Text)
  | '"' :: rest => some ('"', rest)
  | '\\' :: rest => some ('\\', rest)
  | '/' :: rest => some ('/', rest)
  | 'b' :: rest => some ('\x08', rest)
  | 'f' :: rest => some ('\x0c', rest)
  | 'n' :: rest => some ('\n', rest)
  | 'r' :: rest => some ('\r', rest)
  | 't' :: rest => some ('\t', rest)
  | 'u' :: rest =>
    match unit? rest with
    | none => none
    | some (unit, after) =>
      if 0xD800 ≤ unit ∧ unit ≤ 0xDBFF then
        match after with
        | '\\' :: 'u' :: second =>
          match unit? second with
          | none => none
          | some (low, after) =>
            if 0xDC00 ≤ low ∧ low ≤ 0xDFFF then
              some (Char.ofNat (0x10000 + (unit - 0xD800) * 0x400 + (low - 0xDC00)), after)
            else none
        | _ => none
      else if 0xDC00 ≤ unit ∧ unit ≤ 0xDFFF then none
      else some (Char.ofNat unit, after)
  | _ => none

def string? : Nat → Text → Option (Text × Text)
  | 0, _ => none
  | _ + 1, [] => none
  | fuel + 1, c :: rest =>
    if c = '"' then some ([], rest)
    else if c = '\\' then
      match escaped? rest with
      | none => none
      | some (c, after) => (string? fuel after).map fun found => (c :: found.1, found.2)
    else if c.toNat < 0x20 then none
    else (string? fuel rest).map fun found => (c :: found.1, found.2)

/-- The digits at the start of a text, at least one, and what is left. -/
def digits? (text : Text) : Option (Text × Text) :=
  if text.takeWhile Char.isDigit = [] then none
  else some (text.takeWhile Char.isDigit, text.dropWhile Char.isDigit)

def exponent? (text : Text) : Option (Option (Bool × Text) × Text) :=
  match text with
  | c :: rest =>
    if c = 'e' ∨ c = 'E' then
      let (below, rest) :=
        match rest with
        | '+' :: rest => (false, rest)
        | '-' :: rest => (true, rest)
        | rest => (false, rest)
      (digits? rest).map fun found => (some (below, found.1), found.2)
    else some (none, text)
  | [] => some (none, text)

/-- The parts of a numeral after its sign, and what is left. No zero stands in front of
other digits. -/
def numeral? (text : Text) : Option (NumeralParts × Text) := do
  let (whole, rest) ← digits? text
  if whole.head? = some '0' ∧ whole.length > 1 then none
  else
    let (fraction, rest) ←
      match rest with
      | '.' :: after => (digits? after).map fun found => (some found.1, found.2)
      | _ => some (none, rest)
    let (exponent, rest) ← exponent? rest
    some (⟨whole, fraction, exponent⟩, rest)

def simple? (text : Text) : Option (Json × Text) :=
  match text with
  | '"' :: rest => (string? text.length rest).map fun found => (.string found.1, found.2)
  | '-' :: rest => do
    let (parts, rest) ← numeral? rest
    (parts.value? true).map (·, rest)
  | _ =>
    match Text.dropStart? "null".toList text with
    | some rest => some (.null, rest)
    | none =>
      match Text.dropStart? "true".toList text with
      | some rest => some (.boolean true, rest)
      | none =>
        match Text.dropStart? "false".toList text with
        | some rest => some (.boolean false, rest)
        | none => do
          let (parts, rest) ← numeral? text
          (parts.value? false).map (·, rest)

mutual

/-- The value at the start of a text, which may hold arrays and objects `depth` deep. -/
def value? : Nat → Nat → Text → Option (Json × Text)
  | 0, _, _ => none
  | fuel + 1, depth, text =>
    match skipSpaces text with
    | '[' :: rest =>
      if depth = 0 then none
      else
        match skipSpaces rest with
        | ']' :: rest => some (.array [], rest)
        | rest => (items? fuel (depth - 1) rest).map fun found => (.array found.1, found.2)
    | '\x7b' :: rest =>
      if depth = 0 then none
      else
        match skipSpaces rest with
        | '\x7d' :: rest => some (.object [], rest)
        | rest =>
          (members? fuel (depth - 1) [] rest).map fun found => (.object found.1, found.2)
    | text => simple? text

def items? : Nat → Nat → Text → Option (List Json × Text)
  | 0, _, _ => none
  | fuel + 1, depth, text =>
    match value? fuel depth text with
    | none => none
    | some (item, rest) =>
      match skipSpaces rest with
      | ',' :: rest => (items? fuel depth rest).map fun found => (item :: found.1, found.2)
      | ']' :: rest => some ([item], rest)
      | _ => none

/-- One member or more put into an object, up to the closing brace. Of members with one
name the last counts. -/
def members? : Nat → Nat → List (Text × Json) → Text → Option (List (Text × Json) × Text)
  | 0, _, _, _ => none
  | fuel + 1, depth, members, text =>
    match skipSpaces text with
    | '"' :: rest =>
      match string? text.length rest with
      | none => none
      | some (name, rest) =>
        match skipSpaces rest with
        | ':' :: rest =>
          match value? fuel depth rest with
          | none => none
          | some (value, rest) =>
            let members := insertMember name value members
            match skipSpaces rest with
            | ',' :: rest => members? fuel depth members rest
            | '\x7d' :: rest => some (members, rest)
            | _ => none
        | _ => none
    | _ => none

end

def depthLimit : Nat := 127

/-- The value that a text is. At most two steps lie between characters taken. -/
def read? (text : Text) : Option Json :=
  match value? (2 * text.length + 2) depthLimit text with
  | some (value, rest) => if skipSpaces rest = [] then some value else none
  | none => none

/-! ## Writing JSON

The compact text of a JSON value: no blanks, and only those characters escaped that must be. -/

def hexPair (n : Nat) : Text := [Nat.digitChar (n / 16), Nat.digitChar (n % 16)]

def writeChar (c : Char) : Text :=
  if c = '"' then ['\\', '"']
  else if c = '\\' then ['\\', '\\']
  else if c = '\x08' then ['\\', 'b']
  else if c = '\x0c' then ['\\', 'f']
  else if c = '\n' then ['\\', 'n']
  else if c = '\r' then ['\\', 'r']
  else if c = '\t' then ['\\', 't']
  else if c.toNat < 0x20 then "\\u00".toList ++ hexPair c.toNat
  else [c]

def writeString (text : Text) : Text := '"' :: text.flatMap writeChar ++ ['"']

mutual

def write : Json → Text
  | null => "null".toList
  | boolean value => if value then "true".toList else "false".toList
  | integer value => Text.ofInt value
  | double value => value.scientific?.getD "null".toList
  | string value => writeString value
  | array items => '[' :: Text.join [','] (writeItems items) ++ [']']
  | object members => '\x7b' :: Text.join [','] (writeMembers members) ++ ['\x7d']

def writeItems : List Json → List Text
  | [] => []
  | item :: rest => item.write :: writeItems rest

def writeMembers : List (Text × Json) → List Text
  | [] => []
  | (name, value) :: rest => (writeString name ++ ':' :: value.write) :: writeMembers rest

end

end Json

end Dotenv
