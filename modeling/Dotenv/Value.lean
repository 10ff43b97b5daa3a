import Dotenv.Document.Term
import Dotenv.Json
/-!
# Values

What an expression evaluates to. Expressions yield undefined, booleans, numbers and
texts; lists and JSON come from the conversion to an item's type.
-/

set_option autoImplicit false

namespace Dotenv

inductive Value where
  | undefined
  | boolean (value : Bool)
  | number (value : Double)
  | text (value : Text)
  | list (items : List Value)
  | json (value : Json)
deriving Inhabited, Repr

namespace Value

def ofScalar : Scalar → Value
  | .undefined => undefined
  | .boolean value => boolean value
  | .number value => number value
  | .text value => text value

def isUndefined : Value → Bool
  | undefined => true
  | _ => false

def isEmpty : Value → Bool
  | undefined => true
  | text value => value = []
  | _ => false

def text? : Value → Option Text
  | text value => some value
  | _ => none

mutual

/-- A value as text. Undefined reads as nothing; a list is its items between commas. -/
def display : Value → Text
  | undefined => []
  | boolean value => Scalar.word value
  | number value => value.compact
  | text value => value
  | list items => Text.join [','] (displayEach items)
  | json value => value.write

def displayEach : List Value → List Text
  | [] => []
  | item :: rest => item.display :: displayEach rest

end

def exported (value : Value) : Option Text :=
  if value.isUndefined then none else some value.display

/-- Whether a value means yes. Undefined, false, zero, the empty text, the text `false`, the
empty list and the JSON null mean no. -/
def isTruthy : Value → Bool
  | undefined => false
  | boolean value => value
  | number value => !value.isZero
  | text value => value ≠ [] && value ≠ "false".toList
  | list items => !items.isEmpty
  | json .null => false
  | json _ => true

def redaction : Text := "*****".toList

/-- A value as it may be shown anywhere: only whether it is defined. -/
def redacted (value : Value) : Text :=
  if value.isUndefined then "undefined".toList else redaction

mutual

/-- A value as JSON. Undefined, and numbers that are not finite, are null. -/
def toJson : Value → Json
  | undefined => .null
  | boolean value => .boolean value
  | number value => .ofDouble value
  | text value => .string value
  | list items => .array (toJsonEach items)
  | json value => value

def toJsonEach : List Value → List Json
  | [] => []
  | item :: rest => item.toJson :: toJsonEach rest

end

end Value

/-! ## Conversion to a type

An item may ask for a type. A value is converted to it where that can be done without
guessing; undefined stays undefined. -/

inductive ValueType where
  | number
  | boolean
  | list
  | json
deriving DecidableEq, Repr, Inhabited

def ValueType.name : ValueType → Text
  | number => "number".toList
  | boolean => "boolean".toList
  | list => "array".toList
  | json => "json".toList

namespace Value

def numberOf? (text : Text) : Option Double :=
  match Double.read? (Text.trim text) with
  | some value => if value.isFinite then some value else none
  | none => none

/-- The words for yes and no, in any case, blanks around them aside. -/
def booleanOf? (text : Text) : Option Bool :=
  let word := Text.lower (Text.trim text)
  if ["true", "1", "yes", "on"].any (·.toList = word) then some true
  else if ["false", "0", "no", "off"].any (·.toList = word) then some false
  else none

def parts (value : Text) : List Value :=
  (Text.splitOn ',' value).map fun part => text (Text.trim part)

/-- A value of a type; `none` when the value is nothing of the kind. -/
def convert? (type : ValueType) (value : Value) : Option Value :=
  match type, value with
  | _, undefined => some undefined
  | .number, number x => some (number x)
  | .number, text t => (numberOf? t).map number
  | .number, _ => none
  | .boolean, boolean b => some (boolean b)
  | .boolean, number x =>
    if x.isZero then some (boolean false)
    else if x.same (.ofNat 1) then some (boolean true)
    else none
  | .boolean, text t => (booleanOf? t).map boolean
  | .boolean, _ => none
  | .list, list items => some (list items)
  | .list, value => some (list (parts value.display))
  | .json, json j => some (json j)
  | .json, text t => (Json.read? t).map json
  | .json, value => some (json value.toJson)

end Value

end Dotenv
