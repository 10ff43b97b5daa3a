import Dotenv.Expression
/-!
# Schemas

What the decorators of a document ask of its items. Most settings are known outright; whether
an item is required, and whether it is secret, may be left to an expression.
-/

set_option autoImplicit false

namespace Dotenv

inductive Priority where
  | required
  | optional
  | suggested
  | unset
deriving DecidableEq, Repr, Inhabited

inductive Sensitivity where
  | secret
  | shown
  | unset
deriving DecidableEq, Repr, Inhabited

inductive Rule (α : Type) where
  | fixed (setting : α)
  | dynamic (expression : Expr)

inductive DefaultRequired where
  | required
  | optional
  /-- Those that have a value in the document. -/
  | infer
deriving DecidableEq, Repr, Inhabited

structure RootSchema where
  defaultRequired : DefaultRequired
  defaultSensitive : Bool
  envFlag : Option Text
deriving DecidableEq, Repr, Inhabited

def RootSchema.standard : RootSchema := ⟨.required, true, none⟩

structure ItemSchema where
  key : Text
  value : Expr
  /-- Whether the document gives the item a value at all. -/
  hasValue : Bool
  priority : Rule Priority
  sensitivity : Rule Sensitivity
  type : Option ValueType
  pattern : Option Pattern
  allowed : Option (List Text)
  least : Option Double
  most : Option Double
  description : Option Text
  sample : Option Text
  aliases : List Text

structure Schema where
  root : RootSchema
  items : List ItemSchema

namespace ItemSchema

def truth (expression : Expr) (scope : Scope) : Attempt Bool := do
  return (← expression.evaluate scope).isTruthy

def isRequiredBy (item : ItemSchema) (root : RootSchema) : Priority → Bool
  | .required => true
  | .optional | .suggested => false
  | .unset =>
    match root.defaultRequired with
    | .required => true
    | .optional => false
    | .infer => item.hasValue

def isRequired (item : ItemSchema) (root : RootSchema) (scope : Scope) : Attempt Bool :=
  match item.priority with
  | .fixed priority => pure (item.isRequiredBy root priority)
  | .dynamic expression => truth expression scope

def isSensitive (item : ItemSchema) (root : RootSchema) (scope : Scope) : Attempt Bool :=
  match item.sensitivity with
  | .fixed .secret => pure true
  | .fixed .shown => pure false
  | .fixed .unset => pure root.defaultSensitive
  | .dynamic expression => truth expression scope

/-! ## Checks of values

A value is converted to the type of its item, and then checked against what the item allows.
An empty value is checked only for being there at all. -/

def rangeText (least most : Option Double) : Text :=
  match least, most with
  | some least, some most => "expected ".toList ++ least.plain ++ " to ".toList ++ most.plain
  | some least, none => "expected at least ".toList ++ least.plain
  | none, some most => "expected at most ".toList ++ most.plain
  | none, none => []

/-- What a value measures: a number itself, a list its length, and all else the length of its
text. -/
def measure : Value → Double
  | .number value => value
  | .list items => .ofNat items.length
  | value => .ofNat value.display.length

def isInRange (item : ItemSchema) (measure : Double) : Bool :=
  !(item.least.any fun least => measure.lt least) && !(item.most.any fun most => most.lt measure)

def constraintErrors (item : ItemSchema) (value : Value) : List ItemError :=
  let text := value.display
  (match item.pattern with
    | some pattern => if pattern.isFoundIn text then [] else [.pattern pattern.source]
    | none => []) ++
  (match item.allowed with
    | some allowed => if allowed.contains text then [] else [.enumeration allowed]
    | none => []) ++
  if item.isInRange (measure value) then [] else [.outOfRange (rangeText item.least item.most)]

def typed? (item : ItemSchema) (value : Value) : Option Value :=
  match item.type with
  | some type => value.convert? type
  | none => some value

/-- The final value and what is wrong with it. What cannot be converted stays as it is. -/
def check (item : ItemSchema) (value : Value) (isRequired : Bool) : Value × List ItemError :=
  if value.isEmpty then (value, if isRequired then [.missing] else [])
  else
    match item.typed? value with
    | some typed => (typed, item.constraintErrors typed)
    | none => (value, [.conversion ((item.type.map ValueType.name).getD [])])

end ItemSchema

end Dotenv
