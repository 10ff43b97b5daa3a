import Dotenv.Document.Basic
import Dotenv.Schema.Basic
/-!
# The schema of a document

Each item is read for itself, and every error in it is reported: an item without a decorator
has nothing to report about it. The header comes first.
-/

set_option autoImplicit false

namespace Dotenv

/-! ## Decorators as settings

What single decorators, and groups of decorators that exclude each other, say. -/

abbrev Checked (α : Type) := Except SchemaError α

namespace Decorator

def static (decorator : Decorator) : Checked Scalar :=
  match decorator.scalar? with
  | some scalar => .ok scalar
  | none => .error (.notStatic decorator.name)

def text (decorator : Decorator) : Checked Text := do return (← decorator.static).display

/-- The number of a decorator: a number, or a text that reads as one. -/
def number (decorator : Decorator) : Checked Double := do
  match ← decorator.static with
  | .number value => return value
  | .text text =>
    match Double.read? (Text.trim text) with
    | some value => return value
    | none => throw (.notANumber decorator.name text)
  | scalar => throw (.notANumber decorator.name scalar.display)

def literals (name : Text) : Args → Checked (List Text)
  | .nil => .ok []
  | .cons none (.literal written) rest => do
    return written.scalar.display :: (← literals name rest)
  | .cons _ _ _ => .error (.notStatic name)

/-- The texts that a decorator lists: its arguments, or its only value. -/
def texts (decorator : Decorator) : Checked (List Text) :=
  match decorator.setting with
  | .call args _ => literals decorator.name args
  | _ => do return [← decorator.text]

def enumeration (decorator : Decorator) : Checked (List Text) :=
  match decorator.setting with
  | .call args _ => literals decorator.name args
  | _ => .error (.refused "enum" "expected @enum(a, b, ...)")

def pattern (registry : Registry) (decorator : Decorator) : Checked Pattern := do
  match registry.readPattern (← decorator.text) with
  | .ok pattern => return pattern
  | .error reason => throw (.invalidPattern reason)

end Decorator

inductive Switch where
  | off
  | on
  | dynamic (expression : Expr)

structure Setter (α : Type) where
  name : String
  setting : α
  mayBeDynamic : Bool

namespace Setter

variable {α : Type}

def switch (registry : Registry) (mayBeDynamic : Bool) : Option Decorator → Checked Switch
  | none => .ok .off
  | some decorator =>
    match decorator.setting, mayBeDynamic with
    | .assigned (.call name args argsSource source), true => do
      return .dynamic (← Expr.ofTerm registry (.call name args argsSource source))
    | _, _ => do
      let scalar ← decorator.static
      return if (Value.ofScalar scalar).isTruthy then .on else .off

/-- The setting that the decorators of a group choose, given the first one that is set so far. At
most one may be set. -/
def choose (registry : Registry) (decorators : Keyed Decorator) (unset : α) :
    Option (Text × Rule α) → List (Setter α) → Checked (Rule α)
  | chosen, [] => .ok ((chosen.map Prod.snd).getD (.fixed unset))
  | chosen, setter :: rest => do
    let name := setter.name.toList
    let rule ←
      match ← switch registry setter.mayBeDynamic (decorators.get? name) with
      | .off => pure none
      | .on => pure (some (Rule.fixed setter.setting))
      | .dynamic expression => pure (some (Rule.dynamic expression))
    match rule, chosen with
    | none, _ => choose registry decorators unset chosen rest
    | some rule, none => choose registry decorators unset (some (name, rule)) rest
    | some _, some (first, _) => throw (.conflicting first name)

end Setter

/-! ## Schemas -/

def Checked.errors {α : Type} : Checked α → List SchemaError
  | .ok _ => []
  | .error error => [error]

def Checked.getD {α : Type} (checked : Checked α) (default : α) : α :=
  match checked with
  | .ok value => value
  | .error _ => default

def ifThere {α : Type} (decorators : Keyed Decorator) (name : String)
    (check : Decorator → Checked α) : Checked (Option α) :=
  match decorators.get? name.toList with
  | none => .ok none
  | some decorator => (check decorator).map some

namespace RootSchema

def requirement (decorator : Decorator) : Checked DefaultRequired := do
  match ← decorator.static with
  | .boolean true => return .required
  | .boolean false => return .optional
  | scalar =>
    if scalar = .text "infer".toList then return .infer
    else
      throw (.invalidArguments "defaultRequired".toList
        ("expected true, false or infer, got ".toList ++ scalar.display))

def secrecy (decorator : Decorator) : Checked Bool := do
  match ← decorator.static with
  | .boolean value => return value
  | scalar =>
    throw (.invalidArguments "defaultSensitive".toList
      ("expected true or false, got ".toList ++ scalar.display))

def flag (decorator : Decorator) : Checked Text := do
  match ← decorator.static with
  | .text (c :: key) => return c :: key
  | _ => throw (.notStatic "envFlag".toList)

def ofDecorators (decorators : Keyed Decorator) : Checked RootSchema := do
  let required ← ifThere decorators "defaultRequired" requirement
  let sensitive ← ifThere decorators "defaultSensitive" secrecy
  let envFlag ← ifThere decorators "envFlag" flag
  return ⟨required.getD standard.defaultRequired, sensitive.getD standard.defaultSensitive,
    envFlag⟩

end RootSchema

namespace ItemSchema

def priorities : List (Setter Priority) :=
  [⟨"required", .required, true⟩, ⟨"optional", .optional, false⟩,
   ⟨"suggested", .suggested, false⟩]

def sensitivities : List (Setter Sensitivity) :=
  [⟨"secret", .secret, true⟩, ⟨"public", .shown, false⟩]

def types : List (Setter (Option ValueType)) :=
  [⟨"number", some .number, false⟩, ⟨"boolean", some .boolean, false⟩,
   ⟨"array", some .list, false⟩, ⟨"json", some .json, false⟩]

def valueOf (registry : Registry) (item : Item) : Checked Expr :=
  match item.value with
  | none => .ok (.literal .undefined)
  | some term => Expr.ofTerm registry term

def isGiven : Expr → Bool
  | .literal value => !value.isUndefined
  | .call _ _ _ _ => true

def settled {α : Type} : Rule (Option α) → Option α
  | .fixed setting => setting
  | .dynamic _ => none

def rangeErrors : Option Double → Option Double → List SchemaError
  | some least, some most => if most.lt least then [.invalidRange least most] else []
  | _, _ => []

def ofItem (registry : Registry) (item : Item) : Except (List SchemaError) ItemSchema :=
  let decorators := item.decoratorsByName
  let value := valueOf registry item
  let priority := Setter.choose registry decorators .unset none priorities
  let sensitivity := Setter.choose registry decorators .unset none sensitivities
  let type := Setter.choose registry decorators none none types
  let pattern := ifThere decorators "pattern" (Decorator.pattern registry)
  let allowed := ifThere decorators "enum" Decorator.enumeration
  let least := ifThere decorators "min" Decorator.number
  let most := ifThere decorators "max" Decorator.number
  let description := ifThere decorators "desc" Decorator.text
  let sample := ifThere decorators "example" Decorator.text
  let aliases := ifThere decorators "alias" Decorator.texts
  let errors :=
    Checked.errors value ++ Checked.errors priority ++ Checked.errors sensitivity ++
    Checked.errors type ++ Checked.errors pattern ++ Checked.errors allowed ++
    Checked.errors least ++ Checked.errors most ++
    rangeErrors (Checked.getD least none) (Checked.getD most none) ++
    Checked.errors description ++ Checked.errors sample ++ Checked.errors aliases
  if errors = [] then
    let expression := Checked.getD value (.literal .undefined)
    .ok
      { key := item.key
        value := expression
        hasValue := isGiven expression
        priority := Checked.getD priority (.fixed .unset)
        sensitivity := Checked.getD sensitivity (.fixed .unset)
        type := settled (Checked.getD type (.fixed none))
        pattern := Checked.getD pattern none
        allowed := Checked.getD allowed none
        least := Checked.getD least none
        most := Checked.getD most none
        description := (Checked.getD description none).or item.description
        sample := Checked.getD sample none
        aliases := (Checked.getD aliases none).getD [] }
  else .error errors

end ItemSchema

namespace Schema

def ofItems (registry : Registry) : List Item → List ItemSchema × List SchemaIssue
  | [] => ([], [])
  | item :: rest =>
    let (schemas, issues) := ofItems registry rest
    match ItemSchema.ofItem registry item with
    | .ok schema => (schema :: schemas, issues)
    | .error errors =>
      (schemas, errors.map (fun error => ⟨some item.key, error⟩) ++ issues)

def ofDocument (registry : Registry) (document : Document) :
    Except (List SchemaIssue) Schema :=
  let root := RootSchema.ofDecorators document.decoratorsByName
  let (items, issues) := ofItems registry document.items
  match (Checked.errors root).map (fun error => ⟨none, error⟩) ++ issues with
  | [] => .ok ⟨Checked.getD root .standard, items⟩
  | issues => .error issues

end Schema

end Dotenv
