import Dotenv.Resolver.Basic
/-!
# Expressions

A term whose calls are bound to functions. Binding happens once; an expression can then be
evaluated in any scope. The keys that it reads are known beforehand, unless a function in it
may read any key.
-/

set_option autoImplicit false

namespace Dotenv

mutual

inductive Expr where
  | literal (value : Value)
  | call (name resolver : Text) (bound : Bound) (args : Exprs)

inductive Exprs where
  | nil
  | cons (key : Option Text) (value : Expr) (rest : Exprs)

end

mutual

/-- A term bound to the functions of a registry. The arguments of a call are bound before the
call itself. -/
def Expr.ofTerm (registry : Registry) : Term → Except SchemaError Expr
  | .literal written => .ok (.literal (.ofScalar written.scalar))
  | .call name args _ _ =>
    match registry.get? name with
    | none => .error (.unknownFunction name)
    | some resolver => do
      let exprs ← Exprs.ofArgs registry args
      let bound ← resolver.bind name args
      .ok (.call name resolver.name bound exprs)

def Exprs.ofArgs (registry : Registry) : Args → Except SchemaError Exprs
  | .nil => .ok .nil
  | .cons key value rest => do
    let value ← Expr.ofTerm registry value
    let rest ← Exprs.ofArgs registry rest
    .ok (.cons key value rest)

end

mutual

/-- The keys that an expression reads, with repetitions; `none` when they are not known. -/
def Expr.dependencies : Expr → Option (List Text)
  | .literal _ => some []
  | .call _ _ bound args => do
    let own ← bound.dependencies
    let others ← args.dependencies
    some (own ++ others)

def Exprs.dependencies : Exprs → Option (List Text)
  | .nil => some []
  | .cons _ value rest => do
    let first ← value.dependencies
    let others ← rest.dependencies
    some (first ++ others)

end

mutual

def Expr.evaluate (scope : Scope) : Expr → Attempt Value
  | .literal value => pure value
  | .call name _ bound args => bound.run ⟨name, args.arguments scope, scope⟩

def Exprs.arguments (scope : Scope) : Exprs → List Argument
  | .nil => []
  | .cons key value rest => ⟨key, value.evaluate scope⟩ :: rest.arguments scope

end

namespace Expr

def literal? : Expr → Option Value
  | literal value => some value
  | call _ _ _ _ => none

end Expr

def Value.tagged : Value → Text
  | .undefined => "Undefined".toList
  | .boolean value => "Bool(".toList ++ Scalar.word value ++ [')']
  | .number value => "Number(".toList ++ value.inCode ++ [')']
  | .text value => "String(".toList ++ Text.quoted value ++ [')']
  | .list _ => "Array".toList
  | .json _ => "Json".toList

mutual

def Expr.shown : Expr → Text
  | .literal value => "Literal(".toList ++ value.tagged ++ [')']
  | .call name _ _ .nil => name
  | .call name _ _ args =>
    name ++ '(' :: Text.join [',', ' '] args.shownEach ++ [')']

def Exprs.shownEach : Exprs → List Text
  | .nil => []
  | .cons _ value rest => value.shown :: rest.shownEach

end

end Dotenv
