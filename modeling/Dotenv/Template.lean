import Dotenv.Document.Basic
import Dotenv.Reading.Scan
/-!
# Templates

A template is a text with substitutions: `$(script)` stands for the output of a command,
`$NAME` and `${NAME}` for the value of a key, `${NAME:-default}` and `${NAME-default}` for
that value or, in its place, for a default that is a template again.

Commands are split off first, up to the first closing parenthesis; the other forms are
looked for only in the text between them. What is no complete form stands for itself.
-/

set_option autoImplicit false

namespace Dotenv

inductive DefaultRule where
  /-- `:-`: the value is undefined or empty. -/
  | whenEmpty
  /-- `-`: the value is undefined. -/
  | whenUndefined
deriving DecidableEq, Repr

inductive Template where
  | nil
  | plain (text : Text) (rest : Template)
  | command (script : Text) (rest : Template)
  | reference (name : Text) (rest : Template)
  | default (rule : DefaultRule) (name : Text) (instead : Template) (rest : Template)
deriving DecidableEq, Repr

namespace Template

def append : Template → Template → Template
  | nil, more => more
  | plain text rest, more => plain text (rest.append more)
  | command script rest, more => command script (rest.append more)
  | reference name rest, more => reference name (rest.append more)
  | default rule name instead rest, more => default rule name instead (rest.append more)

def push (c : Char) : Template → Template
  | plain text rest => plain (c :: text) rest
  | template => plain [c] template

def isBracedChar (c : Char) : Bool := Scan.isNameChar c || c == '.'

def bracedName? (text : Text) : Option (Text × Text) :=
  if Scan.startsName text then some (text.takeWhile isBracedChar, text.dropWhile isBracedChar)
  else none

/-- What is left from the brace that closes a default on, when `depth` braces opened inside
it are still to be closed. -/
def closeBrace : Nat → Text → Option Text
  | _, [] => none
  | depth, '$' :: '{' :: rest => closeBrace (depth + 1) rest
  | 0, '}' :: rest => some ('}' :: rest)
  | depth + 1, '}' :: rest => closeBrace depth rest
  | depth, _ :: rest => closeBrace depth rest

/-- The rule that an operator after a name asks for, and what is left. -/
def defaultRule? : Text → Option (DefaultRule × Text)
  | ':' :: '-' :: rest => some (.whenEmpty, rest)
  | '-' :: rest => some (.whenUndefined, rest)
  | _ => none

inductive Form where
  | reference (name rest : Text)
  | default (rule : DefaultRule) (name instead rest : Text)
deriving DecidableEq, Repr

def braced? (text : Text) : Option Form :=
  match bracedName? text with
  | none => none
  | some (name, after) =>
    match after with
    | '}' :: rest => some (.reference name rest)
    | _ =>
      match defaultRule? after with
      | none => none
      | some (rule, body) =>
        match closeBrace 0 body with
        | none => none
        | some rest => some (.default rule name (Text.before rest body) (rest.drop 1))

/-- The form after a dollar sign. Names without braces count only when `bare` is set. -/
def form? (bare : Bool) (text : Text) : Option Form :=
  match text with
  | '{' :: rest => braced? rest
  | _ =>
    if bare then (Scan.name? text).map fun found => .reference found.1 found.2 else none

/-- The template of a text without commands. Every step takes a character, so the length of
the text is fuel enough. -/
def substitutions (bare : Bool) : Nat → Text → Template
  | 0, _ => nil
  | _ + 1, [] => nil
  | fuel + 1, c :: rest =>
    if c = '$' then
      match form? bare rest with
      | some (.reference name after) => reference name (substitutions bare fuel after)
      | some (.default rule name instead after) =>
        default rule name (substitutions bare fuel instead) (substitutions bare fuel after)
      | none => push c (substitutions bare fuel rest)
    else push c (substitutions bare fuel rest)

def ofPlain (bare : Bool) (text : Text) : Template := substitutions bare text.length text

/-- The script of the command after a dollar sign, and what is left. -/
def script? : Text → Option (Text × Text)
  | '(' :: rest =>
    let script := rest.takeWhile (· ≠ ')')
    match rest.dropWhile (· ≠ ')') with
    | ')' :: after => if script = [] then none else some (script, after)
    | _ => none
  | _ => none

/-- The text in front of the first command, and each script with the text after it. -/
def splitCommands : Nat → Text → Text × List (Text × Text)
  | 0, _ => ([], [])
  | _ + 1, [] => ([], [])
  | fuel + 1, c :: rest =>
    let found := if c = '$' then script? rest else none
    match found with
    | some (script, after) =>
      let (text, more) := splitCommands fuel after
      ([], (script, text) :: more)
    | none =>
      let (text, more) := splitCommands fuel rest
      (c :: text, more)

def ofCommands (bare : Bool) : List (Text × Text) → Template
  | [] => nil
  | (script, text) :: more => command script ((ofPlain bare text).append (ofCommands bare more))

def ofText (bare : Bool) (text : Text) : Template :=
  let (first, more) := splitCommands text.length text
  (ofPlain bare first).append (ofCommands bare more)

end Template

/-! ## Expansion

A literal that holds substitutions is put as a call: the parts of its template joined by
`concat`, keys read by `ref`, defaults by `fallback` and `coalesce`, commands by `eval`.
The call remembers the text of the literal, so a document renders as before.

What stands in single quotes is never expanded, and neither is what is no text. -/

namespace DefaultRule

def function : DefaultRule → String
  | whenEmpty => "fallback"
  | whenUndefined => "coalesce"

end DefaultRule

namespace Term

def text (text : Text) (quote : Quote) : Term := .literal (.quoted text quote)

def reference (name : Text) : Term := applyNamed "ref" [text name .double]

def joined (quote : Quote) : List Term → Term
  | [] => text [] quote
  | [part] => part
  | parts => applyNamed "concat" parts

def isCall : Term → Bool
  | .call _ _ _ _ => true
  | .literal _ => false

def withSource (source : Text) : Term → Term
  | .call name args argsSource _ => .call name args argsSource (some source)
  | term => term

end Term

def Template.terms (quote : Quote) : Template → List Term
  | nil => []
  | plain text rest => Term.text text quote :: rest.terms quote
  | command script rest =>
    Term.applyNamed "eval" [Term.text script .double] :: rest.terms quote
  | reference name rest => Term.reference name :: rest.terms quote
  | default rule name instead rest =>
    Term.applyNamed rule.function [Term.reference name, Term.joined quote (instead.terms quote)] ::
      rest.terms quote

/-- The call that a literal stands for, when it holds a substitution. -/
def Literal.expand? (bare : Bool) (literal : Literal) : Option Term :=
  if literal.isVerbatim then none
  else
    match literal.scalar with
    | .text text =>
      let quote := literal.quote.getD .double
      let parts := (Template.ofText bare text).terms quote
      if parts.any Term.isCall then some ((Term.joined quote parts).withSource literal.raw)
      else none
    | _ => none

mutual

def Term.expand (bare : Bool) : Term → Term
  | .literal written => (written.expand? bare).getD (.literal written)
  | .call name args argsSource source => .call name (args.expand bare) argsSource source

def Args.expand (bare : Bool) : Args → Args
  | .nil => .nil
  | .cons key value rest => .cons key (value.expand bare) (rest.expand bare)

end

/-- A setting with its value expanded; an argument list of a decorator stays as it is. -/
def Setting.expand (bare : Bool) : Setting → Setting
  | assigned value => assigned (value.expand bare)
  | setting => setting

def CommentLine.expand (bare : Bool) : CommentLine → CommentLine
  | plain comment => plain comment
  | decorated line =>
    decorated { line with
      decorators := line.decorators.map fun decorator =>
        { decorator with setting := decorator.setting.expand bare } }

def Item.expand (bare : Bool) (item : Item) : Item :=
  { item with
    above := item.above.map (CommentLine.expand bare)
    value := item.value.map (Term.expand bare)
    trailing := item.trailing.map fun trailing =>
      { trailing with comment := trailing.comment.expand bare } }

def Node.expand (bare : Bool) : Node → Node
  | block comments closing => block (comments.map (CommentLine.expand bare)) closing
  | item definition => item (definition.expand bare)
  | node => node

/-- A document with every value in it expanded. Names without braces count only when `bare`
is set. -/
def Document.expand (bare : Bool) (document : Document) : Document :=
  { document with nodes := document.nodes.map (Node.expand bare) }

end Dotenv
