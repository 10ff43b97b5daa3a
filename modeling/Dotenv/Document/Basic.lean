import Dotenv.Document.Term
import Dotenv.Source
/-!
# Documents

A document is a list of nodes, one or more lines each. A header is a block of comments
closed by a divider, before everything but blank lines; its decorators hold for the whole
document.
-/

set_option autoImplicit false

namespace Dotenv

/-! ## Comments

A comment line is plain text, or a run of decorators with perhaps plain text after it.
Each piece of the line stands in exactly one field, so that rendering is joining. -/

inductive Setting where
  /-- `@name` -/
  | flag
  /-- `@name=value` -/
  | assigned (value : Term)
  /-- `@name(args)`, with the text of the argument list where known. -/
  | call (args : Args) (source : Option Text)
deriving DecidableEq, Repr, Inhabited

def Setting.render : Setting → Text
  | flag => []
  | assigned value => '=' :: value.render
  | call args source => args.render source

structure Decorator where
  /-- The gap between the token before it and the `@`. -/
  leading : Text
  name : Text
  setting : Setting
deriving DecidableEq, Repr, Inhabited

namespace Decorator

def render (decorator : Decorator) : Text :=
  decorator.leading ++ '@' :: decorator.name ++ decorator.setting.render

/-- The value that a decorator gives outright: a flag is true, a call gives none. -/
def scalar? (decorator : Decorator) : Option Scalar :=
  match decorator.setting with
  | .flag => some (.boolean true)
  | .assigned value => value.scalar?
  | .call _ _ => none

/-- Decorators by name. The last one of a name counts, at the place of the first. -/
def byName (decorators : List Decorator) : Keyed Decorator :=
  .ofList (decorators.map fun decorator => (decorator.name, decorator))

end Decorator

structure Comment where
  /-- Everything up to the `#` and the `#` itself. -/
  opening : Text
  /-- Everything after the `#`. -/
  text : Text
deriving DecidableEq, Repr, Inhabited

namespace Comment

def new (text : Text) : Comment := ⟨['#'], ' ' :: text⟩

def render (comment : Comment) : Text := comment.opening ++ comment.text

def contents (comment : Comment) : Text := Text.trim comment.text

end Comment

structure DecoratorLine where
  /-- Everything before the first `@`. -/
  opening : Text
  decorators : List Decorator
  /-- A plain comment after the decorators; its opening holds the gap before it. -/
  trailing : Option Comment
  /-- The gap at the end of a line without a trailing comment. -/
  tail : Text
deriving DecidableEq, Repr, Inhabited

namespace DecoratorLine

def new (decorators : List Decorator) : DecoratorLine := ⟨['#', ' '], decorators, none, []⟩

def render (line : DecoratorLine) : Text :=
  line.opening ++ line.decorators.flatMap Decorator.render ++
    match line.trailing with
    | some comment => comment.render
    | none => line.tail

end DecoratorLine

inductive CommentLine where
  | plain (comment : Comment)
  | decorated (line : DecoratorLine)
deriving DecidableEq, Repr, Inhabited

namespace CommentLine

def render : CommentLine → Text
  | plain comment => comment.render
  | decorated line => line.render

def decorators : CommentLine → List Decorator
  | plain _ => []
  | decorated line => line.decorators

def remark? : CommentLine → Option Text
  | plain comment => if comment.contents = [] then none else some comment.contents
  | decorated _ => none

end CommentLine

def plainDivider : Text := "# ---".toList

/-! ## Items

An item defines one key, with comments above its line and perhaps one after its value. -/

structure TrailingComment where
  /-- The gap between the value and the `#`. -/
  gap : Text
  comment : CommentLine
deriving DecidableEq, Repr, Inhabited

structure Item where
  above : List CommentLine
  indent : Text
  /-- The word `export` with the gap after it. -/
  exported : Option Text
  key : Text
  beforeEquals : Text
  afterEquals : Text
  /-- None when nothing stands after the equals sign. -/
  value : Option Term
  trailing : Option TrailingComment
  /-- The gap at the end of a line without a trailing comment. -/
  tail : Text
  span : Span
deriving DecidableEq, Repr, Inhabited

namespace Item

def new (key : Text) (value : Option Term) : Item :=
  { above := [], indent := [], exported := none, key, beforeEquals := [], afterEquals := [],
    value, trailing := none, tail := [], span := ⟨0, 0⟩ }

def renderOwn (item : Item) : Text :=
  item.indent ++ item.exported.getD [] ++ item.key ++ item.beforeEquals ++ '=' ::
    item.afterEquals ++ (item.value.map Term.render).getD [] ++
    match item.trailing with
    | some trailing => trailing.gap ++ trailing.comment.render
    | none => item.tail

def render (item : Item) : Text :=
  item.above.flatMap (fun line => line.render ++ ['\n']) ++ item.renderOwn

def comments (item : Item) : List CommentLine :=
  item.above ++ (item.trailing.map TrailingComment.comment).toList

def decorators (item : Item) : List Decorator := item.comments.flatMap CommentLine.decorators

def decoratorsByName (item : Item) : Keyed Decorator :=
  Decorator.byName item.decorators

/-- What the plain comments say, one line each; none when they say nothing. -/
def description (item : Item) : Option Text :=
  match item.comments.filterMap CommentLine.remark? with
  | [] => none
  | remarks => some (Text.join ['\n'] remarks)

def lineCount (item : Item) : Nat := item.renderOwn.count '\n' + 1

end Item

/-! ## Nodes -/

inductive Node where
  /-- A line of gaps only. -/
  | blank (raw : Text)
  /-- A comment line of one repeated punctuation mark, with no comment above it. -/
  | divider (raw : Text)
  /-- Comment lines that belong to no item, and the divider that closes them. -/
  | block (comments : List CommentLine) (closing : Option Text)
  | item (definition : Item)
deriving DecidableEq, Repr, Inhabited

namespace Node

def renderBlock (comments : List CommentLine) (closing : Option Text) : Text :=
  Text.join ['\n'] (comments.map CommentLine.render ++ closing.toList)

def render : Node → Text
  | blank raw => raw
  | divider raw => raw
  | block comments closing => renderBlock comments closing
  | item definition => definition.render

def isBlank : Node → Bool
  | blank _ => true
  | _ => false

def item? : Node → Option Item
  | item definition => some definition
  | _ => none

end Node

structure Document where
  nodes : List Node
  trailingNewline : Bool
deriving DecidableEq, Repr, Inhabited

namespace Document

def empty : Document := ⟨[], false⟩

def render (document : Document) : Text :=
  Text.join ['\n'] (document.nodes.map Node.render) ++
    if document.trailingNewline then ['\n'] else []

def findHeader : List Node → Option (Nat × List CommentLine × Text)
  | [] => none
  | .blank _ :: rest => (findHeader rest).map fun found => (found.1 + 1, found.2)
  | .block comments (some closing) :: _ => some (0, comments, closing)
  | _ :: _ => none

def headerIndex (document : Document) : Option Nat := (findHeader document.nodes).map Prod.fst

def headerComments (document : Document) : List CommentLine :=
  match findHeader document.nodes with
  | some (_, comments, _) => comments
  | none => []

def decorators (document : Document) : List Decorator :=
  document.headerComments.flatMap CommentLine.decorators

def decoratorsByName (document : Document) : Keyed Decorator :=
  Decorator.byName document.decorators

def items (document : Document) : List Item := document.nodes.filterMap Node.item?

def item? (document : Document) (key : Text) : Option Item :=
  (document.items.filter (·.key = key)).getLast?

end Document

end Dotenv
