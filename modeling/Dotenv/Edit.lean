import Dotenv.Reading.File
/-!
# Edits

An edit is given as the text that would be written: it is read as a document of its own,
and the node that comes out is put into the target. A text that does not read as the one
thing it should describe is refused, and the document stays as it was.
-/

set_option autoImplicit false

namespace Dotenv

/-! ## Targets of edits

The parts of a document that an edit changes: the header, the last definition of a key, a
decorator among comment lines. Everything around the target is kept as it is. -/

namespace Decorator

/-- The last decorator of a name with another setting; `none` when there is none. -/
def replaceLast (name : Text) (setting : Setting) : List Decorator → Option (List Decorator)
  | [] => none
  | first :: rest =>
    match replaceLast name setting rest with
    | some rest => some (first :: rest)
    | none => if first.name = name then some ({ first with setting } :: rest) else none

end Decorator

namespace CommentLine

def replaceSetting (name : Text) (setting : Setting) : CommentLine → Option CommentLine
  | plain _ => none
  | decorated line =>
    (Decorator.replaceLast name setting line.decorators).map fun decorators =>
      decorated { line with decorators }

def replaceLast (name : Text) (setting : Setting) : List CommentLine → Option (List CommentLine)
  | [] => none
  | first :: rest =>
    match replaceLast name setting rest with
    | some rest => some (first :: rest)
    | none => (first.replaceSetting name setting).map (· :: rest)

/-- The last line of decorators with no comment after them, and the lines around it. -/
def lastOpen? :
    List CommentLine → Option (List CommentLine × DecoratorLine × List CommentLine)
  | [] => none
  | first :: rest =>
    match lastOpen? rest with
    | some (front, line, back) => some (first :: front, line, back)
    | none =>
      match first with
      | decorated line => if line.trailing.isNone then some ([], line, rest) else none
      | plain _ => none

/-- The width that a line of decorators may reach when one is added to it. -/
def widthLimit : Nat := 80

/-- A decorator added: to the last open line while that stays narrow, else on a new line. -/
def addDecorator (decorator : Decorator) (lines : List CommentLine) : List CommentLine :=
  let newLine := lines ++ [decorated (.new [{ decorator with leading := [] }])]
  match lastOpen? lines with
  | none => newLine
  | some (front, line, back) =>
    let added := { decorator with leading := [' '] }
    if line.render.length + added.render.length ≤ widthLimit then
      front ++ decorated { line with decorators := line.decorators ++ [added] } :: back
    else newLine

/-- A decorator set among lines: in the place of the last one of a name, or added. -/
def setDecorator (name : Text) (decorator : Decorator) (lines : List CommentLine) :
    List CommentLine :=
  (replaceLast name decorator.setting lines).getD (addDecorator decorator lines)

end CommentLine

namespace Node

def updateHeader (change : List CommentLine → List CommentLine) : List Node → List Node
  | blank raw :: rest => blank raw :: updateHeader change rest
  | block comments (some closing) :: rest => block (change comments) (some closing) :: rest
  | nodes => nodes

/-- Nodes with a divider that stands first turned into an empty header, if one does. -/
def adoptDivider : List Node → Option (List Node)
  | blank raw :: rest => (adoptDivider rest).map (blank raw :: ·)
  | divider raw :: rest => some (block [] (some raw) :: rest)
  | _ => none

def updateLast (key : Text) (change : Item → Item) : List Node → Option (List Node)
  | [] => none
  | first :: rest =>
    match updateLast key change rest with
    | some rest => some (first :: rest)
    | none =>
      match first with
      | item definition =>
        if definition.key = key then some (item (change definition) :: rest) else none
      | _ => none

end Node

namespace Document

/-- A document that has a header: its own, a divider at its start, or a new block of the
given lines, set off by a blank line from what follows. -/
def ensureHeader (lines : List Text) (document : Document) : Document :=
  match Node.adoptDivider document.nodes with
  | some nodes => { document with nodes }
  | none =>
    if document.headerIndex.isSome then document
    else
      let header := Node.block (lines.map fun line => .plain (.new line)) (some plainDivider)
      match document.nodes with
      | [] => ⟨[header], true⟩
      | nodes => { document with nodes := header :: .blank [] :: nodes }

def updateHeader (change : List CommentLine → List CommentLine) (document : Document) : Document :=
  { document with nodes := Node.updateHeader change document.nodes }

/-- A document with another last definition of a key. A key that is not defined is defined
first, without a value, at the end. -/
def updateItem (key : Text) (change : Item → Item) (document : Document) : Document :=
  match Node.updateLast key change document.nodes with
  | some nodes => { document with nodes }
  | none => ⟨document.nodes ++ [.item (change (.new key none))], true⟩

end Document

/-- An item with a decorator set: after its value if one of the name stands there, else
among the comments above. -/
def Item.setDecorator (name : Text) (decorator : Decorator) (item : Item) : Item :=
  let replaced := item.trailing.bind fun trailing =>
    (trailing.comment.replaceSetting name decorator.setting).map fun comment =>
      { trailing with comment }
  match replaced with
  | some trailing => { item with trailing := some trailing }
  | none => { item with above := CommentLine.setDecorator name decorator item.above }

/-! ## Descriptions -/

inductive Edit where
  /-- A header of the given lines, when there is none. -/
  | header (lines : List Text)
  /-- A decorator of the header. The value is what follows the `=`, or an argument list. -/
  | rootDecorator (name : Text) (value : Option Text)
  | itemDecorator (key name : Text) (value : Option Text)
  /-- The value of the last definition of a key, as it would stand after the `=`. -/
  | itemValue (key value : Text)
deriving DecidableEq, Repr

inductive EditError where
  | unreadable (text : Text) (fault : Fault)
  | notADecorator (text : Text)
  | notAnItem (text : Text)
deriving DecidableEq, Repr

def EditError.message : EditError → Text
  | unreadable text fault => "invalid edit ".toList ++ ticked text ++ ": ".toList ++ fault.message
  | notADecorator text => ticked text ++ " does not describe a single decorator".toList
  | notAnItem text => ticked text ++ " does not describe a single config item value".toList

namespace Edit

def decoratorText (name : Text) : Option Text → Text
  | none => "# @".toList ++ name
  | some value =>
    match value with
    | '(' :: _ => "# @".toList ++ name ++ value
    | _ => "# @".toList ++ name ++ '=' :: value

def itemText (key value : Text) : Text := key ++ '=' :: value

def describe (text : Text) : Except EditError Document :=
  (Document.read .standard text).mapError (.unreadable text)

def onlyDecorator? : List Node → Option Decorator
  | .block (.decorated line :: _) _ :: _ =>
    match line.decorators, line.trailing with
    | [decorator], none => some decorator
    | _, _ => none
  | _ => none

def readDecorator (name : Text) (value : Option Text) : Except EditError Decorator :=
  let text := decoratorText name value
  match describe text with
  | .error error => .error error
  | .ok document =>
    match onlyDecorator? document.nodes with
    | some decorator => .ok decorator
    | none => .error (.notADecorator text)

def readValue (key value : Text) : Except EditError (Option Term) :=
  let text := itemText key value
  match describe text with
  | .error error => .error error
  | .ok document =>
    match document.nodes with
    | [.item definition] =>
      if definition.trailing.isNone then .ok definition.value else .error (.notAnItem text)
    | _ => .error (.notAnItem text)

def apply (edit : Edit) (document : Document) : Except EditError Document :=
  match edit with
  | header lines => .ok (document.ensureHeader lines)
  | rootDecorator name value =>
    (readDecorator name value).map fun decorator =>
      (document.ensureHeader []).updateHeader (CommentLine.setDecorator name decorator)
  | itemDecorator key name value =>
    (readDecorator name value).map fun decorator =>
      document.updateItem key (Item.setDecorator name decorator)
  | itemValue key value =>
    (readValue key value).map fun value => document.updateItem key ({ · with value })

end Edit

/-- A document with one more plain line at the end of its header, if it has one. -/
def Document.pushHeaderComment (text : Text) (document : Document) : Document :=
  document.updateHeader (· ++ [.plain (.new text)])

end Dotenv
