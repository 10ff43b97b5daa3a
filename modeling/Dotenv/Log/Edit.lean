import Dotenv.Edit
import Dotenv.Log.Event
/-!
# Events of reading and of edits

What is reported while a text is read: each item in front of the first fault, and the
document when there is no fault. An edit reports the reading of its description, then what it adds
to the document.
-/

set_option autoImplicit false

namespace Dotenv

namespace Document

def readEvents (source : Text) : List Event :=
  let reading := readText (Text.unixLines source)
  let items := reading.nodes.filterMap Node.item?
  items.map (fun item => .parsedItem item.key item.lineCount) ++
    if reading.fault.isNone then [.parsedDocument reading.nodes.length items.length] else []

def loadEvents (path : Text) (octets : Option Octets) : List Event :=
  match octets.bind Octets.decode? with
  | none => []
  | some source => .loadingFile path (Text.width source) :: readEvents source

end Document

namespace Edit

def headerEvents (document : Document) : List Event :=
  if (Node.adoptDivider document.nodes).isSome then [.adoptedDivider]
  else if document.headerIndex.isNone then [.insertedHeader]
  else []

def itemEvents (key : Text) (document : Document) : List Event :=
  if (document.item? key).isNone then [.appendingItem key] else []

def events (edit : Edit) (document : Document) : List Event :=
  let followedBy (description : Text) (more : List Event) :=
    Document.readEvents description ++ if (edit.apply document).toOption.isSome then more else []
  match edit with
  | header _ => headerEvents document
  | rootDecorator name value => followedBy (decoratorText name value) (headerEvents document)
  | itemDecorator key name value => followedBy (decoratorText name value) (itemEvents key document)
  | itemValue key value => followedBy (itemText key value) (itemEvents key document)

end Edit

end Dotenv
