import Dotenv.Reading.Item
import Dotenv.Template
/-!
# Reading documents

A document is read line by line, up to the first fault. One that was read renders as the text,
its line ends as bare newlines.
-/

set_option autoImplicit false

namespace Dotenv

/-! ## Reading lines

A document is read line by line. Between nodes the reader holds the run of comment lines
right above: a divider closes the run into a block, an item takes it as its own, anything
else leaves it a block of its own. Inside a value that spans lines it holds the item so far.

Reading stops at the first fault and keeps the nodes before it. -/

inductive LineClass where
  | blank
  | comment
  | item
deriving DecidableEq, Repr

def LineClass.of (line : Text) : LineClass :=
  match Text.skipGap line with
  | [] => .blank
  | c :: _ => if c = '#' then .comment else .item

structure OpenItem where
  above : List CommentLine
  head : Scan.Head
  quote : Quote
  /-- Where the item's first line starts. -/
  start : Nat
  /-- Where the opening delimiter stands. -/
  opening : Nat
  /-- The value so far, without the newline at its end. -/
  raw : Text
deriving DecidableEq, Repr

inductive Position where
  | between (run : List CommentLine)
  | inside (item : OpenItem)
deriving DecidableEq, Repr

structure Reading where
  nodes : List Node
  fault : Option Fault
deriving DecidableEq, Repr

namespace Reading

def done : Reading := ⟨[], none⟩

def stop (fault : LineFault) (lineEnd : Nat) : Reading := ⟨[], some (fault.inText lineEnd)⟩

def prepend (nodes : List Node) (reading : Reading) : Reading :=
  { reading with nodes := nodes ++ reading.nodes }

end Reading

def looseBlock : List CommentLine → List Node
  | [] => []
  | run => [.block run none]

def closedBlock (run : List CommentLine) (divider : Text) : Node :=
  match run with
  | [] => .divider divider
  | run => .block run (some divider)

def readComment (line : Text) : Except LineFault (Text ⊕ CommentLine) :=
  let afterHash := (Text.skipGap line).drop 1
  if Scan.isDivider afterHash then .ok (.inl line)
  else (Scan.comment (Text.gap line ++ ['#']) afterHash).map .inr

/-- The item that an open item becomes when its value is closed on a line, at an offset. -/
def OpenItem.close (item : OpenItem) (line afterValue : Text) (lineEnd : Nat) :
    Except LineFault Item :=
  (Scan.lineEnd afterValue).map fun found =>
    let raw := item.raw ++ '\n' :: Text.before afterValue line
    item.head.item item.above (some (.literal ⟨raw, some item.quote⟩)) found.1 found.2
      ⟨item.start, lineEnd⟩

/-- What an item line yields under a run of comments: the item, or an open item. -/
def readItem (run : List CommentLine) (line : Text) (start : Nat) :
    Except LineFault (Item ⊕ OpenItem) := do
  let (head, fromValue) ← Scan.head line
  match ← Scan.beginning fromValue with
  | .opened quote =>
    let opening := start + Text.width line - Text.width fromValue
    return .inr ⟨run, head, quote, start, opening, fromValue⟩
  | .whole value rest =>
    let (trailing, tail) ← Scan.lineEnd rest
    return .inl (head.item run value trailing tail ⟨start, start + Text.width line⟩)

def readLines : Position → Nat → List Text → Reading
  | .between run, _, [] => ⟨looseBlock run, none⟩
  | .inside item, _, [] =>
    ⟨[], some ⟨.unterminated item.quote, ⟨item.opening, item.opening + 3⟩⟩⟩
  | .between run, start, line :: more =>
    let stop := start + Text.width line
    match LineClass.of line with
    | .blank =>
      (readLines (.between []) (stop + 1) more).prepend (looseBlock run ++ [.blank line])
    | .comment =>
      match readComment line with
      | .error fault => .stop fault stop
      | .ok (.inl divider) =>
        (readLines (.between []) (stop + 1) more).prepend [closedBlock run divider]
      | .ok (.inr comment) => readLines (.between (run ++ [comment])) (stop + 1) more
    | .item =>
      match readItem run line start with
      | .error fault => .stop fault stop
      | .ok (.inl item) => (readLines (.between []) (stop + 1) more).prepend [.item item]
      | .ok (.inr item) => readLines (.inside item) (stop + 1) more
  | .inside item, start, line :: more =>
    let stop := start + Text.width line
    match Scan.closeBlock item.quote.mark line with
    | none => readLines (.inside { item with raw := item.raw ++ '\n' :: line }) (stop + 1) more
    | some afterValue =>
      match item.close line afterValue stop with
      | .error fault => .stop fault stop
      | .ok closed => (readLines (.between []) (stop + 1) more).prepend [.item closed]

def readText (text : Text) : Reading := readLines (.between []) 0 (Text.lines text)

/-! ## Reading documents

A text is read into a document, or refused with its first fault. A document that was read
renders as the text, its line ends as bare newlines. -/

structure ReadOptions where
  expand : Bool
  /-- Names without braces count as substitutions. -/
  bareNames : Bool
deriving DecidableEq, Repr

def ReadOptions.standard : ReadOptions := ⟨true, true⟩

namespace Document

def readVerbatim (source : Text) : Except Fault Document :=
  let text := Text.unixLines source
  let reading := readText text
  match reading.fault with
  | some fault => .error fault
  | none => .ok ⟨reading.nodes, Text.endsWithNewline text⟩

def read (options : ReadOptions) (source : Text) : Except Fault Document :=
  (readVerbatim source).map fun document =>
    if options.expand then document.expand options.bareNames else document

end Document

/-! ## Reading files

A file is read from its octets, which must be UTF-8. A fault names the file and shows the
line. -/

inductive LoadError where
  /-- There is no such file, or it is not UTF-8. -/
  | unreadable
  | refused (path source : Text) (fault : Fault)
deriving DecidableEq, Repr

def LoadError.message : LoadError → Text
  | unreadable => "failed to read the file".toList
  | refused path source fault =>
    "failed to parse ".toList ++ path ++ ":\n".toList ++ fault.diagnostic source

namespace Document

/-- The document in a file, given its path and its octets if it is there. -/
def load (path : Text) (octets : Option Octets) : Except LoadError Document :=
  match octets.bind Octets.decode? with
  | none => .error .unreadable
  | some source => (read .standard source).mapError (.refused path source)

end Document

end Dotenv
