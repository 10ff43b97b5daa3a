import Dotenv.Document.Basic
import Dotenv.Reading.Scan
/-!
# Reading comments and item lines

One line at a time, or the first fault in it.
-/

set_option autoImplicit false

namespace Dotenv

/-! ## Faults

Why a text is no document, and where. Reading stops at the first fault. Within a line a
fault is placed by the two rests of the line that follow its ends; its span in the whole
text comes from the offset at which the line ends. -/

inductive DecoratorFault where
  | missingName
  | malformedArguments (name : Text)
  | invalidCharacter (found : Char) (name : Text)
  | missingValue (name : Text)
  | textAfterValue (found : Char) (name : Text)
  | textAfterDecorator (found : Text)
deriving DecidableEq, Repr

inductive Cause where
  /-- A quote is opened and not closed. -/
  | unterminated (quote : Quote)
  | singleLine (quote : Quote)
  | invalidKey (found : Text)
  | missingEquals (key : Text)
  | invalidDecorator (fault : DecoratorFault)
  | unexpectedText (found : Text)
deriving DecidableEq, Repr

structure Fault where
  cause : Cause
  span : Span
deriving DecidableEq, Repr

/-- A cause and its place in a line: from where `start` is left of the line to where `stop` is. -/
structure LineFault where
  cause : Cause
  start : Text
  stop : Text
deriving DecidableEq, Repr

def ticked (text : Text) : Text := '`' :: text ++ ['`']

def DecoratorFault.message : DecoratorFault → Text
  | missingName => "expected a decorator name after `@`".toList
  | malformedArguments name => "malformed argument list for ".toList ++ ticked ('@' :: name)
  | invalidCharacter found name =>
    "invalid character ".toList ++ ticked [found] ++ " in decorator ".toList ++ ticked ('@' :: name)
  | missingValue name => "missing value after ".toList ++ ticked ('@' :: name ++ ['='])
  | textAfterValue found name =>
    "unexpected ".toList ++ ticked [found] ++ " after value of ".toList ++ ticked ('@' :: name)
  | textAfterDecorator found =>
    "unexpected text ".toList ++ ticked found ++ " after decorator".toList

def Fault.message (fault : Fault) : Text :=
  let place := Text.ofNat fault.span.start
  match fault.cause with
  | .unterminated quote =>
    "unterminated ".toList ++ quote.name ++ "-quoted value at position ".toList ++ place
  | .singleLine quote =>
    quote.name ++ "-quoted value must span multiple lines (position ".toList ++ place ++ [')']
  | .invalidKey found =>
    "invalid key ".toList ++ ticked found ++ " at position ".toList ++ place
  | .missingEquals key =>
    "expected `=` after key ".toList ++ ticked key ++ " at position ".toList ++ place
  | .invalidDecorator fault =>
    "invalid decorator at position ".toList ++ place ++ ": ".toList ++ fault.message
  | .unexpectedText found =>
    "unexpected text ".toList ++ ticked found ++ " at position ".toList ++ place

def Fault.diagnostic (fault : Fault) (source : Text) : Text :=
  fault.span.diagnostic (Text.unixLines source) fault.message

def Fault.context (fault : Fault) (source : Text) (margin : Nat) : Text :=
  fault.span.excerpt (Text.unixLines source) margin

def LineFault.inText (fault : LineFault) (lineEnd : Nat) : Fault :=
  ⟨fault.cause, ⟨lineEnd - Text.width fault.start, lineEnd - Text.width fault.stop⟩⟩

/-! ## Reading comments

A comment line is a divider, a run of decorators, or plain text. What begins with an `@`
after the `#` must be a run of decorators: there is no falling back to plain text. -/

namespace Scan

def isPunctuation (c : Char) : Bool :=
  (33 ≤ c.toNat && c.toNat ≤ 47) || (58 ≤ c.toNat && c.toNat ≤ 64) ||
    (91 ≤ c.toNat && c.toNat ≤ 96) || (123 ≤ c.toNat && c.toNat ≤ 126)

def isDivider (text : Text) : Bool :=
  match Text.trim text with
  | [] => false
  | c :: rest => isPunctuation c && 2 ≤ rest.length && rest.all (· == c)

/-- A fault of a decorator, from where `start` is left to where `stop` is. -/
def refuse {α : Type} (fault : DecoratorFault) (start stop : Text) : Except LineFault α :=
  .error ⟨.invalidDecorator fault, start, stop⟩

def atBoundary : Text → Bool
  | [] => true
  | c :: _ => Text.isGap c

/-- The value after `@name=`. It ends at a gap unless it is in quotes or a call. -/
def decoratorValue (name text : Text) : Except LineFault (Term × Text) :=
  if atBoundary text then refuse (.missingValue name) ('=' :: text) text
  else
    match text.head?.bind Quote.ofMark? with
    | some quote =>
      match quotedLiteral quote text with
      | some (literal, rest) => .ok (.literal literal, rest)
      | none => .error ⟨.unterminated quote, text, text.drop 1⟩
    | none =>
      let token := (Term.literal (.bare (text.takeWhile (!Text.isGap ·))),
        text.dropWhile (!Text.isGap ·))
      match call? text with
      | some (value, rest) => .ok (if atBoundary rest then (value, rest) else token)
      | none => .ok token

def setting (name text : Text) : Except LineFault (Setting × Text) :=
  match text with
  | [] => .ok (.flag, text)
  | c :: rest =>
    if Text.isGap c then .ok (.flag, text)
    else if c = '=' then
      match decoratorValue name rest with
      | .error fault => .error fault
      | .ok (value, after) =>
        match after with
        | [] => .ok (.assigned value, after)
        | c :: beyond =>
          if Text.isGap c then .ok (.assigned value, after)
          else refuse (.textAfterValue c name) after beyond
    else if c = '(' then
      match arguments? rest with
      | some (args, after) => .ok (.call args (some (Text.before after text)), after)
      | none => refuse (.malformedArguments name) text []
    else refuse (.invalidCharacter c name) text rest

def decorator (leading text : Text) : Except LineFault (Decorator × Text) :=
  match name? text with
  | none => refuse .missingName ('@' :: text) (text.drop 1)
  | some (name, rest) => (setting name rest).map fun found => (⟨leading, name, found.1⟩, found.2)

/-- The decorators of a line from an `@`, which is taken; the plain comment after them, and
the gap at the end of the line. Each decorator takes at least one character, so the length
of the text is fuel enough. -/
def decorators : Nat → Text → Text → Except LineFault (List Decorator × Option Comment × Text)
  | 0, leading, text => .ok ([], none, leading ++ '@' :: text)
  | fuel + 1, leading, text =>
    match decorator leading text with
    | .error fault => .error fault
    | .ok (first, after) =>
      let gap := Text.gap after
      match Text.skipGap after with
      | [] => .ok ([first], none, gap)
      | c :: rest =>
        if c = '@' ∧ gap ≠ [] then
          match decorators fuel gap rest with
          | .error fault => .error fault
          | .ok (more, trailing, tail) => .ok (first :: more, trailing, tail)
        else if c = '#' then .ok ([first], some ⟨gap ++ ['#'], rest⟩, [])
        else
          let found := (c :: rest).takeWhile (!Text.isGap ·)
          refuse (.textAfterDecorator found) (c :: rest) ((c :: rest).dropWhile (!Text.isGap ·))

/-- A comment line from after its `#`; `opening` is the text up to there. -/
def comment (opening afterHash : Text) : Except LineFault CommentLine :=
  match Text.skipGap afterHash with
  | '@' :: rest =>
    match decorators (rest.length + 1) [] rest with
    | .error fault => .error fault
    | .ok (list, trailing, tail) =>
      .ok (.decorated ⟨opening ++ Text.gap afterHash, list, trailing, tail⟩)
  | _ => .ok (.plain ⟨opening, afterHash⟩)

/-! ## Reading item lines

The line of an item has a head, up to the value, and an end after the value. A value in
quotes of three marks goes on over the following lines, so the line that opens it yields a
head alone. -/

structure Head where
  indent : Text
  exported : Option Text
  key : Text
  beforeEquals : Text
  afterEquals : Text
deriving DecidableEq, Repr

def Head.item (head : Head) (above : List CommentLine) (value : Option Term)
    (trailing : Option TrailingComment) (tail : Text) (span : Span) : Item :=
  { above, indent := head.indent, exported := head.exported, key := head.key,
    beforeEquals := head.beforeEquals, afterEquals := head.afterEquals, value, trailing, tail,
    span }

def exportWord (text : Text) : Option Text × Text :=
  match Text.dropStart? "export".toList text with
  | some after =>
    if Text.gap after ≠ [] ∧ startsName (Text.skipGap after) then
      (some ("export".toList ++ Text.gap after), Text.skipGap after)
    else (none, text)
  | none => (none, text)

/-- The key at the start of a text; empty when no key starts there. -/
def key (text : Text) : Text := if startsName text then text.takeWhile isKeyChar else []

def head (line : Text) : Except LineFault (Head × Text) :=
  let (exported, fromKey) := exportWord (Text.skipGap line)
  let key := key fromKey
  let afterKey := fromKey.drop key.length
  let beforeEquals := Text.gap afterKey
  let fromEquals := Text.skipGap afterKey
  let stray : Bool := beforeEquals = [] && fromEquals.head?.any (· ≠ '=')
  let endsKey (c : Char) : Bool := Text.isGap c || c == '='
  if key = [] ∨ stray then
    let found := fromKey.takeWhile (!endsKey ·)
    .error ⟨.invalidKey found, fromKey, fromKey.dropWhile (!endsKey ·)⟩
  else
    match fromEquals with
    | '=' :: rest =>
      .ok (⟨Text.gap line, exported, key, beforeEquals, Text.gap rest⟩, Text.skipGap rest)
    | _ => .error ⟨.missingEquals key, fromKey, afterKey⟩

inductive Beginning where
  /-- The value, if any, is on this line; `rest` is left after it. -/
  | whole (value : Option Term) (rest : Text)
  | opened (quote : Quote)
deriving DecidableEq, Repr

def bareValue (text : Text) : Term × Text :=
  let literal := bareLiteral (toHash text) text
  let bare := (Term.literal literal.1, literal.2)
  match call? text with
  | some (value, rest) =>
    match Text.skipGap rest with
    | [] => (value, rest)
    | c :: _ => if c = '#' then (value, rest) else bare
  | none => bare

def blockQuote? (text : Text) : Option Quote :=
  if (Text.dropStart? Quote.tripleDouble.delimiter text).isSome then some .tripleDouble
  else if (Text.dropStart? Quote.tripleBacktick.delimiter text).isSome then some .tripleBacktick
  else none

def beginning (text : Text) : Except LineFault Beginning :=
  match text with
  | [] => .ok (.whole none text)
  | c :: rest =>
    if c = '#' then .ok (.whole none text)
    else
      match blockQuote? text with
      | some quote =>
        if (closeBlock quote.mark (text.drop 3)).isSome then
          .error ⟨.singleLine quote, text, text.drop 3⟩
        else .ok (.opened quote)
      | none =>
        match Quote.ofMark? c with
        | some quote =>
          match quotedLiteral quote text with
          | some (literal, rest) => .ok (.whole (some (.literal literal)) rest)
          | none => .error ⟨.unterminated quote, text, rest⟩
        | none =>
          let (value, rest) := bareValue text
          .ok (.whole (some value) rest)

/-- The end of an item line after the value: a comment or only a gap. -/
def lineEnd (text : Text) : Except LineFault (Option TrailingComment × Text) :=
  let gap := Text.gap text
  match Text.skipGap text with
  | [] => .ok (none, gap)
  | c :: rest =>
    if c = '#' then (comment ['#'] rest).map fun comment => (some ⟨gap, comment⟩, [])
    else .error ⟨.unexpectedText (c :: rest), c :: rest, []⟩

end Scan

end Dotenv
