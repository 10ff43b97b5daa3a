import Dotenv.Text.Basic
/-!
# Places in a text

A span is a range of byte offsets into a text whose line ends are bare newlines.
-/

set_option autoImplicit false

namespace Dotenv

structure Span where
  start : Nat
  stop : Nat
deriving DecidableEq, Repr, Inhabited

namespace Span

def empty (offset : Nat) : Span := ⟨offset, offset⟩

def size (span : Span) : Nat := span.stop - span.start

def isEmpty (span : Span) : Bool := span.start == span.stop

def shift (span : Span) (offset : Nat) : Span := ⟨span.start + offset, span.stop + offset⟩

/-- The text that a span covers; nothing when an end is out of bounds or inside a character. -/
def slice (span : Span) (source : Text) : Text :=
  (Text.slice? span.start span.stop source).getD []

end Span

/-! ## Excerpts

The line that holds a span, shown with carets under it. Columns are counted in
characters, the length of the caret run in bytes, cut off at the end of the line. -/

structure Location where
  line : Nat
  column : Nat
  content : Text
deriving DecidableEq, Repr

namespace Span

/-- The text before a span: all of it when the span starts inside a character. -/
def before (span : Span) (source : Text) : Text :=
  (Text.slice? 0 (min span.start (Text.width source)) source).getD source

def locate (span : Span) (source : Text) : Location :=
  let before := span.before source
  let opening := Text.takeEndWhile (· ≠ '\n') before
  let after := source.drop before.length
  { line := before.count '\n' + 1
    column := opening.length
    content := opening ++ after.takeWhile (· ≠ '\n') }

def fill (c : Char) (count : Nat) : Text := List.replicate count c

/-- A piece of the line around a span, with at most `margin` characters before it, and
carets below. -/
def excerpt (span : Span) (source : Text) (margin : Nat) : Text :=
  let location := span.locate source
  let start := location.column - margin
  let piece := (location.content.drop start).take (margin * 2 + max span.size 1)
  let carets := max 1 (min span.size (max piece.length 1))
  piece ++ ['\n'] ++ fill ' ' (location.column - start) ++ fill '^' carets

/-- A message with the place it is about: line and column, the whole line, and carets. -/
def diagnostic (span : Span) (source message : Text) : Text :=
  let location := span.locate source
  let room := max (location.content.length - location.column) 1
  let carets := max 1 (min span.size room)
  "error: ".toList ++ message ++
    "\n  --> line ".toList ++ Text.ofNat location.line ++
    ", column ".toList ++ Text.ofNat (location.column + 1) ++
    "\n   |\n".toList ++ Text.padLeft 3 (Text.ofNat location.line) ++
    " | ".toList ++ location.content ++
    "\n   | ".toList ++ fill ' ' location.column ++ fill '^' carets

end Span

end Dotenv
