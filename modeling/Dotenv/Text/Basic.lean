/-!
# Texts

A text is the list of its code points, so that every scanner of the library is a
recursion on a list. Offsets, however, count bytes of UTF-8: `width` is the one
measure that spans and diagnostics use.
-/

set_option autoImplicit false

namespace Dotenv

abbrev Text := List Char

namespace Text

def width : Text → Nat
  | [] => 0
  | c :: rest => c.utf8Size + width rest

theorem width_nil : width [] = 0 := rfl

theorem width_cons (c : Char) (rest : Text) : width (c :: rest) = c.utf8Size + width rest := rfl

theorem width_append (left right : Text) : width (left ++ right) = width left + width right := by
  induction left with
  | nil => simp [width]
  | cons c rest ih => simp [width, ih, Nat.add_assoc]

/-- What follows the first `n` bytes, when a character starts or the text ends there. -/
def dropBytes? : Nat → Text → Option Text
  | 0, text => some text
  | _ + 1, [] => none
  | n + 1, c :: rest => if c.utf8Size ≤ n + 1 then dropBytes? (n + 1 - c.utf8Size) rest else none

/-- The first `n` bytes, when a character starts or the text ends after them. -/
def takeBytes? : Nat → Text → Option Text
  | 0, _ => some []
  | _ + 1, [] => none
  | n + 1, c :: rest =>
    if c.utf8Size ≤ n + 1 then (takeBytes? (n + 1 - c.utf8Size) rest).map (c :: ·) else none

/-- The text from the byte offset `start` up to `stop`, when both are boundaries of
characters in this order. -/
def slice? (start stop : Nat) (text : Text) : Option Text :=
  if start ≤ stop then (dropBytes? start text).bind (takeBytes? (stop - start)) else none

/-- The part of a text in front of `rest`, which stands at its end. -/
def before (rest text : Text) : Text := text.take (text.length - rest.length)

theorem before_append {rest text : Text} (atEnd : rest <:+ text) :
    before rest text ++ rest = text := by
  obtain ⟨front, rfl⟩ := atEnd
  simp [before]

/-- A space or a tab: the only blanks that separate tokens of a line. -/
def isGap (c : Char) : Bool := c == ' ' || c == '\t'

def gap (text : Text) : Text := text.takeWhile isGap

def skipGap (text : Text) : Text := text.dropWhile isGap

theorem gap_append_skipGap (text : Text) : gap text ++ skipGap text = text :=
  List.takeWhile_append_dropWhile

/-- Line ends as a bare newline: `\r\n` becomes `\n`, a lone `\r` stays. -/
def unixLines : Text → Text
  | [] => []
  | '\r' :: '\n' :: rest => '\n' :: unixLines rest
  | c :: rest => c :: unixLines rest

/-- The lines of a text. A newline at the end closes the last line and starts no other. -/
def lines : Text → List Text
  | [] => []
  | c :: rest =>
    if c = '\n' then [] :: lines rest
    else
      match lines rest with
      | [] => [[c]]
      | line :: more => (c :: line) :: more

def endsWithNewline (text : Text) : Bool := text.getLast? == some '\n'

/-- The parts between two neighbouring separators; there is one more than there are separators. -/
def splitOn (separator : Char) : Text → List Text
  | [] => [[]]
  | c :: rest =>
    if c = separator then [] :: splitOn separator rest
    else
      match splitOn separator rest with
      | [] => [[c]]
      | part :: more => (c :: part) :: more

def join (separator : Text) : List Text → Text
  | [] => []
  | [part] => part
  | part :: more => part ++ separator ++ join separator more

def dropEndWhile (p : Char → Bool) (text : Text) : Text := (text.reverse.dropWhile p).reverse

def takeEndWhile (p : Char → Bool) (text : Text) : Text := (text.reverse.takeWhile p).reverse

def dropStart? (start text : Text) : Option Text :=
  match start, text with
  | [], rest => some rest
  | _ :: _, [] => none
  | a :: start, b :: rest => if a = b then dropStart? start rest else none

def dropFinish? (finish text : Text) : Option Text :=
  (dropStart? finish.reverse text.reverse).map List.reverse

/-- The first occurrence of `search` replaced. The empty text occurs at the start of every text. -/
def replaceFirst (search replacement : Text) : Text → Text
  | [] => if search = [] then replacement else []
  | c :: rest =>
    match dropStart? search (c :: rest) with
    | some after => replacement ++ after
    | none => c :: replaceFirst search replacement rest

def escape (mark : Char) (text : Text) : Text :=
  text.flatMap fun c => if c = mark then ['\\', mark] else [c]

def unescape (mark : Char) : Text → Text
  | [] => []
  | '\\' :: c :: rest =>
    if c = mark then mark :: unescape mark rest else '\\' :: unescape mark (c :: rest)
  | c :: rest => c :: unescape mark rest

def ofNat (n : Nat) : Text := Nat.toDigits 10 n

def digit (c : Char) : Nat := c.toNat - '0'.toNat

def toNat (digits : Text) : Nat := digits.foldl (fun n c => n * 10 + digit c) 0

/-- A whole number in decimal digits, with a minus sign when it is negative. -/
def ofInt : Int → Text
  | .ofNat n => ofNat n
  | .negSucc n => '-' :: ofNat (n + 1)

def padLeft (size : Nat) (text : Text) : Text :=
  List.replicate (size - text.length) ' ' ++ text

/-- A letter of the ASCII alphabet in lower case; every other character as it is. -/
def lower (text : Text) : Text := text.map Char.toLower

def le : Text → Text → Bool
  | [], _ => true
  | _ :: _, [] => false
  | a :: left, b :: right => if a = b then le left right else a.val < b.val

/-! ## Blank characters

The characters with the Unicode property White_Space, and trimming by them. -/

/-- The code points with the property White_Space, as closed ranges in order. -/
def blankRanges : List (Nat × Nat) :=
  [(0x9, 0xD), (0x20, 0x20), (0x85, 0x85), (0xA0, 0xA0), (0x1680, 0x1680), (0x2000, 0x200A),
   (0x2028, 0x2029), (0x202F, 0x202F), (0x205F, 0x205F), (0x3000, 0x3000)]

def isBlank (c : Char) : Bool :=
  blankRanges.any fun range => range.1 ≤ c.toNat && c.toNat ≤ range.2

def trimStart (text : Text) : Text := text.dropWhile isBlank

def trimEnd (text : Text) : Text := dropEndWhile isBlank text

def trim (text : Text) : Text := trimEnd (trimStart text)

theorem isBlank_of_isGap (c : Char) (gap : isGap c = true) : isBlank c = true := by
  simp only [isGap, Bool.or_eq_true, beq_iff_eq] at gap
  rcases gap with rfl | rfl <;> decide

end Text

/-! ## Octets and UTF-8

An octet sequence is kept as a list of natural numbers below 256. `decode?` accepts
exactly well-formed UTF-8; `decodeLossy` reads any sequence, and puts one replacement
character for each longest piece that starts a character but does not finish it. -/

abbrev Octets := List Nat

namespace Octets

def ofText (text : Text) : Octets :=
  text.flatMap fun c => (String.utf8EncodeChar c).map UInt8.toNat

def lead? (octet : Nat) : Option (Nat × Nat × Nat × Nat) :=
  if octet ≤ 0x7F then some (0, 0, 0, octet)
  else if 0xC2 ≤ octet ∧ octet ≤ 0xDF then some (1, 0x80, 0xBF, octet - 0xC0)
  else if octet = 0xE0 then some (2, 0xA0, 0xBF, 0)
  else if octet = 0xED then some (2, 0x80, 0x9F, 0xD)
  else if 0xE1 ≤ octet ∧ octet ≤ 0xEF then some (2, 0x80, 0xBF, octet - 0xE0)
  else if octet = 0xF0 then some (3, 0x90, 0xBF, 0)
  else if 0xF1 ≤ octet ∧ octet ≤ 0xF3 then some (3, 0x80, 0xBF, octet - 0xF0)
  else if octet = 0xF4 then some (3, 0x80, 0x8F, 4)
  else none

/-- Where a reader stands: between characters, or inside one that still needs octets. -/
inductive State where
  | between
  | inside (needed low high bits : Nat)

def replacement : Char := Char.ofNat 0xFFFD

def start (octet : Nat) : List (Option Char) × State :=
  match lead? octet with
  | none => ([none], .between)
  | some (0, _, _, bits) => ([some (Char.ofNat bits)], .between)
  | some (needed + 1, low, high, bits) => ([], .inside (needed + 1) low high bits)

/-- What one octet yields, and where it leads. An octet that cannot continue the piece
before it ends that piece and starts another. -/
def step : State → Nat → List (Option Char) × State
  | .between, octet => start octet
  | .inside needed low high bits, octet =>
    if low ≤ octet ∧ octet ≤ high then
      let bits := bits * 64 + (octet - 0x80)
      if needed ≤ 1 then ([some (Char.ofNat bits)], .between)
      else ([], .inside (needed - 1) 0x80 0xBF bits)
    else (none :: (start octet).1, (start octet).2)

/-- The characters of a sequence, `none` for each piece that is no character. -/
def read : State → Octets → List (Option Char)
  | .between, [] => []
  | .inside _ _ _ _, [] => [none]
  | state, octet :: rest => (step state octet).1 ++ read (step state octet).2 rest

def decode? (octets : Octets) : Option Text := (read .between octets).mapM id

/-- The text of a sequence, with the replacement character for what is no character. -/
def decodeLossy (octets : Octets) : Text :=
  (read .between octets).map (Option.getD · replacement)

end Octets

end Dotenv
