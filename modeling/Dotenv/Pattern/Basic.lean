import Dotenv.Text.Basic
/-!
# Patterns

A pattern is a regular expression with anchors. It is found in a text when some part of
the text matches it. Matching follows all ways at once: from a set of places it computes
the set of places where a match may end.
-/

set_option autoImplicit false

namespace Dotenv

/-! ## Sets of characters

The sets that a pattern may name, as unions, intersections and complements of ranges. A
set may be taken regardless of case: then it holds a character when it holds any of the
forms that differ from it only in case. -/

inductive CharSet where
  | range (low high : Nat)
  | blank
  | union (left right : CharSet)
  | inter (left right : CharSet)
  | compl (set : CharSet)
  | anyCase (set : CharSet)
deriving Repr, Inhabited, DecidableEq

namespace CharSet

def caseRanges : List (Nat × Nat × Nat) :=
  [(0x41, 0x5A, 32), (0xC0, 0xD6, 32), (0xD8, 0xDE, 32), (0x391, 0x3A1, 32), (0x3A3, 0x3AB, 32),
   (0x388, 0x38A, 37), (0x386, 0x386, 38), (0x410, 0x42F, 32), (0x400, 0x40F, 80),
   (0x531, 0x556, 48), (0x24B6, 0x24CF, 26), (0xFF21, 0xFF3A, 32)]

def casePairs : List (Nat × Nat) :=
  [(0x100, 0x12F), (0x132, 0x137), (0x14A, 0x177), (0x182, 0x185), (0x1A0, 0x1A5),
   (0x1CD, 0x1CE), (0x1DE, 0x1EF), (0x1F8, 0x21F), (0x222, 0x233), (0x370, 0x373),
   (0x3D8, 0x3EF), (0x460, 0x481), (0x48A, 0x4BF), (0x4D0, 0x52F), (0x1E00, 0x1E95),
   (0x1EA0, 0x1EFF)]

def oddCasePairs : List (Nat × Nat) :=
  [(0x139, 0x148), (0x179, 0x17E), (0x1CD, 0x1DC), (0x4C1, 0x4CE)]

def caseGroups : List (List Nat) :=
  [[0x4B, 0x6B, 0x212A], [0x53, 0x73, 0x17F], [0xC5, 0xE5, 0x212B], [0xB5, 0x39C, 0x3BC],
   [0xFF, 0x178], [0x3A3, 0x3C2, 0x3C3], [0xDF, 0x1E9E]]

/-- The forms of a code point that differ from it only in case, itself among them. -/
def forms (n : Nat) : List Nat :=
  let lower := caseRanges.filterMap fun (low, high, distance) =>
    if low ≤ n ∧ n ≤ high then some (n + distance) else none
  let upper := caseRanges.filterMap fun (low, high, distance) =>
    if low + distance ≤ n ∧ n ≤ high + distance then some (n - distance) else none
  let even := casePairs.filterMap fun (low, high) =>
    if low ≤ n ∧ n ≤ high then some (if n % 2 = 0 then n + 1 else n - 1) else none
  let odd := oddCasePairs.filterMap fun (low, high) =>
    if low ≤ n ∧ n ≤ high then some (if n % 2 = 1 then n + 1 else n - 1) else none
  n :: lower ++ upper ++ even ++ odd ++ caseGroups.flatMap fun group =>
    if group.contains n then group else []

def holds : CharSet → Nat → Bool
  | range low high, n => low ≤ n && n ≤ high
  | blank, n => Text.isBlank (Char.ofNat n)
  | union left right, n => left.holds n || right.holds n
  | inter left right, n => left.holds n && right.holds n
  | compl set, n => !set.holds n
  | anyCase set, n => (forms n).any set.holds

def single (c : Char) : CharSet := range c.toNat c.toNat

def none : CharSet := range 1 0

def all : CharSet := range 0 0x10FFFF

def ofRanges (ranges : List (Nat × Nat)) : CharSet :=
  ranges.foldr (fun bounds set => union (range bounds.1 bounds.2) set) none

def named? (name : Text) : Option CharSet :=
  let sets : List (String × List (Nat × Nat)) :=
    [("alnum", [(48, 57), (65, 90), (97, 122)]), ("alpha", [(65, 90), (97, 122)]),
     ("ascii", [(0, 127)]), ("blank", [(9, 9), (32, 32)]), ("cntrl", [(0, 31), (127, 127)]),
     ("digit", [(48, 57)]), ("graph", [(33, 126)]), ("lower", [(97, 122)]),
     ("print", [(32, 126)]), ("punct", [(33, 47), (58, 64), (91, 96), (123, 126)]),
     ("space", [(9, 13), (32, 32)]), ("upper", [(65, 90)]),
     ("word", [(48, 57), (65, 90), (95, 95), (97, 122)]),
     ("xdigit", [(48, 57), (65, 70), (97, 102)])]
  (sets.find? (·.1.toList = name)).map fun found => ofRanges found.2

end CharSet

/-! ## Matching -/

inductive Regex where
  | empty
  | one (set : CharSet)
  | start (ofLine : Bool)
  | finish (ofLine : Bool)
  | seq (first second : Regex)
  | alt (left right : Regex)
  /-- At least `least` times, and at most `most` times where there is a limit. -/
  | rep (body : Regex) (least : Nat) (most : Option Nat)
deriving Repr, Inhabited, DecidableEq

/-- A place in a text: the character before it, where there is one, and what is left. -/
structure Place where
  before : Option Char
  rest : Text
deriving Repr, DecidableEq

namespace Place

/-- Places of one text without repetitions; what is left tells them apart. -/
def distinct : List Place → List Place
  | [] => []
  | place :: more =>
    place :: (distinct more).filter fun other => other.rest.length ≠ place.rest.length

/-- A step taken from each of some places, again and again, `count` times. -/
def times (step : Place → List Place) : Nat → List Place → List Place
  | 0, places => places
  | _ + 1, [] => []
  | count + 1, places => times step count (distinct (places.flatMap step))

def upTo (step : Place → List Place) : Nat → List Place → List Place
  | 0, places => places
  | _ + 1, [] => []
  | count + 1, places =>
    distinct (places ++ upTo step count (distinct (places.flatMap step)))

end Place

namespace Regex

/-- The places where a match from a place may end. Without a limit, as many steps as
characters are left reach every place that any number reaches. -/
def ends : Regex → Place → List Place
  | empty, place => [place]
  | one set, place =>
    match place.rest with
    | [] => []
    | c :: rest => if set.holds c.toNat then [⟨some c, rest⟩] else []
  | start ofLine, place =>
    if place.before.isNone || (ofLine && place.before == some '\n') then [place] else []
  | finish ofLine, place =>
    if place.rest.isEmpty || (ofLine && place.rest.head? == some '\n') then [place] else []
  | seq first second, place => Place.distinct ((first.ends place).flatMap second.ends)
  | alt left right, place => Place.distinct (left.ends place ++ right.ends place)
  | rep body least most, place =>
    Place.upTo body.ends (min ((most.getD least) - least) place.rest.length
      + if most.isNone then place.rest.length else 0) (Place.times body.ends least [place])

def foundFrom (regex : Regex) : Option Char → Text → Bool
  | before, [] => !(regex.ends ⟨before, []⟩).isEmpty
  | before, c :: rest =>
    !(regex.ends ⟨before, c :: rest⟩).isEmpty || regex.foundFrom (some c) rest

def isFoundIn (regex : Regex) (text : Text) : Bool := regex.foundFrom none text

end Regex

/-- What texts are searched for, with the text it was written as. Which search this is stays open;
`Pattern.ofText?` gives that of a regular expression. -/
structure Pattern where
  source : Text
  isFoundIn : Text → Bool

end Dotenv
