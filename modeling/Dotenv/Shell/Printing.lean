import Dotenv.Text.Basic
/-!
# Printing in scripts

The two commands that print their arguments: `echo`, and `printf` with its format. Escapes
stand for octets, so what is printed need not be text.
-/

set_option autoImplicit false

namespace Dotenv.Shell

def octalDigit? (c : Char) : Option Nat :=
  if '0' ≤ c ∧ c ≤ '7' then some (c.toNat - '0'.toNat) else none

/-- The value of octal digits, three at most, and what follows them. -/
def octal (text : Text) : Nat × Text :=
  let digits := (text.take 3).takeWhile fun c => (octalDigit? c).isSome
  (digits.foldl (fun n c => n * 8 + (octalDigit? c).getD 0) 0, text.drop digits.length)

def letterEscape? (c : Char) : Option Nat :=
  let escapes : List (Char × Nat) :=
    [('a', 7), ('b', 8), ('t', 9), ('n', 10), ('v', 11), ('f', 12), ('r', 13), ('\\', 92)]
  (escapes.find? (·.1 = c)).map Prod.snd

/-- The octets of a text with escapes, and whether it ends at `\c`. -/
def unescaped : Nat → Text → Octets × Bool
  | 0, _ => ([], false)
  | _ + 1, [] => ([], false)
  | fuel + 1, '\\' :: c :: rest =>
    let after (octets : Octets) (rest : Text) : Octets × Bool :=
      let more := unescaped fuel rest
      (octets ++ more.1, more.2)
    if c = 'c' then ([], true)
    else
      match letterEscape? c, octalDigit? c with
      | some octet, _ => after [octet] rest
      | none, some _ =>
        let (value, rest) := octal (if c = '0' then rest else c :: rest)
        after [value % 256] rest
      | none, none => after ('\\'.toNat :: Octets.ofText [c]) rest
  | fuel + 1, c :: rest =>
    let more := unescaped fuel rest
    (Octets.ofText [c] ++ more.1, more.2)

def echo (arguments : List Text) : Octets :=
  let (closing, arguments) : Octets × List Text :=
    match arguments with
    | ['-', 'n'] :: rest => ([], rest)
    | _ => ([10], arguments)
  let text := Text.join [' '] arguments
  let (octets, stopped) := unescaped (text.length + 1) text
  if stopped then octets else octets ++ closing

inductive Directive where
  | octets (octets : Octets)
  /-- The place of an argument: flags, least width, most characters, and how it is printed. -/
  | place (flags : Text) (width : Nat) (most : Option Nat) (kind : Char)
  /-- No directive: what is said of it, and nothing more is printed. -/
  | fault (message : Text)
deriving DecidableEq, Repr

def place? (text : Text) : Option (Directive × Text) :=
  let isFlag (c : Char) : Bool := ['-', '0', '+', ' ', '#'].contains c
  let flags := text.takeWhile isFlag
  let text := text.dropWhile isFlag
  let width := Text.toNat (text.takeWhile Char.isDigit)
  let text := text.dropWhile Char.isDigit
  let (most, text) : Option Nat × Text :=
    match text with
    | '.' :: rest => (some (Text.toNat (rest.takeWhile Char.isDigit)), rest.dropWhile Char.isDigit)
    | _ => (none, text)
  match text with
  | kind :: rest =>
    if ['d', 'i', 'u', 'x', 'X', 'o', 'c', 'b', 's'].contains kind then
      some (.place flags width most kind, rest)
    else some (.fault (['%', kind] ++ ": invalid directive".toList), rest)
  | [] => none

def directives : Nat → Text → List Directive
  | 0, _ => []
  | _ + 1, [] => []
  | fuel + 1, '%' :: '%' :: rest => .octets ['%'.toNat] :: directives fuel rest
  | fuel + 1, '%' :: rest =>
    match place? rest with
    | some (directive, rest) => directive :: directives fuel rest
    | none => [.fault "missing format character".toList]
  | fuel + 1, '\\' :: c :: rest =>
    match letterEscape? c, octalDigit? c with
    | some octet, _ => .octets [octet] :: directives fuel rest
    | none, some _ =>
      let (value, rest) := octal (c :: rest)
      .octets [value % 256] :: directives fuel rest
    | none, none => .octets ('\\'.toNat :: Octets.ofText [c]) :: directives fuel rest
  | fuel + 1, c :: rest => .octets (Octets.ofText [c]) :: directives fuel rest

def integer (argument : Text) : Int × Bool :=
  match argument with
  | '-' :: rest => (-(Text.toNat (rest.takeWhile Char.isDigit)), rest ≠ [] && rest.all Char.isDigit)
  | '+' :: rest => (Text.toNat (rest.takeWhile Char.isDigit), rest ≠ [] && rest.all Char.isDigit)
  | '\'' :: c :: _ | '"' :: c :: _ => (c.toNat, true)
  | _ => (Text.toNat (argument.takeWhile Char.isDigit), argument.all Char.isDigit)

def numeralFault? (argument : Text) : Option Text :=
  let body := if argument.head?.any ['-', '+'].contains then argument.drop 1 else argument
  if (integer argument).2 then none
  else if body.head?.any Char.isDigit then some "not completely converted".toList
  else some "expected numeric value".toList

def field (flags : Text) (width : Nat) (isNumber : Bool) (octets : Octets) : Octets :=
  let room := width - octets.length
  if flags.contains '-' then octets ++ List.replicate room 32
  else if flags.contains '0' && isNumber then
    match octets with
    | 45 :: rest => 45 :: List.replicate room 48 ++ rest
    | _ => List.replicate room 48 ++ octets
  else List.replicate room 32 ++ octets

def printed (flags : Text) (width : Nat) (most : Option Nat) (kind : Char) (argument : Text) :
    Octets × Option Text :=
  let value := (integer argument).1
  let inBase (base : Nat) : Text := Nat.toDigits base value.natAbs
  let ofNumber (text : Text) : Octets × Option Text :=
    (field flags width true (Octets.ofText text), numeralFault? argument)
  if kind = 'd' ∨ kind = 'i' ∨ kind = 'u' then
    let sign : Text :=
      if value < 0 then []
      else if flags.contains '+' then ['+']
      else if flags.contains ' ' then [' ']
      else []
    ofNumber (sign ++ Text.ofInt value)
  else if kind = 'x' then ofNumber (inBase 16)
  else if kind = 'X' then ofNumber ((inBase 16).map Char.toUpper)
  else if kind = 'o' then ofNumber (inBase 8)
  else if kind = 'c' then (field flags width false (Octets.ofText (argument.take 1)), none)
  else if kind = 'b' then
    (field flags width false (unescaped (argument.length + 1) argument).1, none)
  else
    let octets := Octets.ofText argument
    (field flags width false (octets.take (most.getD octets.length)), none)

structure Printout where
  octets : Octets
  complaints : List Text
  status : Nat
deriving DecidableEq, Repr

namespace Printout

def append (first second : Printout) : Printout :=
  ⟨first.octets ++ second.octets, first.complaints ++ second.complaints,
    max first.status second.status⟩

end Printout

/-- One round through a format: what is printed, and the arguments left, unless printing stops. -/
def printRound : List Directive → List Text → Printout × Option (List Text)
  | [], arguments => (⟨[], [], 0⟩, some arguments)
  | .fault message :: _, _ => (⟨[], [message], 2⟩, none)
  | .octets octets :: rest, arguments =>
    let (more, left) := printRound rest arguments
    (Printout.append ⟨octets, [], 0⟩ more, left)
  | .place flags width most kind :: rest, arguments =>
    let argument := arguments.headD []
    let (octets, fault) := printed flags width most kind argument
    let (more, left) := printRound rest (arguments.drop 1)
    let complaints := (fault.map fun fault => argument ++ ": ".toList ++ fault).toList
    (Printout.append ⟨octets, complaints, if fault.isSome then 1 else 0⟩ more, left)

def printRounds (format : List Directive) : Nat → List Text → Printout
  | 0, _ => ⟨[], [], 0⟩
  | fuel + 1, arguments =>
    match printRound format arguments with
    | (printout, none) => printout
    | (printout, some left) =>
      if left = [] ∨ left.length = arguments.length then printout
      else printout.append (printRounds format fuel left)

def printf (format : Text) (arguments : List Text) : Printout :=
  printRounds (directives (format.length + 1) format) (arguments.length + 1) arguments

end Dotenv.Shell
