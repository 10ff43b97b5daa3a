import Dotenv.Pattern.Basic
/-!
# Reading patterns

The syntax of patterns: alternatives, sequences, repetitions, groups, flags, classes and
escapes. A pattern that is not well formed is refused as a whole.
-/

set_option autoImplicit false

namespace Dotenv

structure PatternFlags where
  ignoreCase : Bool
  multiLine : Bool
  dotAll : Bool
deriving Repr, DecidableEq

namespace PatternFlags

def set? (flags : PatternFlags) (c : Char) (on : Bool) : Option PatternFlags :=
  if c = 'i' then some { flags with ignoreCase := on }
  else if c = 'm' then some { flags with multiLine := on }
  else if c = 's' then some { flags with dotAll := on }
  else if c = 'U' ∨ c = 'u' then some flags
  else none

/-- The flags after some letters, and what is left from the first that is neither a flag
nor the minus sign, which turns the flags after it off. -/
def read? (flags : PatternFlags) : Bool → Text → Option (PatternFlags × Text)
  | _, [] => none
  | on, c :: rest =>
    if c = ')' ∨ c = ':' then some (flags, c :: rest)
    else if c = '-' then if on then flags.read? false rest else none
    else
      match flags.set? c on with
      | some flags => flags.read? on rest
      | none => none

end PatternFlags

namespace Pattern

def withCase (flags : PatternFlags) (set : CharSet) : CharSet :=
  if flags.ignoreCase then .anyCase set else set

def newline : CharSet := .single '\n'

def dot (flags : PatternFlags) : CharSet := if flags.dotAll then .all else .compl newline

inductive Escape where
  | char (c : Char)
  | set (members : CharSet)
deriving Repr

def Escape.toSet : Escape → CharSet
  | .char c => .single c
  | .set members => members

def letterSet? (c : Char) : Option CharSet :=
  let sets : List (Char × CharSet) :=
    [('d', .range 48 57), ('s', .blank), ('w', (CharSet.named? "word".toList).getD .none)]
  match sets.find? (·.1 = c) with
  | some found => some found.2
  | none => (sets.find? (·.1.toUpper = c)).map fun found => .compl found.2

def control? (c : Char) : Option Char :=
  let controls : List (Char × Nat) :=
    [('a', 7), ('f', 12), ('t', 9), ('n', 10), ('r', 13), ('v', 11)]
  (controls.find? (·.1 = c)).map fun found => Char.ofNat found.2

def escape? (c : Char) : Option Escape :=
  match letterSet? c with
  | some set => some (.set set)
  | none =>
    match control? c with
    | some c => some (.char c)
    | none =>
      if c.toNat < 128 ∧ !c.isAlphanum ∧ c ≠ '<' ∧ c ≠ '>' then some (.char c) else none

/-- The named set at the start of a text after a bracket and a colon, and what is left. -/
def namedSet? (text : Text) : Option (CharSet × Text) :=
  let (negated, body) :=
    match text with
    | '^' :: rest => (true, rest)
    | _ => (false, text)
  match body.dropWhile Char.isAlpha with
  | ':' :: ']' :: rest =>
    (CharSet.named? (body.takeWhile Char.isAlpha)).map fun set =>
      (if negated then .compl set else set, rest)
  | _ => none

def classMember? : Text → Option (Escape × Text)
  | [] => none
  | '\\' :: [] => none
  | '\\' :: c :: rest => (escape? c).map fun escape => (escape, rest)
  | c :: rest => some (.char c, rest)

def classRange? (text : Text) : Option (CharSet × Text) :=
  match classMember? text with
  | none => none
  | some (low, rest) =>
    let alone := some (low.toSet, rest)
    match rest with
    | '-' :: ']' :: _ => alone
    | '-' :: '-' :: _ => alone
    | '-' :: rest =>
      match low, classMember? rest with
      | .char low, some (.char high, rest) =>
        if low.toNat ≤ high.toNat then some (.range low.toNat high.toNat, rest) else none
      | _, _ => none
    | _ => alone

inductive ClassOp where
  | inter
  | minus
  | symmetric
deriving Repr, DecidableEq

def classOp? : Text → Option (ClassOp × Text)
  | '&' :: '&' :: rest => some (.inter, rest)
  | '-' :: '-' :: rest => some (.minus, rest)
  | '~' :: '~' :: rest => some (.symmetric, rest)
  | _ => none

def ClassOp.apply (op : ClassOp) (left right : CharSet) : CharSet :=
  match op with
  | inter => .inter left right
  | minus => .inter left (.compl right)
  | symmetric => .union (.inter left (.compl right)) (.inter right (.compl left))

/-- What came before the part of a class that is being read: a set and an operation. -/
abbrev ClassLeft := Option (CharSet × ClassOp)

def closeOp (left : ClassLeft) (set : CharSet) : CharSet :=
  match left with
  | none => set
  | some (before, op) => op.apply before set

mutual

def class? : Nat → PatternFlags → Text → Option (CharSet × Text)
  | 0, _, _ => none
  | fuel + 1, flags, text =>
    let (negated, body) :=
      match text with
      | '^' :: rest => (true, rest)
      | _ => (false, text)
    let hyphens := body.takeWhile (· = '-')
    let body := body.drop hyphens.length
    let first : CharSet := if hyphens = [] then .none else .single '-'
    let (first, body) : CharSet × Text :=
      match body with
      | ']' :: rest => if hyphens = [] then (CharSet.single ']', rest) else (first, body)
      | _ => (first, body)
    (classItems? fuel flags none first body).map fun found =>
      let set := withCase flags found.1
      (if negated then .compl set else set, found.2)

/-- The rest of a class, given what came before the last operation and the set since. -/
def classItems? : Nat → PatternFlags → ClassLeft → CharSet → Text → Option (CharSet × Text)
  | 0, _, _, _, _ => none
  | fuel + 1, flags, left, set, text =>
    match text with
    | [] => none
    | ']' :: rest => some (closeOp left set, rest)
    | '[' :: rest =>
      let named :=
        match rest with
        | ':' :: after => namedSet? after
        | _ => none
      match named with
      | some (member, after) => classItems? fuel flags left (.union set member) after
      | none =>
        match class? fuel flags rest with
        | some (member, after) => classItems? fuel flags left (.union set member) after
        | none => none
    | _ =>
      match classOp? text with
      | some (op, rest) => classItems? fuel flags (some (closeOp left set, op)) .none rest
      | none =>
        match classRange? text with
        | some (member, rest) => classItems? fuel flags left (.union set member) rest
        | none => none

end

def count? (text : Text) : Option (Nat × Text) :=
  let text := Text.trimStart text
  let digits := text.takeWhile Char.isDigit
  if digits = [] then none
  else some (Text.toNat digits, Text.trimStart (text.drop digits.length))

def bounds? (text : Text) : Option (Nat × Option Nat × Text) :=
  match count? text with
  | none => none
  | some (least, '\x7d' :: rest) => some (least, some least, rest)
  | some (least, ',' :: rest) =>
    match Text.trimStart rest with
    | '\x7d' :: rest => some (least, none, rest)
    | rest =>
      match count? rest with
      | some (most, '\x7d' :: rest) => if least ≤ most then some (least, some most, rest) else none
      | _ => none
  | _ => none

/-- The bounds of the repetition at the start of a text, and what is left: `none` when no
repetition stands there, and no bounds when it is not well formed. -/
def repetition? : Text → Option (Option (Nat × Option Nat × Text))
  | '*' :: rest => some (some (0, none, rest))
  | '+' :: rest => some (some (1, none, rest))
  | '?' :: rest => some (some (0, some 1, rest))
  | '\x7b' :: rest => some (bounds? rest)
  | _ => none

/-- A text without the mark that makes a repetition take as little as it can. -/
def skipLazy : Text → Text
  | '?' :: rest => rest
  | rest => rest

def groupName? (text : Text) : Option Text :=
  match text with
  | c :: _ =>
    if c.isAlpha ∨ c = '_' then
      match text.dropWhile fun c => c.isAlphanum || ['_', '.', '[', ']'].contains c with
      | '>' :: rest => some rest
      | _ => none
    else none
  | [] => none

inductive GroupStart where
  | group (flags : PatternFlags) (rest : Text)
  /-- Flags for the rest of the group around. -/
  | flags (flags : PatternFlags) (rest : Text)

def groupStart? (flags : PatternFlags) (text : Text) : Option GroupStart :=
  match text with
  | '?' :: 'P' :: '<' :: rest => (groupName? rest).map (.group flags)
  | '?' :: '<' :: rest => (groupName? rest).map (.group flags)
  | '?' :: rest =>
    match flags.read? true rest with
    | some (changed, ':' :: after) => some (.group changed after)
    | some (changed, ')' :: after) =>
      if rest.head? = some ')' then none else some (.flags changed after)
    | _ => none
  | _ => some (.group flags text)

/-- Items read so far, the last first; `none` stands for flags, which cannot be repeated. -/
abbrev Items := List (Option Regex)

def sequence (items : Items) : Regex :=
  items.foldl (fun rest item =>
    match item with
    | some regex => .seq regex rest
    | none => rest) .empty

def alternatives (before : Option Regex) (items : Items) : Regex :=
  match before with
  | none => sequence items
  | some left => .alt left (sequence items)

def read? : Nat → PatternFlags → Option Regex → Items → Text → Option (Regex × Text)
  | 0, _, _, _, _ => none
  | fuel + 1, flags, before, items, text =>
    let push (set : CharSet) (rest : Text) :=
      read? fuel flags before (some (.one (withCase flags set)) :: items) rest
    match repetition? text with
    | some none => none
    | some (some (least, most, rest)) =>
      match items with
      | some regex :: more =>
        read? fuel flags before (some (.rep regex least most) :: more) (skipLazy rest)
      | _ => none
    | none =>
      match text with
      | [] => some (alternatives before items, [])
      | ')' :: rest => some (alternatives before items, ')' :: rest)
      | '|' :: rest => read? fuel flags (some (alternatives before items)) [] rest
      | '(' :: rest =>
        match groupStart? flags rest with
        | none => none
        | some (.flags flags rest) => read? fuel flags before (none :: items) rest
        | some (.group inner rest) =>
          match read? fuel inner none [] rest with
          | some (regex, ')' :: rest) => read? fuel flags before (some regex :: items) rest
          | _ => none
      | '[' :: rest =>
        match class? (2 * rest.length + 2) flags rest with
        | some (set, rest) => read? fuel flags before (some (.one set) :: items) rest
        | none => none
      | '.' :: rest => read? fuel flags before (some (.one (dot flags)) :: items) rest
      | '^' :: rest => read? fuel flags before (some (.start flags.multiLine) :: items) rest
      | '$' :: rest => read? fuel flags before (some (.finish flags.multiLine) :: items) rest
      | '\\' :: 'A' :: rest => read? fuel flags before (some (.start false) :: items) rest
      | '\\' :: 'z' :: rest => read? fuel flags before (some (.finish false) :: items) rest
      | '\\' :: c :: rest =>
        match escape? c with
        | some escape => push escape.toSet rest
        | none => none
      | ['\\'] => none
      | c :: rest => push (.single c) rest

def ofText? (source : Text) : Option Pattern :=
  match read? (source.length + 1) ⟨false, false, false⟩ none [] source with
  | some (regex, []) => some ⟨source, regex.isFoundIn⟩
  | _ => none

end Pattern

end Dotenv
