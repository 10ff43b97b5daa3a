import Dotenv.Shell.Condition
import Dotenv.Shell.State
/-!
# Utilities

The programs that scripts run. Each takes its arguments, what it reads, and the directory,
and says what it writes to which stream, how it ends, what becomes of the directory, and for
how long it sleeps.
-/

set_option autoImplicit false

namespace Dotenv.Shell

structure Effect where
  chunks : List Chunk
  status : Nat
  directory : Directory
  slept : Nat
  reads : Bool
deriving DecidableEq, Repr

abbrev Utility := List Text → Octets → Directory → Effect

namespace Effect

def written (octets : Octets) (directory : Directory) : Effect :=
  ⟨[⟨1, octets⟩], 0, directory, 0, false⟩

def failed (message : Text) (status : Nat) (directory : Directory) : Effect :=
  ⟨[⟨2, Octets.ofText (message ++ ['\n'])⟩], status, directory, 0, false⟩

/-- A complaint of a program that was used in a wrong way, with where to find more. -/
def misused (program message : Text) (directory : Directory) : Effect :=
  failed (program ++ ": ".toList ++ message ++ "\nTry '".toList ++ program ++
    " --help' for more information.".toList) 1 directory

def silent (status : Nat) (directory : Directory) : Effect := ⟨[], status, directory, 0, false⟩

end Effect

def invalidOption (c : Char) : Text := "invalid option -- '".toList ++ [c, '\'']

def inComplaint (word : Text) : Text := '\'' :: word ++ ['\'']

def isOption (argument : Text) : Bool := argument.head? == some '-' && argument.length > 1

def optionsAndRest : List Text → Text × List Text
  | [] => ([], [])
  | argument :: rest =>
    if argument = ['-', '-'] then ([], rest)
    else if isOption argument then
      let (letters, rest) := optionsAndRest rest
      (argument.drop 1 ++ letters, rest)
    else ([], argument :: rest)

def octetLines : Octets → List Octets
  | [] => []
  | octet :: rest =>
    if octet = 10 then [octet] :: octetLines rest
    else
      match octetLines rest with
      | [] => [[octet]]
      | line :: more => (octet :: line) :: more

/-- What a program reads: its input, or the files that it is given one after the other, with a
complaint for each that is not there. -/
def readAll (complaint : Text) (files : List Text) (input : Octets) (directory : Directory) :
    List (Option Octets) × List Chunk :=
  let files := if files = [] then [['-']] else files
  let find (name : Text) : Option Octets :=
    if name = ['-'] then some input else contents? directory name
  let missing := files.filter fun name => (find name).isNone
  let reason (name : Text) : String :=
    if isPlace name then ": Is a directory\n" else ": No such file or directory\n"
  (files.map find, missing.map fun name =>
    ⟨2, Octets.ofText (complaint ++ name ++ (reason name).toList)⟩)

/-- What a program leads to that wrote octets and complained of files that were not there. -/
def Effect.reading (octets : Octets) (complaints : List Chunk) (files : List Text)
    (directory : Directory) : Effect :=
  ⟨⟨1, octets⟩ :: complaints, if complaints = [] then 0 else 1, directory, 0,
    files = [] || files.contains ['-']⟩

def cat : Utility := fun arguments input directory =>
  let (options, files) := optionsAndRest arguments
  match options.find? (· ≠ 'u') with
  | some c => .misused "cat".toList (invalidOption c) directory
  | none =>
    let (found, complaints) := readAll "cat: ".toList files input directory
    .reading (found.filterMap id).flatten complaints files directory

/-- A decimal number: a whole number of parts, and of how many digits a part is the last. -/
structure Fixed where
  parts : Int
  places : Nat
deriving DecidableEq, Repr

namespace Fixed

def ofText? (argument : Text) : Option Fixed :=
  let (negative, digits) : Bool × Text :=
    match argument with
    | '-' :: rest => (true, rest)
    | '+' :: rest => (false, rest)
    | _ => (false, argument)
  let whole := digits.takeWhile Char.isDigit
  let fraction? : Option Text :=
    match digits.drop whole.length with
    | [] => some []
    | '.' :: rest => if rest.all Char.isDigit then some rest else none
    | _ => none
  match fraction? with
  | none => none
  | some fraction =>
    if whole = [] ∧ fraction = [] then none
    else
      let parts : Int := Text.toNat (whole ++ fraction)
      some ⟨if negative then -parts else parts, fraction.length⟩

def scaled (number : Fixed) (places : Nat) : Int := number.parts * tenPow (places - number.places)

def toText (parts : Int) (places : Nat) : Text :=
  let digits := Text.ofNat parts.natAbs
  let digits := List.replicate (places + 1 - digits.length) '0' ++ digits
  let whole := digits.take (digits.length - places)
  (if parts < 0 then ['-'] else []) ++ whole ++
    (if places = 0 then [] else '.' :: digits.drop whole.length)

end Fixed

def countTo (step last : Int) : Nat → Int → List Int
  | 0, _ => []
  | fuel + 1, n =>
    if (0 < step ∧ n ≤ last) ∨ (step < 0 ∧ last ≤ n) then n :: countTo step last fuel (n + step)
    else []

def seqOptions : Nat → List Text → Text × Bool × List Text
  | 0, arguments => (['\n'], false, arguments)
  | fuel + 1, arguments =>
    match arguments with
    | ['-', 's'] :: separator :: rest => (separator, (seqOptions fuel rest).2)
    | ('-' :: 's' :: c :: separator) :: rest => (c :: separator, (seqOptions fuel rest).2)
    | ['-', 'w'] :: rest =>
      let (separator, _, rest) := seqOptions fuel rest
      (separator, true, rest)
    | rest => (['\n'], false, rest)

def seq : Utility := fun arguments _ directory =>
  let (separator, sameWidth, operands) := seqOptions arguments.length arguments
  let list (first step last : Fixed) : Effect :=
    let places := max first.places step.places
    let common := max places last.places
    let (start, finish) := (first.scaled common, last.scaled common)
    let values := countTo (step.scaled common) finish ((finish - start).natAbs + 1) start
    let texts := values.map fun n => Fixed.toText (n / tenPow (common - places)) places
    let width := (texts.map List.length).foldl max 0
    let padded (text : Text) : Text :=
      match text with
      | '-' :: digits => '-' :: (List.replicate (width - text.length) '0' ++ digits)
      | _ => List.replicate (width - text.length) '0' ++ text
    let texts := if sameWidth then texts.map padded else texts
    .written
      (Octets.ofText (if texts = [] then [] else Text.join separator texts ++ ['\n'])) directory
  match operands.find? fun operand => (Fixed.ofText? operand).isNone with
  | some operand =>
    .misused "seq".toList
      ("invalid floating point argument: ".toList ++ inComplaint operand) directory
  | none =>
    match operands.filterMap Fixed.ofText? with
    | [] => .misused "seq".toList "missing operand".toList directory
    | [last] => list ⟨1, 0⟩ ⟨1, 0⟩ last
    | [first, last] => list first ⟨1, 0⟩ last
    | [first, step, last] =>
      if step.parts = 0 then
        .misused "seq".toList
          ("invalid Zero increment value: ".toList ++ inComplaint (operands[1]?.getD [])) directory
      else list first step last
    | _ =>
      .misused "seq".toList ("extra operand ".toList ++ inComplaint (operands[3]?.getD []))
        directory

/-- How much of a file to show: a number of lines or of octets, counted from the end or from the
start, or all but so many; and the files. -/
structure Extent where
  ofLines : Bool
  sign : Option Char
  count : Nat
  files : List Text
deriving DecidableEq, Repr

def counted (program : Text) (ofLines : Bool) (argument : Text) (files : List Text) :
    Except Text Extent :=
  let (sign, digits) : Option Char × Text :=
    match argument with
    | '+' :: digits => (some '+', digits)
    | '-' :: digits => (some '-', digits)
    | digits => (none, digits)
  if digits ≠ [] ∧ digits.all Char.isDigit then .ok ⟨ofLines, sign, Text.toNat digits, files⟩
  else
    .error (program ++ ": invalid number of ".toList ++
      (if ofLines then "lines" else "bytes").toList ++ ": ".toList ++ inComplaint argument)

def extentOf (program : Text) (arguments : List Text) : Except Text Extent :=
  match arguments with
  | ['-', 'n'] :: argument :: files => counted program true argument files
  | ['-', 'c'] :: argument :: files => counted program false argument files
  | ('-' :: 'n' :: argument) :: files => counted program true argument files
  | ('-' :: 'c' :: argument) :: files => counted program false argument files
  | ('-' :: c :: digits) :: files =>
    if c.isDigit then counted program true (c :: digits) files
    else
      .error (program ++ ": ".toList ++ invalidOption c ++ "\nTry '".toList ++ program ++
        " --help' for more information.".toList)
  | files => .ok ⟨true, none, 10, files⟩

def shown (program : Text) (part : {α : Type} → Extent → List α → List α) : Utility :=
  fun arguments input directory =>
    match extentOf program arguments with
    | .error message => .failed message 1 directory
    | .ok extent =>
      let files := if extent.files = [] then [['-']] else extent.files
      let find (name : Text) : Option Octets :=
        if name = ['-'] then some input else contents? directory name
      let title (index : Nat) (name : Text) : Octets :=
        let name := if name = ['-'] then "standard input".toList else name
        if files.length = 1 then []
        else Octets.ofText ((if index = 0 then [] else ['\n']) ++ "==> ".toList ++ name ++
          " <==\n".toList)
      let chunk (entry : Text × Nat) : Chunk :=
        match find entry.1 with
        | none =>
          ⟨2, Octets.ofText (program ++ ": cannot open ".toList ++ inComplaint entry.1 ++
            " for reading: No such file or directory\n".toList)⟩
        | some octets =>
          ⟨1, title entry.2 entry.1 ++
            if extent.ofLines then (part extent (octetLines octets)).flatten
            else part extent octets⟩
      let isMissing := files.any fun name => (find name).isNone
      ⟨files.zipIdx.map chunk, if isMissing then 1 else 0, directory, 0, files.contains ['-']⟩

def lastPart {α : Type} (extent : Extent) (list : List α) : List α :=
  if extent.sign = some '+' then list.drop (extent.count - 1)
  else list.drop (list.length - extent.count)

def firstPart {α : Type} (extent : Extent) (list : List α) : List α :=
  if extent.sign = some '-' then list.take (list.length - extent.count)
  else list.take extent.count

def tail : Utility := shown "tail".toList lastPart

def head : Utility := shown "head".toList firstPart

def countWords (octets : Octets) : Nat :=
  let isGap (octet : Nat) : Bool := octet = 32 || (9 ≤ octet && octet ≤ 13)
  let starts := octets.zip (32 :: octets)
  (starts.filter fun pair => !isGap pair.1 && isGap pair.2).length

/-- Counts of lines, words and octets, in columns as wide as the number of all octets. -/
def wc : Utility := fun arguments input directory =>
  let (options, files) := optionsAndRest arguments
  match options.find? fun c => ['l', 'w', 'c', 'm'].all (· ≠ c) with
  | some c => .misused "wc".toList (invalidOption c) directory
  | none =>
    let (found, complaints) := readAll "wc: ".toList files input directory
    let wanted := fun c => options = [] || options.contains c
    let counts (octets : Octets) : List Nat :=
      (if wanted 'l' then [octets.count 10] else []) ++
      (if wanted 'w' then [countWords octets] else []) ++
      (if options.contains 'm' then [octets.length] else []) ++
      (if wanted 'c' then [octets.length] else [])
    let all := (found.filterMap id).flatten
    let columns := (counts []).length
    let width :=
      if files.length ≤ 1 ∧ columns = 1 then 1
      else if files = [] ∨ files.contains ['-'] then 7
      else (Text.ofNat all.length).length
    let line (counts : List Nat) (name : Text) : Text :=
      Text.join [' '] (counts.map fun n => Text.padLeft width (Text.ofNat n)) ++
        (if name = [] then [] else ' ' :: name) ++ ['\n']
    let lines := (found.zip (if files = [] then [[]] else files)).flatMap fun entry =>
      match entry.1 with
      | none => []
      | some octets => line (counts octets) entry.2
    let sums := (found.filterMap id).foldl
      (fun sums octets => (sums.zip (counts octets)).map fun pair => pair.1 + pair.2) (counts [])
    let total := if files.length ≤ 1 then [] else line sums "total".toList
    .reading (Octets.ofText (lines ++ total)) complaints files directory

def trClass? (name : Text) : Option (List Nat) :=
  let ranges : List (String × List (Nat × Nat)) :=
    [("upper", [(65, 90)]), ("lower", [(97, 122)]), ("digit", [(48, 57)]),
     ("alpha", [(65, 90), (97, 122)]), ("alnum", [(48, 57), (65, 90), (97, 122)]),
     ("space", [(9, 13), (32, 32)]), ("blank", [(9, 9), (32, 32)]),
     ("punct", [(33, 47), (58, 64), (91, 96), (123, 126)])]
  (ranges.find? (·.1.toList = name)).map fun found =>
    found.2.flatMap fun range => (List.range (range.2 + 1)).drop range.1

def trSet : Nat → Text → List Nat
  | 0, _ => []
  | _ + 1, [] => []
  | fuel + 1, '[' :: ':' :: rest =>
    match trClass? (rest.takeWhile Char.isAlpha), rest.dropWhile Char.isAlpha with
    | some members, ':' :: ']' :: rest => members ++ trSet fuel rest
    | _, _ => 91 :: trSet fuel (':' :: rest)
  | fuel + 1, '\\' :: c :: rest =>
    match letterEscape? c, octalDigit? c with
    | some octet, _ => octet :: trSet fuel rest
    | none, some _ =>
      let (value, rest) := octal (c :: rest)
      value % 256 :: trSet fuel rest
    | none, none => Octets.ofText [c] ++ trSet fuel rest
  | fuel + 1, low :: '-' :: high :: rest =>
    (List.range (high.toNat + 1)).drop low.toNat ++ trSet fuel rest
  | fuel + 1, c :: rest => Octets.ofText [c] ++ trSet fuel rest

def squeeze (set : List Nat) : Octets → Octets
  | a :: b :: rest =>
    if a = b ∧ set.contains a then squeeze set (b :: rest) else a :: squeeze set (b :: rest)
  | octets => octets

def translate (source target : List Nat) (octet : Nat) : Nat :=
  match source.reverse.idxOf? octet with
  | some place =>
    let index := source.length - 1 - place
    (target[index]?).getD (target.getLastD octet)
  | none => octet

def tr : Utility := fun arguments input directory =>
  let (options, operands) := optionsAndRest arguments
  let set (text : Text) : List Nat := trSet (text.length + 1) text
  let source (text : Text) : List Nat :=
    if options.contains 'c' ∨ options.contains 'C' then
      (List.range 256).filter fun octet => !(set text).contains octet
    else set text
  let (deletes, squeezes) := (options.contains 'd', options.contains 's')
  let misused (message : Text) : Effect := .misused "tr".toList message directory
  let done (octets : Octets) : Effect := { Effect.written octets directory with reads := true }
  match options.find? fun c => ['c', 'C', 'd', 's', 't'].all (· ≠ c) with
  | some c => misused (invalidOption c)
  | none =>
    match operands with
    | [] => misused "missing operand".toList
    | [text] =>
      if deletes ∧ !squeezes then done (input.filter fun octet => !(source text).contains octet)
      else if squeezes ∧ !deletes then done (squeeze (source text) input)
      else
        misused ("missing operand after ".toList ++ inComplaint text ++
          (if deletes then "\nTwo strings must be given when both deleting and squeezing repeats."
            else "\nTwo strings must be given when translating.").toList)
    | [first, second] =>
      if deletes ∧ !squeezes then
        misused ("extra operand ".toList ++ inComplaint second ++
          "\nOnly one string may be given when deleting without squeezing repeats.".toList)
      else if deletes then
        done (squeeze (set second) (input.filter fun octet => !(source first).contains octet))
      else if set second = [] then
        .failed "tr: when not truncating set1, string2 must be non-empty".toList 1 directory
      else
        let changed := input.map (translate (source first) (set second))
        done (if squeezes then squeeze (set second) changed else changed)
    | _ :: _ :: third :: _ => misused ("extra operand ".toList ++ inComplaint third)

def milliseconds? (argument : Text) : Option Nat :=
  let units : List (Char × Nat) := [('s', 1), ('m', 60), ('h', 3600), ('d', 86400)]
  let unit := units.find? fun unit => argument.getLast? = some unit.1
  let digits := if unit.isSome then argument.dropLast else argument
  match Fixed.ofText? digits with
  | some number =>
    if number.parts < 0 then none
    else
      let factor := (unit.map Prod.snd).getD 1
      some ((number.parts.toNat * 1000 * factor) / tenPow number.places)
  | none => none

def sleep : Utility := fun arguments _ directory =>
  match arguments with
  | [] => .misused "sleep".toList "missing operand".toList directory
  | ('-' :: c :: _) :: _ => .misused "sleep".toList (invalidOption c) directory
  | _ =>
    match arguments.find? fun argument => (milliseconds? argument).isNone with
    | some argument =>
      .misused "sleep".toList ("invalid time interval ".toList ++ inComplaint argument) directory
    | none =>
      { Effect.silent 0 directory with
        slept := (arguments.filterMap milliseconds?).foldl (· + ·) 0 }

def touch : Utility := fun arguments _ directory =>
  if arguments = [] then .misused "touch".toList "missing file operand".toList directory
  else
    .silent 0 (arguments.foldl (fun files name =>
      if Keyed.contains name files then files else Keyed.set name [] files) directory)

def test (title : Text) : Utility := fun arguments _ directory =>
  match Condition.holds directory arguments with
  | .ok holds => .silent (if holds then 0 else 1) directory
  | .error message => .failed (title ++ ": ".toList ++ message) 2 directory

/-- What `echo` does as a program of its own: without options it prints no escapes. -/
def plainEcho : Utility := fun arguments _ directory =>
  match arguments with
  | ['-', 'n'] :: rest => .written (Octets.ofText (Text.join [' '] rest)) directory
  | ['-', 'e'] :: rest => .written (echo rest) directory
  | rest => .written (Octets.ofText (Text.join [' '] rest ++ ['\n'])) directory

def printfUtility (speaker : Text) : Utility := fun arguments _ directory =>
  let arguments := if arguments.head? = some ['-', '-'] then arguments.drop 1 else arguments
  match arguments with
  | [] => .failed (speaker ++ "printf: usage: printf format [arg ...]".toList) 2 directory
  | format :: rest =>
    let printout := printf format rest
    let complaints := printout.complaints.map fun message =>
      Chunk.mk 2 (Octets.ofText (speaker ++ "printf: ".toList ++ message ++ ['\n']))
    ⟨⟨1, printout.octets⟩ :: complaints, printout.status, directory, 0, false⟩

def utility? (name : Text) : Option Utility :=
  let utilities : List (String × Utility) :=
    [("cat", cat), ("seq", seq), ("tail", tail), ("head", head), ("wc", wc), ("tr", tr),
     ("sleep", sleep), ("touch", touch), ("test", test "test".toList), ("echo", plainEcho),
     ("printf", printfUtility []), ("true", fun _ _ directory => .silent 0 directory),
     ("false", fun _ _ directory => .silent 1 directory)]
  (utilities.find? (·.1.toList = name)).map Prod.snd

/-- The name of a program without the directories where programs are kept. -/
def programName (name : Text) : Text :=
  let places := ["/bin/", "/usr/bin/"].map String.toList
  (places.findSome? fun place => Text.dropStart? place name).getD name

end Dotenv.Shell
