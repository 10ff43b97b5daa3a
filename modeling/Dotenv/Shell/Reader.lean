import Dotenv.Shell.Syntax
/-!
# Reading scripts

The tokens of a script are gathered into pipelines and commands made of others. A script is
read line by line: what comes before a line that is misspelled is read and can be run.
-/

set_option autoImplicit false

namespace Dotenv.Shell

/-! ## Tokens -/

inductive Token where
  | word (word : Word)
  | mark (text : Text)
  | redirect (stream : Option Nat) (mark : Text)
  | document (stream : Option Nat) (body : Word)
  | broken (misspelling : Misspelling)
  | finish
deriving DecidableEq, Repr

abbrev Tokens := List (Token × Nat)

def mark? (text : Text) : Option (Text × Text) :=
  let marks := ["&&", "||", ";;", ";", "&", "|", "(", ")"].map String.toList
  marks.findSome? fun mark => (Text.dropStart? mark text).map fun rest => (mark, rest)

def redirect? (text : Text) : Option (Text × Text) :=
  let marks := ["<<-", "<<", ">>", ">&", ">|", ">", "<&", "<"].map String.toList
  marks.findSome? fun mark => (Text.dropStart? mark text).map fun rest => (mark, rest)

def streamNumber? (text : Text) : Option (Nat × Text) :=
  match text with
  | c :: rest =>
    if c.isDigit ∧ (redirect? rest).isSome then some (c.toNat - '0'.toNat, rest) else none
  | [] => none

def delimiter (word : Word) : Text × Bool :=
  (word.flatMap fun piece =>
    match piece with
    | .bare text | .quoted text => text
    | .variable name _ _ => '$' :: name
    | .output _ _ | .number _ _ => [],
  word.any fun piece =>
    match piece with
    | .quoted _ => true
    | _ => false)

/-- The lines up to one that is the delimiter, and the lines after it. -/
def bodyAndRest (mark : Text) (strip : Bool) : List Text → List Text × List Text
  | [] => ([], [])
  | line :: rest =>
    let line := if strip then line.dropWhile (· = '\t') else line
    if line = mark then ([], rest)
    else
      let (body, after) := bodyAndRest mark strip rest
      (line :: body, after)

/-- A text in the script, given what follows the delimiter on its line and the lines after that:
the text as a word, and the script without it. -/
def document (mark : Text) (inQuotes strip : Bool) (rest : Text) : Word × Text :=
  let here := rest.takeWhile (· ≠ '\n')
  let (body, after) := bodyAndRest mark strip (Text.lines (rest.drop (here.length + 1)))
  let text := body.flatMap (· ++ ['\n'])
  let word := if inQuotes then [Piece.quoted text] else (quotedWordOf text).toOption.getD []
  (word, here ++ '\n' :: after.flatMap (· ++ ['\n']))

def linesBefore (rest text : Text) : Nat := (Text.before rest text).count '\n'

def tokens : Nat → Nat → Text → Tokens
  | 0, line, _ => [(.finish, line)]
  | _ + 1, line, [] => [(.finish, line)]
  | fuel + 1, line, '\\' :: '\n' :: rest => tokens fuel (line + 1) rest
  | fuel + 1, line, c :: rest =>
    if c = ' ' ∨ c = '\t' then tokens fuel line rest
    else if c = '\n' then (.mark ['\n'], line + 1) :: tokens fuel (line + 1) rest
    else if c = '#' then tokens fuel line (rest.dropWhile (· ≠ '\n'))
    else
      match mark? (c :: rest) with
      | some (mark, rest) => (.mark mark, line) :: tokens fuel line rest
      | none =>
        let (stream, text) :=
          match streamNumber? (c :: rest) with
          | some (n, rest) => (some n, rest)
          | none => (none, c :: rest)
        match redirect? text with
        | some (mark, rest) =>
          if mark.take 2 = ['<', '<'] then
            match word endsWord (rest.length + 1) (Text.skipGap rest) with
            | .ok (found, after) =>
              let (text, inQuotes) := delimiter found
              let (body, after) := document text inQuotes (mark.length = 3) after
              (.document stream body, line) :: tokens fuel line after
            | .error misspelling => [(.broken misspelling, line)]
          else (.redirect stream mark, line) :: tokens fuel line rest
        | none =>
          match word endsWord (text.length + 1) text with
          | .ok (found, rest) =>
            let line := line + linesBefore rest text
            (.word found, line) :: tokens fuel line rest
          | .error misspelling => [(.broken misspelling, line + text.count '\n')]

def tokensOf (script : Text) : Tokens := tokens (script.length + 1) 1 script

/-! ## Commands -/

/-- What is read from tokens; or what is wrong with them, and on which line. -/
abbrev Reading (α : Type) := Except (Nat × Misspelling) α

abbrev Part (α : Type) := α × Tokens

def reserved? : Tokens → Option Text
  | (.word [.bare text], _) :: _ =>
    let all := ["if", "then", "else", "elif", "fi", "do", "done", "case", "esac", "while", "until",
      "for", "in", "\x7b", "\x7d", "!"].map String.toList
    if all.contains text then some text else none
  | _ => none

def Token.title (token : Token) : Text :=
  match token with
  | word _ => "word".toList
  | mark text => if text = ['\n'] then "newline".toList else '"' :: text ++ ['"']
  | redirect _ _ | document _ _ => "redirection".toList
  | broken _ | finish => "end of file".toList

def unexpected (expected : Text) (tokens : Tokens) : Nat × Misspelling :=
  match tokens with
  | [] => (1, .unexpected "end of file".toList expected)
  | (.broken misspelling, line) :: _ => (line, misspelling)
  | (token, line) :: _ =>
    let found :=
      match reserved? tokens with
      | some text => '"' :: text ++ ['"']
      | none => token.title
    (line, .unexpected found expected)

/-- The tokens after a word of the shell's own or an operator that must come first. -/
def expect (text : Text) (tokens : Tokens) : Reading Tokens :=
  let other := Except.error (unexpected ('"' :: text ++ ['"']) tokens)
  match tokens with
  | (.mark mark, _) :: rest => if mark = text then .ok rest else other
  | _ :: rest => if reserved? tokens = some text then .ok rest else other
  | [] => other

def skipNewlines : Tokens → Tokens
  | (.mark ['\n'], _) :: rest => skipNewlines rest
  | tokens => tokens

/-- Whether a list that stands in a command ends before the first of some tokens. -/
def endsList (tokens : Tokens) : Bool :=
  match reserved? tokens with
  | some text =>
    (["then", "else", "elif", "fi", "do", "done", "esac", "\x7d"].map String.toList).contains text
  | none =>
    match tokens with
    | (.mark [')'], _) :: _ | (.mark [';', ';'], _) :: _ | (.finish, _) :: _ => true
    | _ => false

def endsLine : Tokens → Bool
  | (.mark ['\n'], _) :: _ | (.finish, _) :: _ => true
  | _ => false

def directionOf (mark : Text) : Direction × Nat :=
  if mark = ['<'] then (.read, 0)
  else if mark = ['<', '&'] then (.duplicate, 0)
  else if mark = ['>', '&'] then (.duplicate, 1)
  else if mark = ['>', '>'] then (.append, 1)
  else (.write, 1)

def redirection? (tokens : Tokens) : Option (Reading (Part Redirection)) :=
  match tokens with
  | (.document stream body, _) :: rest => some (.ok (⟨stream.getD 0, .document, body⟩, rest))
  | (.redirect stream mark, _) :: (.word target, _) :: rest =>
    let (direction, own) := directionOf mark
    some (.ok (⟨stream.getD own, direction, target⟩, rest))
  | (.redirect _ _, _) :: rest => some (.error (unexpected [] rest))
  | _ => none

def redirections : Nat → Tokens → Reading (Part (List Redirection))
  | 0, tokens => .ok ([], tokens)
  | fuel + 1, tokens =>
    match redirection? tokens with
    | none => .ok ([], tokens)
    | some found => do
      let (first, rest) ← found
      let (more, rest) ← redirections fuel rest
      .ok (first :: more, rest)

def wordsAndRedirections : Nat → Tokens → Reading (Part (List Word × List Redirection))
  | 0, tokens => .ok (([], []), tokens)
  | fuel + 1, tokens =>
    match redirection? tokens, tokens with
    | some found, _ => do
      let (first, rest) ← found
      let ((words, more), rest) ← wordsAndRedirections fuel rest
      .ok ((words, first :: more), rest)
    | none, (.word word, _) :: rest => do
      let ((words, more), rest) ← wordsAndRedirections fuel rest
      .ok ((word :: words, more), rest)
    | none, (.broken _, _) :: _ => .error (unexpected [] tokens)
    | none, _ => .ok (([], []), tokens)

def wordsOf : Tokens → List Word × Tokens
  | (.word word, _) :: rest =>
    let (words, rest) := wordsOf rest
    (word :: words, rest)
  | tokens => ([], tokens)

def loopWords (tokens : Tokens) : Reading (Part (Option (List Word))) :=
  let rest := skipNewlines tokens
  if reserved? rest = some "in".toList then
    let (words, rest) := wordsOf rest.tail
    match rest with
    | (.mark [';'], _) :: rest | (.mark ['\n'], _) :: rest => .ok (some words, rest)
    | _ => .error (unexpected [] rest)
  else
    match tokens with
    | (.mark [';'], _) :: rest => .ok (none, rest)
    | _ => .ok (none, tokens)

/-- The patterns of a case up to its parenthesis, and the tokens after that. -/
def casePatterns : Nat → Tokens → Reading (Part (List Word))
  | 0, tokens => .error (unexpected [')'] tokens)
  | fuel + 1, (.word word, _) :: (.mark ['|'], _) :: rest => do
    let (words, rest) ← casePatterns fuel rest
    .ok (word :: words, rest)
  | _ + 1, (.word word, _) :: rest => do
    let rest ← expect [')'] rest
    .ok ([word], rest)
  | _ + 1, tokens => .error (unexpected [] tokens)

def conditionOf? (mark : Text) : Option Condition :=
  if mark = ['&', '&'] then some .afterSuccess
  else if mark = ['|', '|'] then some .afterFailure
  else none

/-- The mark at the start of tokens that closes a pipeline: whether nothing waits for the pipeline,
and the tokens after the mark. Where lines count, a newline is left where it is. -/
def closing? (ofOneLine : Bool) : Tokens → Option (Bool × Tokens)
  | (.mark [';'], _) :: rest => some (false, rest)
  | (.mark ['&'], _) :: rest => some (true, rest)
  | (.mark ['\n'], _) :: rest => if ofOneLine then none else some (false, rest)
  | _ => none

def lastInBackground (entries : Script) : Script :=
  entries.dropLast ++ (entries.getLast?.map Entry.background).toList

mutual

def joined : Nat → Condition → Tokens → Reading (Part Script)
  | 0, _, tokens => .error (unexpected [] tokens)
  | fuel + 1, condition, tokens => do
    let (negated, tokens) :=
      if reserved? tokens = some ['!'] then (true, tokens.tail) else (false, tokens)
    let (stages, rest) ← piped fuel tokens
    let entry := Entry.mk condition negated stages false
    match rest with
    | (.mark mark, _) :: after =>
      match conditionOf? mark with
      | some condition => do
        let (more, rest) ← joined fuel condition (skipNewlines after)
        .ok (entry :: more, rest)
      | none => .ok ([entry], rest)
    | _ => .ok ([entry], rest)

def piped : Nat → Tokens → Reading (Part (List Stage))
  | 0, tokens => .error (unexpected [] tokens)
  | fuel + 1, tokens => do
    let (stage, rest) ← command fuel tokens
    match rest with
    | (.mark ['|'], _) :: after => do
      let (more, rest) ← piped fuel (skipNewlines after)
      .ok (stage :: more, rest)
    | _ => .ok ([stage], rest)

/-- A list up to a token that begins no command, or up to the end of a line where lines count. -/
def list : Nat → Bool → Tokens → Reading (Part Script)
  | 0, _, tokens => .error (unexpected [] tokens)
  | fuel + 1, ofOneLine, tokens => do
    let tokens := if ofOneLine then tokens else skipNewlines tokens
    let (entries, rest) ←
      match tokens with
      | (.finish, _) :: _ => .ok ([], tokens)
      | _ => joined fuel .always tokens
    match closing? ofOneLine rest with
    | none => .ok (entries, rest)
    | some (inBackground, rest) =>
      let entries := if inBackground then lastInBackground entries else entries
      let rest := if ofOneLine then rest else skipNewlines rest
      if if ofOneLine then endsLine rest else endsList rest then .ok (entries, rest)
      else do
        let (more, rest) ← list fuel ofOneLine rest
        .ok (entries ++ more, rest)

def command : Nat → Tokens → Reading (Part Stage)
  | 0, tokens => .error (unexpected [] tokens)
  | fuel + 1, tokens => do
    let line := (tokens.head?.map Prod.snd).getD 1
    let close (body : Compound) (rest : Tokens) : Reading (Part Stage) := do
      let (found, rest) ← redirections fuel rest
      .ok (.compound line body found, rest)
    let own := reserved? tokens
    if own = some ['\x7b'] then
      let (body, rest) ← list fuel false tokens.tail
      close (.block body) (← expect ['\x7d'] rest)
    else if own = some "if".toList then
      let (body, rest) ← choice fuel tokens.tail
      close body rest
    else if own = some "while".toList ∨ own = some "until".toList then
      let (test, rest) ← list fuel false tokens.tail
      let (body, rest) ← list fuel false (← expect "do".toList rest)
      close (.loop (own = some "until".toList) test body) (← expect "done".toList rest)
    else if own = some "for".toList then
      match tokens.tail with
      | (.word [.bare name], line) :: rest =>
        if isName name then
          let (words, rest) ← loopWords rest
          let (body, rest) ← list fuel false (← expect "do".toList (skipNewlines rest))
          close (.each name words body) (← expect "done".toList rest)
        else .error (line, .badVariable)
      | (.broken misspelling, line) :: _ => .error (line, misspelling)
      | (_, line) :: _ => .error (line, .badVariable)
      | [] => .error (unexpected [] [])
    else if own = some "case".toList then
      match tokens.tail with
      | (.word word, _) :: rest =>
        let rest ← expect "in".toList (skipNewlines rest)
        let (cases, rest) ← selection fuel (skipNewlines rest)
        close (.select word cases) rest
      | rest => .error (unexpected "word".toList rest)
    else if own.isSome then .error (unexpected [] tokens)
    else
      match tokens with
      | (.mark ['('], _) :: rest =>
        let (body, rest) ← list fuel false rest
        close (.subshell body) (← expect [')'] rest)
      | (.word [.bare name], _) :: (.mark ['('], _) :: rest =>
        let rest ← expect [')'] rest
        let (body, rest) ← command fuel (skipNewlines rest)
        .ok (.function name body, rest)
      | (.word _, line) :: _ | (.redirect _ _, line) :: _ | (.document _ _, line) :: _ =>
        let ((words, found), rest) ← wordsAndRedirections tokens.length tokens
        .ok (.simple line words found, rest)
      | _ => .error (unexpected [] tokens)

/-- The parts of a choice after its first word, up to the word that ends it. -/
def choice : Nat → Tokens → Reading (Part Compound)
  | 0, tokens => .error (unexpected [] tokens)
  | fuel + 1, tokens => do
    let (test, rest) ← list fuel false tokens
    let (body, rest) ← list fuel false (← expect "then".toList rest)
    if reserved? rest = some "elif".toList then
      let (other, rest) ← choice fuel rest.tail
      .ok (.choice test body [.mk .always false [.compound 0 other []] false], rest)
    else if reserved? rest = some "else".toList then
      let (other, rest) ← list fuel false rest.tail
      .ok (.choice test body other, ← expect "fi".toList rest)
    else .ok (.choice test body [], ← expect "fi".toList rest)

def selection : Nat → Tokens → Reading (Part (List Case))
  | 0, tokens => .error (unexpected [] tokens)
  | fuel + 1, tokens => do
    if reserved? tokens = some "esac".toList then .ok ([], tokens.tail)
    else
      let tokens :=
        match tokens with
        | (.mark ['('], _) :: rest => rest
        | _ => tokens
      let (patterns, rest) ← casePatterns tokens.length tokens
      let rest := skipNewlines rest
      let (body, rest) ← if endsList rest then .ok ([], rest) else list fuel false rest
      match rest with
      | (.mark [';', ';'], _) :: rest =>
        let (more, rest) ← selection fuel (skipNewlines rest)
        .ok (.mk patterns body :: more, rest)
      | _ =>
        if reserved? rest = some "esac".toList then .ok ([.mk patterns body], rest.tail)
        else .error (unexpected ['"', ';', ';', '"'] rest)

end

/-- The lines of a script one after the other, and what is wrong with the first that cannot be
read. Every token is taken by a few steps, which bounds their number. -/
def linesOf : Nat → Tokens → List Script × Option (Nat × Misspelling)
  | 0, _ => ([], none)
  | fuel + 1, tokens =>
    match skipNewlines tokens with
    | [] | [(.finish, _)] => ([], none)
    | tokens =>
      match list (8 * tokens.length + 8) true tokens with
      | .error found => ([], some found)
      | .ok (script, rest) =>
        match rest with
        | [] | (.finish, _) :: _ => ([script], none)
        | (.mark ['\n'], _) :: after =>
          let (more, found) := linesOf fuel after
          (script :: more, found)
        | _ => ([], some (unexpected [] rest))

/-- The script that a text is, as far as it can be read, and what is wrong with the rest. -/
def read (text : Text) : List Script × Option (Nat × Misspelling) :=
  linesOf (text.length + 1) (tokensOf text)

end Dotenv.Shell
