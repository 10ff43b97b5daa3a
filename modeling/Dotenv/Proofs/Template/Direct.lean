import Dotenv.Reading.Scan
import Dotenv.Scope
/-!
# Templates read directly

What a template stands for in a scope, read off its text from left to right: commands first,
and the keys in the text between them. Nothing is built on the way.
-/

set_option autoImplicit false

namespace Dotenv

namespace Scope

/-- The text of a key: its override, else its latest value, else nothing. -/
def textOf (scope : Scope) (key : Text) : Text :=
  match scope.lookup key with
  | .overridden text => text
  | .defined value => value.display
  | .unknown => []

def knows (scope : Scope) (key : Text) : Bool :=
  match scope.lookup key with
  | .unknown => false
  | _ => true

/-- Whether a key keeps its text where there is a default: `orEmpty` when the empty text is as
good as none. -/
def keeps (scope : Scope) (orEmpty : Bool) (key : Text) : Bool :=
  if orEmpty then scope.textOf key ≠ [] else scope.knows key

end Scope

namespace Direct

/-- The longest name at the start of a text, with dots in it or not, and what is left. -/
def name? (dots : Bool) : Text → Option (Text × Text)
  | [] => none
  | c :: rest =>
    if Scan.isNameStart c then
      let goesOn (d : Char) : Bool := Scan.isNameChar d || (dots && d == '.')
      some (c :: rest.takeWhile goesOn, rest.dropWhile goesOn)
    else none

/-- A default and what is left after the brace that closes it, inside `depth` more braces. -/
def default? : Nat → Text → Option (Text × Text)
  | _, [] => none
  | depth, '$' :: '{' :: rest =>
    (default? (depth + 1) rest).map fun found => ('$' :: '{' :: found.1, found.2)
  | 0, '}' :: rest => some ([], rest)
  | depth + 1, '}' :: rest => (default? depth rest).map fun found => ('}' :: found.1, found.2)
  | depth, c :: rest => (default? depth rest).map fun found => (c :: found.1, found.2)

inductive Form where
  | key (name rest : Text)
  | orElse (orEmpty : Bool) (name instead rest : Text)

def form? (bare : Bool) : Text → Option Form
  | '{' :: rest =>
    match name? true rest with
    | some (name, '}' :: after) => some (.key name after)
    | some (name, ':' :: '-' :: body) =>
      (default? 0 body).map fun found => .orElse true name found.1 found.2
    | some (name, '-' :: body) =>
      (default? 0 body).map fun found => .orElse false name found.1 found.2
    | _ => none
  | text => if bare then (name? false text).map fun found => .key found.1 found.2 else none

def Form.parts : Form → List Text
  | key _ rest => [rest]
  | orElse _ _ instead rest => [instead, rest]

def Form.name : Form → Text
  | key name _ => name
  | orElse _ name _ _ => name

theorem name?_ne_nil (dots : Bool) (text name rest : Text)
    (found : name? dots text = some (name, rest)) : name ≠ [] := by
  cases text with
  | nil => cases found
  | cons c more =>
    simp only [name?] at found
    split at found
    · cases found
      exact List.cons_ne_nil _ _
    · cases found

theorem form?_named (bare : Bool) (text : Text) (form : Form)
    (found : form? bare text = some form) : form.name ≠ [] := by
  unfold form? at found
  split at found
  · split at found
    · rename_i name after named
      cases found
      exact name?_ne_nil _ _ _ _ named
    · rename_i name body named
      obtain ⟨_, _, rfl⟩ := Option.map_eq_some_iff.mp found
      exact name?_ne_nil _ _ _ _ named
    · rename_i name body named
      obtain ⟨_, _, rfl⟩ := Option.map_eq_some_iff.mp found
      exact name?_ne_nil _ _ _ _ named
    · cases found
  · split at found
    · obtain ⟨⟨name, rest⟩, named, rfl⟩ := Option.map_eq_some_iff.mp found
      exact name?_ne_nil _ _ _ _ named
    · cases found

theorem name?_length (dots : Bool) (text name rest : Text)
    (found : name? dots text = some (name, rest)) : rest.length < text.length := by
  cases text with
  | nil => cases found
  | cons c more =>
    simp only [name?] at found
    split at found
    · cases found
      exact Nat.lt_succ_of_le (List.dropWhile_suffix _).length_le
    · cases found

theorem default?_length (depth : Nat) (text instead rest : Text)
    (found : default? depth text = some (instead, rest)) :
    instead.length + rest.length < text.length := by
  fun_induction default? depth text generalizing instead rest with
  | case1 => cases found
  | case2 depth more ih =>
    obtain ⟨⟨inner, after⟩, innerFound, same⟩ := Option.map_eq_some_iff.mp found
    cases same
    have shorter := ih _ _ innerFound
    simp only [List.length_cons]
    omega
  | case3 more =>
    cases found
    simp only [List.length_cons, List.length_nil]
    omega
  | case4 depth more ih =>
    obtain ⟨⟨inner, after⟩, innerFound, same⟩ := Option.map_eq_some_iff.mp found
    cases same
    have shorter := ih _ _ innerFound
    simp only [List.length_cons]
    omega
  | case5 depth c more _ _ _ ih =>
    obtain ⟨⟨inner, after⟩, innerFound, same⟩ := Option.map_eq_some_iff.mp found
    cases same
    have shorter := ih _ _ innerFound
    simp only [List.length_cons]
    omega

theorem form?_length (bare : Bool) (text : Text) (form : Form)
    (found : form? bare text = some form) : ∀ part ∈ form.parts, part.length < text.length := by
  have orElse : ∀ orEmpty name (body opening : Text),
      ((default? 0 body).map fun found => Form.orElse orEmpty name found.1 found.2) = some form →
      body.length < opening.length → ∀ part ∈ form.parts, part.length < opening.length := by
    intro orEmpty name body opening mapped shorter part member
    obtain ⟨⟨instead, rest⟩, defaultFound, rfl⟩ := Option.map_eq_some_iff.mp mapped
    have length := default?_length 0 body instead rest defaultFound
    simp only [Form.parts, List.mem_cons, List.not_mem_nil, or_false] at member
    rcases member with rfl | rfl <;> omega
  unfold form? at found
  split at found
  · rename_i inner
    split at found
    · rename_i name after named
      cases found
      have length := name?_length _ _ _ _ named
      simp only [Form.parts, List.forall_mem_singleton, List.length_cons] at length ⊢
      omega
    · rename_i name body named
      have length := name?_length _ _ _ _ named
      simp only [List.length_cons] at length
      exact orElse _ _ body _ found (by rw [List.length_cons]; omega)
    · rename_i name body named
      have length := name?_length _ _ _ _ named
      simp only [List.length_cons] at length
      exact orElse _ _ body _ found (by rw [List.length_cons]; omega)
    · cases found
  · split at found
    · obtain ⟨⟨name, rest⟩, named, rfl⟩ := Option.map_eq_some_iff.mp found
      have length := name?_length _ _ _ _ named
      simp only [Form.parts, List.forall_mem_singleton]
      exact length
    · cases found

set_option linter.unusedVariables false in
def keys (bare : Bool) (scope : Scope) (text : Text) : Text :=
  match text with
  | [] => []
  | c :: rest =>
    if c = '$' then
      match found : form? bare rest with
      | some (.key name after) => scope.textOf name ++ keys bare scope after
      | some (.orElse orEmpty name instead after) =>
        (if scope.keeps orEmpty name then scope.textOf name else keys bare scope instead) ++
          keys bare scope after
      | none => c :: keys bare scope rest
    else c :: keys bare scope rest
termination_by text.length
decreasing_by
  · exact Nat.lt_succ_of_lt (form?_length bare rest _ found after List.mem_cons_self)
  · exact Nat.lt_succ_of_lt (form?_length bare rest _ found instead List.mem_cons_self)
  · exact Nat.lt_succ_of_lt (form?_length bare rest _ found after (by simp [Form.parts]))
  · exact Nat.lt_succ_self _
  · exact Nat.lt_succ_self _

section

variable {bare : Bool} {scope : Scope} {rest : Text}

theorem keys_nil : keys bare scope [] = [] := by
  rw [keys]

theorem keys_plain (c : Char) (plain : c ≠ '$') :
    keys bare scope (c :: rest) = c :: keys bare scope rest := by
  rw [keys, if_neg plain]

theorem keys_dollar (incomplete : form? bare rest = none) :
    keys bare scope ('$' :: rest) = '$' :: keys bare scope rest := by
  rw [keys, if_pos rfl]
  split <;> simp_all

theorem keys_key (name after : Text) (found : form? bare rest = some (.key name after)) :
    keys bare scope ('$' :: rest) = scope.textOf name ++ keys bare scope after := by
  rw [keys, if_pos rfl]
  split <;> simp_all

theorem keys_orElse (orEmpty : Bool) (name instead after : Text)
    (found : form? bare rest = some (.orElse orEmpty name instead after)) :
    keys bare scope ('$' :: rest) =
      (if scope.keeps orEmpty name then scope.textOf name else keys bare scope instead) ++
        keys bare scope after := by
  rw [keys, if_pos rfl]
  split <;> simp_all

end

/-- The script of a command that starts a text, up to the first closing parenthesis and not
empty, and what is left. -/
def script? : Text → Option (Text × Text)
  | '$' :: '(' :: rest =>
    match rest.takeWhile (· ≠ ')'), rest.dropWhile (· ≠ ')') with
    | c :: script, ')' :: after => some (c :: script, after)
    | _, _ => none
  | _ => none

def command? : Text → Option (Text × Text × Text)
  | [] => none
  | c :: rest =>
    match script? (c :: rest) with
    | some (script, after) => some ([], script, after)
    | none => (command? rest).map fun found => (c :: found.1, found.2)

theorem script?_length (text script rest : Text) (found : script? text = some (script, rest)) :
    rest.length < text.length := by
  unfold script? at found
  split at found
  · rename_i body
    split at found
    · rename_i closing
      cases found
      have length := (List.dropWhile_suffix (l := body) (· ≠ ')')).length_le
      rw [closing] at length
      simp only [List.length_cons] at length ⊢
      omega
    · cases found
  · cases found

theorem command?_length (text front script rest : Text)
    (found : command? text = some (front, script, rest)) : rest.length < text.length := by
  induction text generalizing front with
  | nil => cases found
  | cons c more ih =>
    simp only [command?] at found
    split at found
    · rename_i script after starts
      cases found
      exact script?_length _ _ _ starts
    · obtain ⟨⟨inner, others⟩, innerFound, same⟩ := Option.map_eq_some_iff.mp found
      cases same
      exact Nat.lt_succ_of_lt (ih inner innerFound)

set_option linter.unusedVariables false in
def read (bare : Bool) (scope : Scope) (answer : Text → Text) (text : Text) : Text :=
  match found : command? text with
  | none => keys bare scope text
  | some (front, script, after) =>
    keys bare scope front ++ (answer script ++ read bare scope answer after)
termination_by text.length
decreasing_by exact command?_length text front script after found

theorem read_plain (bare : Bool) (scope : Scope) (answer : Text → Text) (text : Text)
    (none : command? text = none) : read bare scope answer text = keys bare scope text := by
  rw [read]
  split <;> simp_all

theorem read_command (bare : Bool) (scope : Scope) (answer : Text → Text)
    (text front script after : Text) (found : command? text = some (front, script, after)) :
    read bare scope answer text =
      keys bare scope front ++ (answer script ++ read bare scope answer after) := by
  rw [read]
  split <;> simp_all

end Direct

end Dotenv
