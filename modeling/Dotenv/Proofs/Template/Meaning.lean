import Dotenv.Proofs.Template.Direct
import Dotenv.Template
/-!
# What templates mean

The parts of a template have a text each, and the template that a text is taken apart into
means what the text means when it is read directly.
-/

set_option autoImplicit false

namespace Dotenv

theorem Text.before_cons (c : Char) (rest text : Text) (atEnd : rest <:+ text) :
    before rest (c :: text) = c :: before rest text := by
  obtain ⟨front, rfl⟩ := atEnd
  rw [← List.cons_append]
  simp only [before, List.length_append, Nat.add_sub_cancel, List.take_left']

namespace Template

def meaning (scope : Scope) (answer : Text → Text) : Template → Text
  | nil => []
  | plain text rest => text ++ rest.meaning scope answer
  | command script rest => answer script ++ rest.meaning scope answer
  | reference name rest => scope.textOf name ++ rest.meaning scope answer
  | default rule name instead rest =>
    (if scope.keeps (rule = .whenEmpty) name then scope.textOf name
      else instead.meaning scope answer) ++ rest.meaning scope answer

variable (scope : Scope) (answer : Text → Text)

theorem meaning_push (c : Char) (template : Template) :
    (push c template).meaning scope answer = c :: template.meaning scope answer := by
  cases template <;> rfl

theorem meaning_append (front back : Template) :
    (front.append back).meaning scope answer =
      front.meaning scope answer ++ back.meaning scope answer := by
  induction front with
  | nil => rfl
  | plain text rest ih => simp only [append, meaning, ih, List.append_assoc]
  | command script rest ih => simp only [append, meaning, ih, List.append_assoc]
  | reference name rest ih => simp only [append, meaning, ih, List.append_assoc]
  | default rule name instead rest _ ih => simp only [append, meaning, ih, List.append_assoc]

/-! ## Forms -/

theorem isNameChar_of_isNameStart (c : Char) (starts : Scan.isNameStart c = true) :
    Scan.isNameChar c = true := by
  simp only [Scan.isNameStart, Scan.isNameChar, Char.isAlphanum, Bool.or_eq_true] at starts ⊢
  exact starts.imp Or.inl id

theorem directName?_eq (dots : Bool) (text : Text) :
    Direct.name? dots text =
      if Scan.startsName text then
        some (text.takeWhile fun d => Scan.isNameChar d || (dots && d == '.'),
          text.dropWhile fun d => Scan.isNameChar d || (dots && d == '.'))
      else none := by
  cases text with
  | nil => rfl
  | cons c rest =>
    cases starts : Scan.isNameStart c with
    | false => simp [Direct.name?, Scan.startsName, starts]
    | true =>
      have goesOn := isNameChar_of_isNameStart c starts
      simp [Direct.name?, Scan.startsName, starts, goesOn]

theorem bracedName?_eq (text : Text) : bracedName? text = Direct.name? true text := by
  rw [directName?_eq]
  simp only [bracedName?, Bool.true_and]
  rfl

theorem name?_eq (text : Text) : Scan.name? text = Direct.name? false text := by
  rw [directName?_eq]
  simp only [Scan.name?, Bool.false_and, Bool.or_false]

theorem closeBrace_suffix (depth : Nat) (text rest : Text)
    (closed : closeBrace depth text = some rest) : rest <:+ text := by
  fun_induction closeBrace depth text with
  | case1 => cases closed
  | case2 depth more ih =>
    exact (ih closed).trans ((List.suffix_cons _ _).trans (List.suffix_cons _ _))
  | case3 more =>
    cases closed
    exact List.suffix_refl _
  | case4 depth more ih => exact (ih closed).trans (List.suffix_cons _ _)
  | case5 depth c more _ _ _ ih => exact (ih closed).trans (List.suffix_cons _ _)

/-- A default in the two ways of writing it down: what is left from its closing brace on, and
its text with what is left after that brace. -/
theorem default?_eq (depth : Nat) (text : Text) :
    Direct.default? depth text =
      (closeBrace depth text).map fun rest => (Text.before rest text, rest.drop 1) := by
  fun_induction closeBrace depth text with
  | case1 depth => rfl
  | case2 depth more ih =>
    rw [Direct.default?, ih]
    cases closed : closeBrace (depth + 1) more with
    | none => rfl
    | some rest =>
      have atEnd := closeBrace_suffix _ _ _ closed
      simp only [Option.map_some, Text.before_cons _ _ _ atEnd,
        Text.before_cons _ _ _ (atEnd.trans (List.suffix_cons '{' more))]
  | case3 more => simp [Direct.default?, Text.before]
  | case4 depth more ih =>
    rw [Direct.default?, ih]
    cases closed : closeBrace depth more with
    | none => rfl
    | some rest =>
      simp only [Option.map_some, Text.before_cons _ _ _ (closeBrace_suffix _ _ _ closed)]
  | case5 depth c more noOpening noEnd noBrace ih =>
    rw [Direct.default?, ih]
    · cases closed : closeBrace depth more with
      | none => rfl
      | some rest =>
        simp only [Option.map_some, Text.before_cons _ _ _ (closeBrace_suffix _ _ _ closed)]
    · exact noOpening
    · exact noEnd
    · exact noBrace

def Form.direct : Form → Direct.Form
  | reference name rest => .key name rest
  | default rule name instead rest => .orElse (rule = .whenEmpty) name instead rest

theorem map_default?_eq (rule : DefaultRule) (name body : Text) :
    (Direct.default? 0 body).map
        (fun found => Direct.Form.orElse (rule = .whenEmpty) name found.1 found.2) =
      (match closeBrace 0 body with
        | none => none
        | some rest => some (Form.default rule name (Text.before rest body) (rest.drop 1))).map
        Form.direct := by
  rw [default?_eq]
  cases closeBrace 0 body with
  | none => rfl
  | some rest => rfl

theorem braced?_eq (bare : Bool) (text : Text) :
    Direct.form? bare ('{' :: text) = (braced? text).map Form.direct := by
  simp only [Direct.form?, braced?, bracedName?_eq]
  cases Direct.name? true text with
  | none => rfl
  | some found =>
    obtain ⟨name, after⟩ := found
    cases after with
    | nil => rfl
    | cons c rest =>
      by_cases closes : c = '}'
      · subst closes
        rfl
      · by_cases dash : c = '-'
        · subst dash
          exact map_default?_eq .whenUndefined name rest
        · by_cases colon : c = ':'
          · subst colon
            cases rest with
            | nil => rfl
            | cons d body =>
              by_cases dash : d = '-'
              · subst dash
                exact map_default?_eq .whenEmpty name body
              · simp [defaultRule?, dash]
          · simp [defaultRule?, closes, dash, colon]

theorem form?_eq (bare : Bool) (text : Text) :
    Direct.form? bare text = (form? bare text).map Form.direct := by
  unfold form?
  split
  · exact braced?_eq bare _
  · rename_i notBraced
    unfold Direct.form?
    split
    · exact absurd rfl (notBraced _)
    · cases bare with
      | false => rfl
      | true =>
        rw [name?_eq, if_pos rfl, if_pos rfl, Option.map_map]
        rfl

/-! ## Keys -/

theorem form?_length (bare : Bool) (text : Text) (form : Form)
    (found : form? bare text = some form) :
    ∀ part ∈ form.direct.parts, part.length < text.length := by
  refine Direct.form?_length bare text form.direct ?_
  rw [form?_eq, found, Option.map_some]

theorem meaning_substitutions (bare : Bool) (fuel : Nat) (text : Text)
    (enough : text.length ≤ fuel) :
    (substitutions bare fuel text).meaning scope answer = Direct.keys bare scope text := by
  induction fuel generalizing text with
  | zero =>
    rw [List.length_eq_zero_iff.mp (Nat.le_zero.mp enough), Direct.keys_nil]
    rfl
  | succ fuel ih =>
    cases text with
    | nil =>
      rw [Direct.keys_nil]
      rfl
    | cons c rest =>
      have restEnough : rest.length ≤ fuel := Nat.le_of_succ_le_succ enough
      rw [substitutions]
      by_cases dollar : c = '$'
      · subst dollar
        have direct := form?_eq bare rest
        rw [if_pos rfl]
        cases found : form? bare rest with
        | none =>
          rw [found] at direct
          rw [meaning_push, ih rest restEnough, Direct.keys_dollar direct]
        | some form =>
          have shorter := form?_length bare rest form found
          rw [found] at direct
          cases form with
          | reference name after =>
            have afterEnough := shorter after List.mem_cons_self
            rw [Direct.keys_key name after direct, meaning, ih after (by omega)]
          | default rule name instead after =>
            have insteadEnough := shorter instead List.mem_cons_self
            have afterEnough := shorter after (by simp [Form.direct, Direct.Form.parts])
            rw [Direct.keys_orElse _ name instead after direct, meaning, ih instead (by omega),
              ih after (by omega)]
      · rw [if_neg dollar, meaning_push, ih rest restEnough, Direct.keys_plain c dollar]

/-! ## Commands -/

theorem script?_eq (c : Char) (rest : Text) :
    Direct.script? (c :: rest) = if c = '$' then script? rest else none := by
  by_cases dollar : c = '$'
  · subst dollar
    rw [if_pos rfl]
    cases rest with
    | nil => rfl
    | cons d body =>
      by_cases opens : d = '('
      · subst opens
        simp only [Direct.script?, script?]
        cases body.takeWhile (· ≠ ')') with
        | nil =>
          cases body.dropWhile (· ≠ ')') with
          | nil => rfl
          | cons f after => by_cases closes : f = ')' <;> simp [closes]
        | cons e script =>
          cases body.dropWhile (· ≠ ')') with
          | nil => rfl
          | cons f after => by_cases closes : f = ')' <;> simp [closes]
      · simp [Direct.script?, script?, opens]
  · simp [Direct.script?, dollar]

theorem splitCommands_succ (fuel : Nat) (text : Text) (enough : text.length ≤ fuel) :
    splitCommands (fuel + 1) text = splitCommands fuel text := by
  induction fuel generalizing text with
  | zero =>
    rw [List.length_eq_zero_iff.mp (Nat.le_zero.mp enough)]
    rfl
  | succ fuel ih =>
    cases text with
    | nil => rfl
    | cons c rest =>
      have restEnough : rest.length ≤ fuel := Nat.le_of_succ_le_succ enough
      rw [splitCommands, splitCommands, ← script?_eq c rest]
      cases starts : Direct.script? (c :: rest) with
      | none => simp only [ih rest restEnough]
      | some found =>
        have shorter := Direct.script?_length _ found.1 found.2 starts
        simp only [List.length_cons] at shorter
        simp only [ih found.2 (by omega)]

theorem splitCommands_eq (fuel : Nat) (text : Text) (enough : text.length ≤ fuel) :
    splitCommands fuel text =
      match Direct.command? text with
      | none => (text, [])
      | some (front, script, after) =>
        (front, (script, (splitCommands fuel after).1) :: (splitCommands fuel after).2) := by
  induction text generalizing fuel with
  | nil => cases fuel <;> rfl
  | cons c rest ih =>
    simp only [List.length_cons] at enough
    obtain ⟨fuel, rfl⟩ : ∃ less, fuel = less + 1 := Nat.exists_eq_add_one.mpr (by omega)
    have restEnough : rest.length ≤ fuel := Nat.le_of_succ_le_succ enough
    rw [splitCommands, ← script?_eq c rest, Direct.command?]
    cases starts : Direct.script? (c :: rest) with
    | some found =>
      have shorter := Direct.script?_length _ found.1 found.2 starts
      simp only [List.length_cons] at shorter
      simp only [splitCommands_succ fuel found.2 (by omega)]
    | none =>
      simp only [ih fuel restEnough]
      cases command : Direct.command? rest with
      | none => rfl
      | some found =>
        have shorter := Direct.command?_length _ found.1 found.2.1 found.2.2 command
        simp only [Option.map_some, splitCommands_succ fuel found.2.2 (by omega)]

theorem meaning_ofCommands (bare : Bool) (fuel : Nat) (text : Text)
    (enough : text.length ≤ fuel) :
    ((ofPlain bare (splitCommands fuel text).1).append
        (ofCommands bare (splitCommands fuel text).2)).meaning scope answer =
      Direct.read bare scope answer text := by
  induction size : text.length using Nat.strongRecOn generalizing text with
  | _ size ih =>
    have plain : ∀ text : Text,
        (ofPlain bare text).meaning scope answer = Direct.keys bare scope text := fun text =>
      meaning_substitutions scope answer bare text.length text (Nat.le_refl _)
    rw [splitCommands_eq fuel text enough]
    cases command : Direct.command? text with
    | none =>
      rw [Direct.read_plain bare scope answer text command, meaning_append, plain]
      simp only [ofCommands, meaning, List.append_nil]
    | some found =>
      obtain ⟨front, script, after⟩ := found
      have shorter := Direct.command?_length text front script after command
      have rest := ih after.length (by omega) after (by omega) rfl
      rw [Direct.read_command bare scope answer text front script after command, ← rest,
        meaning_append, plain]
      simp only [ofCommands, meaning]

theorem meaning_ofText (bare : Bool) (text : Text) :
    (ofText bare text).meaning scope answer = Direct.read bare scope answer text :=
  meaning_ofCommands scope answer bare text.length text (Nat.le_refl _)

/-! ## Names -/

def Named : Template → Prop
  | nil => True
  | plain _ rest => rest.Named
  | command _ rest => rest.Named
  | reference name rest => name ≠ [] ∧ rest.Named
  | default _ name instead rest => name ≠ [] ∧ instead.Named ∧ rest.Named

theorem named_push (c : Char) (template : Template) (named : template.Named) :
    (push c template).Named := by
  cases template <;> exact named

theorem named_append (front back : Template) (frontNamed : front.Named) (backNamed : back.Named) :
    (front.append back).Named := by
  induction front with
  | nil => exact backNamed
  | plain text rest ih => exact ih frontNamed
  | command script rest ih => exact ih frontNamed
  | reference name rest ih => exact ⟨frontNamed.1, ih frontNamed.2⟩
  | default rule name instead rest _ ih => exact ⟨frontNamed.1, frontNamed.2.1, ih frontNamed.2.2⟩

theorem named_substitutions (bare : Bool) (fuel : Nat) (text : Text) :
    (substitutions bare fuel text).Named := by
  induction fuel generalizing text with
  | zero => exact trivial
  | succ fuel ih =>
    cases text with
    | nil => exact trivial
    | cons c rest =>
      rw [substitutions]
      split
      · cases found : form? bare rest with
        | none => exact named_push c _ (ih rest)
        | some form =>
          have named := Direct.form?_named bare rest form.direct (by rw [form?_eq, found]; rfl)
          cases form with
          | reference name after => exact ⟨named, ih after⟩
          | default rule name instead after => exact ⟨named, ih instead, ih after⟩
      · exact named_push c _ (ih rest)

theorem named_ofCommands (bare : Bool) (commands : List (Text × Text)) :
    (ofCommands bare commands).Named := by
  induction commands with
  | nil => exact trivial
  | cons command rest ih => exact named_append _ _ (named_substitutions bare _ _) ih

theorem named_ofText (bare : Bool) (text : Text) : (ofText bare text).Named :=
  named_append _ _ (named_substitutions bare _ _) (named_ofCommands bare _)

/-! ## Texts without substitutions -/

def IsPlain : Template → Prop
  | nil => True
  | plain _ rest => rest.IsPlain
  | _ => False

theorem isPlain_push (c : Char) (template : Template) (plain : (push c template).IsPlain) :
    template.IsPlain := by
  cases template <;> exact plain

theorem isPlain_append (front back : Template) (plain : (front.append back).IsPlain) :
    front.IsPlain ∧ back.IsPlain := by
  induction front with
  | nil => exact ⟨trivial, plain⟩
  | plain text rest ih => exact ih plain
  | command | reference | default => cases plain

theorem meaning_substitutions_of_isPlain (bare : Bool) (fuel : Nat) (text : Text)
    (enough : text.length ≤ fuel) (plain : (substitutions bare fuel text).IsPlain) :
    (substitutions bare fuel text).meaning scope answer = text := by
  induction fuel generalizing text with
  | zero =>
    rw [List.length_eq_zero_iff.mp (Nat.le_zero.mp enough)]
    rfl
  | succ fuel ih =>
    cases text with
    | nil => rfl
    | cons c rest =>
      have restEnough : rest.length ≤ fuel := Nat.le_of_succ_le_succ enough
      rw [substitutions] at plain ⊢
      split
      · rename_i dollar
        rw [if_pos dollar] at plain
        cases found : form? bare rest with
        | none =>
          simp only [found] at plain
          dsimp only
          rw [meaning_push, ih rest restEnough (isPlain_push c _ plain)]
        | some form =>
          simp only [found] at plain
          cases form <;> cases plain
      · rename_i other
        rw [if_neg other] at plain
        rw [meaning_push, ih rest restEnough (isPlain_push c _ plain)]

theorem read_of_isPlain (bare : Bool) (text : Text) (plain : (ofText bare text).IsPlain) :
    Direct.read bare scope answer text = text := by
  have split := splitCommands_eq text.length text (Nat.le_refl _)
  rw [← meaning_ofText]
  simp only [ofText] at plain ⊢
  obtain ⟨firstPlain, restPlain⟩ := isPlain_append _ _ plain
  cases command : Direct.command? text with
  | none =>
    rw [command] at split
    rw [split] at firstPlain ⊢
    rw [meaning_append]
    simp only [ofCommands, meaning, List.append_nil]
    exact meaning_substitutions_of_isPlain scope answer bare _ text (Nat.le_refl _) firstPlain
  | some found =>
    rw [command] at split
    rw [split] at restPlain
    cases restPlain

end Template

end Dotenv
