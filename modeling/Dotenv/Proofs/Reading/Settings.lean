import Dotenv.Proofs.Document.Contents
import Dotenv.Proofs.Template.Signs
/-!
# Settings

What a decorator sets is read from its own text and from what stands right behind it. In front of
other text it is read again unless that text is taken into it: a flag or a value has to end at a
gap, and a bare value may be the start of a call that a parenthesis further on closes. What is
read instead has another number of signs, so it says something else.
-/

set_option autoImplicit false

namespace Dotenv

namespace Scan

/-! ## Names -/

def IsName (text : Text) : Prop := name? text = some (text, [])

theorem isNameChar_of_start (c : Char) (start : isNameStart c = true) : isNameChar c = true := by
  simp only [isNameStart, isNameChar, Char.isAlphanum, Bool.or_eq_true] at start ⊢
  rcases start with alpha | underscore
  · exact Or.inl (Or.inl alpha)
  · exact Or.inr underscore

theorem name?_isName (text name rest : Text) (named : name? text = some (name, rest)) :
    IsName name := by
  unfold name? at named
  split at named
  · rename_i starts
    obtain ⟨rfl, -⟩ := Prod.mk.inj (Option.some.inj named)
    have inside : ∀ d ∈ text.takeWhile isNameChar, isNameChar d = true :=
      fun d member => List.mem_takeWhile_imp member
    have startsAgain : startsName (text.takeWhile isNameChar) = true := by
      cases text with
      | nil => cases starts
      | cons c more =>
        rw [List.takeWhile_cons_of_pos (isNameChar_of_start c starts)]
        exact starts
    rw [IsName, name?, if_pos startsAgain, List.takeWhile_eq_self_iff.mpr inside,
      List.dropWhile_eq_nil_iff.mpr inside]
  · cases named

theorem IsName.parts {name : Text} (isName : IsName name) :
    startsName name = true ∧ ∀ c ∈ name, isNameChar c = true := by
  unfold IsName name? at isName
  split at isName
  · rename_i starts
    obtain ⟨-, none⟩ := Prod.mk.inj (Option.some.inj isName)
    exact ⟨starts, List.dropWhile_eq_nil_iff.mp none⟩
  · cases isName

theorem IsName.ne_nil {name : Text} (isName : IsName name) : name ≠ [] := by
  rintro rfl
  cases isName

theorem IsName.again {name : Text} (isName : IsName name) (rest : Text)
    (stops : ∀ c, rest.head? = some c → isNameChar c = false) :
    name? (name ++ rest) = some (name, rest) := by
  obtain ⟨starts, nameChars⟩ := isName.parts
  have front : rest.takeWhile isNameChar = [] ∧ rest.dropWhile isNameChar = rest := by
    cases rest with
    | nil => exact ⟨rfl, rfl⟩
    | cons c more =>
      have stop := stops c rfl
      exact ⟨List.takeWhile_cons_of_neg (by simp [stop]),
        List.dropWhile_cons_of_neg (by simp [stop])⟩
  rw [name?, startsName_append name rest isName.ne_nil, if_pos starts,
    List.takeWhile_append_of_pos nameChars, List.dropWhile_append_of_pos nameChars, front.1,
    front.2, List.append_nil]

/-! ## Keys -/

def IsKey (text : Text) : Prop := startsName text = true ∧ text.all isKeyChar = true

theorem IsKey.mem {text : Text} (isKey : IsKey text) (c : Char) (member : c ∈ text) :
    isKeyChar c = true := List.all_eq_true.mp isKey.2 c member

theorem head_isKey (line : Text) (head : Head) (rest : Text)
    (read : Scan.head line = .ok (head, rest)) : IsKey head.key := by
  have taken : ∀ text, key text ≠ [] → IsKey (key text) := by
    intro text filled
    unfold key at filled ⊢
    split at filled
    · rename_i starts
      rw [if_pos starts]
      refine ⟨?_, List.all_eq_true.mpr fun c member => List.mem_takeWhile_imp member⟩
      rw [← startsName_append _ (text.dropWhile isKeyChar) filled, List.takeWhile_append_dropWhile]
      exact starts
    · exact absurd rfl filled
  simp only [Scan.head] at read
  split at read
  · cases read
  · rename_i keyed
    split at read
    · cases read
      exact taken _ fun none => keyed (Or.inl none)
    · cases read

/-! ## Settings -/

inductive Assigns (text : Text) : Term → Text → Prop
  | quoted {quote : Quote} {literal : Literal} {rest : Text}
      (opens : text.head?.bind Quote.ofMark? = some quote)
      (read : quotedLiteral quote text = some (literal, rest)) :
      Assigns text (.literal literal) rest
  | call {value : Term} {rest : Text} (bare : text.head?.bind Quote.ofMark? = none)
      (read : call? text = some (value, rest)) (ends : atBoundary rest = true) :
      Assigns text value rest
  | token (bare : text.head?.bind Quote.ofMark? = none)
      (noCall : ∀ value rest, call? text = some (value, rest) → atBoundary rest = false) :
      Assigns text (.literal (.bare (text.takeWhile (!Text.isGap ·))))
        (text.dropWhile (!Text.isGap ·))

/-- What the text after the name of a decorator sets, and what is left of it. -/
inductive Sets : Text → Setting → Text → Prop
  | flag {text : Text} (ends : atBoundary text = true) : Sets text .flag text
  | assigned {text : Text} {value : Term} {rest : Text} (starts : atBoundary text = false)
      (read : Assigns text value rest) (ends : atBoundary rest = true) :
      Sets ('=' :: text) (.assigned value) rest
  | call {text : Text} {args : Args} {rest : Text} (read : arguments? text = some (args, rest)) :
      Sets ('(' :: text) (.call args (some (Text.before rest ('(' :: text)))) rest

theorem decoratorValue_eq_ok (name text : Text) (value : Term) (rest : Text) :
    decoratorValue name text = .ok (value, rest) ↔
      atBoundary text = false ∧ Assigns text value rest := by
  unfold decoratorValue
  cases starts : atBoundary text with
  | true => simp [refuse]
  | false =>
    simp only [Bool.false_eq_true, if_false, true_and]
    cases bare : text.head?.bind Quote.ofMark? with
    | some quote =>
      simp only
      constructor
      · intro read
        split at read
        · rename_i literal after quoted
          cases read
          exact .quoted bare quoted
        · cases read
      · intro read
        cases read with
        | quoted opens read =>
          rw [bare] at opens
          cases opens
          rw [read]
        | call unquoted => exact absurd (bare.symm.trans unquoted) (by simp)
        | token unquoted => exact absurd (bare.symm.trans unquoted) (by simp)
    | none =>
      simp only
      constructor
      · intro read
        split at read
        · rename_i inner after called
          cases ends : atBoundary after with
          | true =>
            rw [ends] at read
            cases read
            exact .call bare called ends
          | false =>
            rw [ends] at read
            cases read
            refine .token bare fun value rest again => ?_
            rw [called] at again
            cases again
            exact ends
        · rename_i uncalled
          cases read
          refine .token bare fun value rest again => ?_
          rw [uncalled] at again
          cases again
      · intro read
        cases read with
        | quoted opens => exact absurd (opens.symm.trans bare) (by simp)
        | call _ read ends => simp [read, ends]
        | token _ noCall =>
          cases called : call? text with
          | none => rfl
          | some found => simp [noCall found.1 found.2 called]

theorem setting_eq_ok (name text : Text) (setting : Setting) (rest : Text) :
    Scan.setting name text = .ok (setting, rest) ↔ Sets text setting rest := by
  constructor
  · intro read
    unfold Scan.setting at read
    split at read
    · cases read
      exact .flag rfl
    · rename_i c more
      split at read
      · rename_i isGap
        cases read
        exact .flag isGap
      · split at read
        · rename_i equals
          subst equals
          split at read
          · cases read
          · rename_i value after assigned
            obtain ⟨starts, assigns⟩ := (decoratorValue_eq_ok name more value after).mp assigned
            split at read
            · cases read
              exact .assigned starts assigns rfl
            · split at read
              · rename_i isGap
                cases read
                exact .assigned starts assigns isGap
              · cases read
        · split at read
          · rename_i opens
            subst opens
            split at read
            · rename_i args after found
              cases read
              exact .call found
            · cases read
          · cases read
  · intro sets
    cases sets with
    | flag ends =>
      cases text with
      | nil => rfl
      | cons c more =>
        have isGap : Text.isGap c = true := ends
        simp only [Scan.setting, isGap, if_true]
    | assigned starts assigns ends =>
      have read := (decoratorValue_eq_ok name _ _ rest).mpr ⟨starts, assigns⟩
      have notGap : Text.isGap '=' = false := rfl
      simp only [Scan.setting, notGap, read, Bool.false_eq_true, if_false, if_true]
      cases rest with
      | nil => rfl
      | cons c more =>
        have isGap : Text.isGap c = true := ends
        simp only [isGap, if_true]
    | call found =>
      have notGap : Text.isGap '(' = false := rfl
      have notEquals : '(' ≠ '=' := by decide
      simp only [Scan.setting, notGap, notEquals, found, Bool.false_eq_true, if_false, if_true]

/-! ## Values behind each other -/

theorem Assigns.written {text : Text} {value : Term} {rest : Text}
    (assigns : Assigns text value rest) : value.render ++ rest = text := by
  cases assigns with
  | quoted opens read =>
    rw [Term.render]
    exact quotedLiteral_append _ text _ rest read
  | call bare read ends => exact call_append _ text value rest read
  | token bare noCall =>
    rw [Term.render, Literal.bare]
    exact List.takeWhile_append_dropWhile

theorem Assigns.unique {text : Text} {value other : Term} {rest left : Text}
    (starts : atBoundary text = false) (assigns : Assigns text value rest)
    (again : Assigns text other left) : value = other ∧ rest = left := by
  have read := (decoratorValue_eq_ok [] text value rest).mpr ⟨starts, assigns⟩
  have readAgain := (decoratorValue_eq_ok [] text other left).mpr ⟨starts, again⟩
  exact Prod.mk.inj (Except.ok.inj (read.symm.trans readAgain))

theorem Assigns.last {text : Text} {value : Term} {rest : Text} (assigns : Assigns text value rest)
    (starts : atBoundary text = false) :
    ∃ front c, value.render = front ++ [c] ∧ Text.isGap c = false := by
  cases text with
  | nil => cases starts
  | cons d more =>
    cases assigns with
    | quoted opens read =>
      rename_i quote literal
      obtain ⟨inner, rfl⟩ := quotedLiteral_raw quote d more literal rest read
      exact ⟨d :: inner, quote.mark, by rw [Term.render], by cases quote <;> rfl⟩
    | call bare read ends =>
      obtain ⟨front, closes⟩ := call?_closes _ value rest read
      exact ⟨front, ')', closes, rfl⟩
    | token bare noCall =>
      have notGap : Text.isGap d = false := starts
      have inside : ∀ c ∈ (d :: more).takeWhile (!Text.isGap ·), Text.isGap c = false := by
        intro c member
        simpa using List.mem_takeWhile_imp (p := fun c => !Text.isGap c) member
      have filled : (d :: more).takeWhile (!Text.isGap ·) ≠ [] := by simp [notGap]
      rw [Term.render, Literal.bare]
      exact ⟨_, _, (List.dropLast_append_getLast filled).symm, inside _ (List.getLast_mem filled)⟩

theorem Assigns.signs {text : Text} {value : Term} {rest : Text}
    (assigns : Assigns text value rest) (bare : Bool) :
    (value.expand bare).signs = Text.signs value.render := by
  cases assigns with
  | quoted opens read =>
    cases text with
    | nil => cases opens
    | cons c more =>
      rw [Term.render]
      exact Literal.signs_expand bare _ (quotedLiteral_keepsSigns _ c opens more _ rest read)
  | call _ read ends => exact call_signs bare _ text value rest read
  | token =>
    rw [Term.render]
    exact Literal.signs_expand bare _ (Literal.keepsSigns_bare _)

/-- Whether a line may go on with a text behind a decorator: only a gap is left, or a sign is
next. -/
def Continues (text : Text) : Prop :=
  Text.skipGap text = [] ∨ ∃ c rest, Text.skipGap text = c :: rest ∧ Text.isSign c = true

theorem Continues.head {text : Text} (continues : Continues text) (c : Char)
    (first : text.head? = some c) : Text.isGap c = true ∨ Text.isSign c = true := by
  obtain ⟨rest, rfl⟩ := List.head?_eq_some_iff.mp first
  cases isGap : Text.isGap c with
  | true => exact Or.inl rfl
  | false =>
    rw [Continues, Text.skipGap_cons c rest isGap] at continues
    rcases continues with none | ⟨d, more, same, sign⟩
    · cases none
    · obtain ⟨rfl, -⟩ := List.cons.inj same
      exact Or.inr sign

theorem Continues.signs_pos {front rest : Text} (continues : Continues (front ++ rest))
    (solid : ∃ c ∈ front, Text.isGap c = false) : 0 < Text.signs front := by
  have split : Text.skipGap (front ++ rest) = Text.skipGap front ++ rest :=
    Text.dropWhile_stops Text.isGap front rest solid
  rw [Continues, split] at continues
  cases left : Text.skipGap front with
  | nil => exact absurd left (Text.dropWhile_ne_nil Text.isGap front solid)
  | cons c more =>
    rw [left] at continues
    rcases continues with none | ⟨d, others, same, sign⟩
    · cases none
    · obtain ⟨rfl, -⟩ := List.cons.inj same
      have member : c ∈ front := (Text.skipGap_suffix front).subset (left ▸ List.mem_cons_self)
      exact Text.signs_pos front c member sign

theorem unquoted_of_startsName (text : Text) (starts : startsName text = true) :
    text.head?.bind Quote.ofMark? = none := by
  cases text with
  | nil => rfl
  | cons c more =>
    cases mark : Quote.ofMark? c with
    | none => exact mark
    | some quote =>
      obtain ⟨rfl, -⟩ := ofMark?_mark c quote mark
      cases quote <;> cases starts

theorem ofMark?_of_call (text : Text) (value : Term) (rest : Text)
    (found : call? text = some (value, rest)) : text.head?.bind Quote.ofMark? = none := by
  cases starts : startsName text with
  | false =>
    rw [call?_of_noName text starts] at found
    cases found
  | true => exact unquoted_of_startsName text starts

/-- Whether no call that starts with a value and goes beyond it ends at a gap. -/
def NoLongerCall (value after : Text) : Prop :=
  ∀ call rest, call? (value ++ after) = some (call, rest) → rest.length < after.length →
    atBoundary rest = false

section
variable {value : Term} {after other : Text}

theorem atBoundary_append (front rest other : Text) (filled : front ≠ []) :
    atBoundary (front ++ rest) = atBoundary (front ++ other) := by
  cases front with
  | nil => exact absurd rfl filled
  | cons c more => rfl

theorem filled_of_starts (front rest : Text) (starts : atBoundary (front ++ rest) = false)
    (ends : atBoundary rest = true) : front ≠ [] := by
  rintro rfl
  exact absurd (ends.symm.trans starts) (by simp)

/-- Text that starts with no call up to its end starts with none in front of other text, unless a
call goes on there. -/
theorem noCall_again {raw left : Text}
    (noCall : ∀ call rest, call? (raw ++ left) = some (call, rest) → atBoundary rest = false)
    (ends : atBoundary left = true) (kept : NoLongerCall raw other) (call : Term) (rest : Text)
    (found : call? (raw ++ other) = some (call, rest)) : atBoundary rest = false := by
  by_cases goesOn : rest.length < other.length
  · exact kept call rest found goesOn
  · -- The call ends inside the text, so it was there before.
    have written : call.render ++ rest = raw ++ other := call_append _ _ call rest found
    obtain ⟨inner, isRaw, rfl⟩ : ∃ inner, raw = call.render ++ inner ∧ rest = inner ++ other := by
      rcases List.append_eq_append_iff.mp written with found | ⟨more, isCall, isOther⟩
      · exact found
      · have none : more = [] := List.length_eq_zero_iff.mp (by
          rw [isOther, List.length_append] at goesOn
          omega)
        subst none
        exact ⟨[], by rw [isCall, List.append_nil, List.append_nil], isOther.symm⟩
    have alone := call?_front _ call _ found (inner ++ left)
    rw [← List.append_assoc, ← isRaw] at alone
    have noEnd := noCall call _ alone
    cases inner with
    | nil => exact absurd (noEnd.symm.trans ends) (by simp)
    | cons c inner => exact noEnd

/-- A value is assigned again in front of other text that starts with a gap, unless a call that
starts with it goes on there. -/
theorem Assigns.again (assigns : Assigns (value.render ++ after) value after)
    (filled : value.render ≠ []) (ends : atBoundary after = true)
    (endsAgain : atBoundary other = true) (kept : NoLongerCall value.render other) :
    Assigns (value.render ++ other) value other := by
  have sameHead : (value.render ++ after).head? = (value.render ++ other).head? := by
    rw [List.head?_append_of_ne_nil _ filled, List.head?_append_of_ne_nil _ filled]
  generalize isText : value.render ++ after = text at assigns sameHead
  cases assigns with
  | quoted opens read =>
    rw [sameHead] at opens
    refine .quoted opens ?_
    rw [Term.render]
    exact (quotedLiteral_front _ text _ after read).2 other
  | call bare read =>
    rw [sameHead] at bare
    exact .call bare (call?_front text value after read other) endsAgain
  | token bare noCall =>
    rw [sameHead] at bare
    simp only [Term.render, Literal.bare] at bare kept isText ⊢
    have inside : ∀ c ∈ text.takeWhile (!Text.isGap ·), (!Text.isGap c) = true :=
      fun c member => List.mem_takeWhile_imp (p := fun c => !Text.isGap c) member
    generalize text.takeWhile (!Text.isGap ·) = raw at bare kept isText inside ⊢
    generalize text.dropWhile (!Text.isGap ·) = left at ends isText
    subst isText
    have stops : other.takeWhile (!Text.isGap ·) = [] ∧
        other.dropWhile (!Text.isGap ·) = other := by
      cases other with
      | nil => exact ⟨rfl, rfl⟩
      | cons c more =>
        have isGap : Text.isGap c = true := endsAgain
        simp [isGap]
    have token := Assigns.token bare (noCall_again noCall ends kept)
    rwa [List.takeWhile_append_of_pos inside, List.dropWhile_append_of_pos inside, stops.1,
      stops.2, List.append_nil] at token

theorem getLast?_of_append (front back text : Text) (c : Char) (filled : back ≠ [])
    (whole : front ++ back = text ++ [c]) : c ∈ back := by
  have last := congrArg List.getLast? whole
  rw [List.getLast?_append_of_ne_nil _ filled, List.getLast?_concat] at last
  exact List.mem_of_getLast? last

theorem Assigns.beyond {longer : Term} {more rest : Text}
    (assigns : Assigns (value.render ++ after) value after) (filled : value.render ≠ [])
    (again : Assigns (value.render ++ other) longer rest)
    (isLonger : longer.render = value.render ++ more) (filledMore : more ≠ []) :
    ∃ c ∈ more, Text.isGap c = false := by
  have sameHead : (value.render ++ after).head? = (value.render ++ other).head? := by
    rw [List.head?_append_of_ne_nil _ filled, List.head?_append_of_ne_nil _ filled]
  generalize isText : value.render ++ other = text at again sameHead
  cases again with
  | quoted opens read =>
    exfalso
    generalize isFirst : value.render ++ after = first at assigns sameHead
    rw [← sameHead] at opens
    cases assigns with
    | quoted opensFirst readFirst =>
      obtain rfl := Option.some.inj (opens.symm.trans opensFirst)
      have kept := (quotedLiteral_front _ first _ after readFirst).2 other
      rw [Term.render] at isText
      rw [isText, read] at kept
      cases kept
      exact filledMore (List.append_right_eq_self.mp isLonger.symm)
    | call bare => cases opens.symm.trans bare
    | token bare => cases opens.symm.trans bare
  | call bare read =>
    obtain ⟨front, closes⟩ := call?_closes text longer rest read
    have member := getLast?_of_append _ more front ')' filledMore (isLonger.symm.trans closes)
    exact ⟨')', member, rfl⟩
  | token bare noCall =>
    simp only [Term.render, Literal.bare] at isLonger
    obtain ⟨c, others, rfl⟩ := List.exists_cons_of_ne_nil filledMore
    have member : c ∈ text.takeWhile (!Text.isGap ·) :=
      isLonger ▸ List.mem_append_right _ List.mem_cons_self
    refine ⟨c, List.mem_cons_self, ?_⟩
    simpa using List.mem_takeWhile_imp (p := fun c => !Text.isGap c) member

theorem Assigns.lost {longer : Term} {rest : Text}
    (assigns : Assigns (value.render ++ after) value after)
    (starts : atBoundary (value.render ++ after) = false) (ends : atBoundary after = true)
    (again : Assigns (value.render ++ other) longer rest) (endsAgain : atBoundary rest = true)
    (continues : Continues other) (goesOn : Continues rest)
    (lost : ¬ (atBoundary other = true ∧ NoLongerCall value.render other)) :
    Text.signs longer.render ≠ Text.signs value.render := by
  have filled := filled_of_starts _ after starts ends
  have differs : longer.render ≠ value.render := by
    intro same
    have isRest : rest = other := List.append_cancel_left (same ▸ again.written)
    subst isRest
    refine lost ⟨endsAgain, fun call left found shorter => ?_⟩
    cases endsCall : atBoundary left with
    | false => rfl
    | true =>
      rw [atBoundary_append _ after rest filled] at starts
      obtain ⟨-, rfl⟩ :=
        again.unique starts (.call (ofMark?_of_call _ call left found) found endsCall)
      exact absurd shorter (Nat.lt_irrefl _)
  rcases List.append_eq_append_iff.mp again.written with
    ⟨inner, isValue, isRest⟩ | ⟨more, isLonger, isOther⟩
  · -- The new value ends inside the old one, at a gap that a sign follows.
    have filledInner : inner ≠ [] := by
      rintro rfl
      exact differs (by rw [isValue, List.append_nil])
    obtain ⟨front, c, isLast, solid⟩ := assigns.last starts
    have member := getLast?_of_append _ inner front c filledInner (isValue.symm.trans isLast)
    rw [isRest] at goesOn
    have some := goesOn.signs_pos ⟨c, member, solid⟩
    rw [isValue, Text.signs_append]
    omega
  · -- The new value goes on behind the old one, beyond the gap there.
    have filledMore : more ≠ [] := by
      rintro rfl
      exact differs (by rw [isLonger, List.append_nil])
    have solid := assigns.beyond filled again isLonger filledMore
    rw [isOther] at continues
    have some := continues.signs_pos solid
    rw [isLonger, Text.signs_append]
    omega

end

end Scan

/-! ## Settings behind each other -/

def Setting.EndsBefore (after : Text) : Setting → Prop
  | flag => Scan.atBoundary after = true
  | assigned value => Scan.atBoundary after = true ∧ Scan.NoLongerCall value.render after
  | call _ _ => True

def Setting.Written (setting : Setting) : Prop :=
  ∃ after, Scan.Sets (setting.render ++ after) setting after

namespace Scan

variable {setting : Setting} {text after other rest : Text}

theorem Sets.render_append (sets : Sets text setting rest) : setting.render ++ rest = text :=
  setting_append [] text setting rest ((setting_eq_ok [] text setting rest).mpr sets)

theorem Sets.written (sets : Sets text setting rest) : setting.Written :=
  ⟨rest, sets.render_append.symm ▸ sets⟩

theorem Sets.head (sets : Sets text setting rest) (c : Char) (first : text.head? = some c) :
    isNameChar c = false := by
  cases sets with
  | flag ends =>
    obtain ⟨more, rfl⟩ := List.head?_eq_some_iff.mp first
    have isGap : Text.isGap c = true := ends
    simp only [Text.isGap, Bool.or_eq_true, beq_iff_eq] at isGap
    rcases isGap with rfl | rfl <;> rfl
  | assigned =>
    cases first
    rfl
  | call =>
    cases first
    rfl

theorem Sets.assigns (sets : Sets ('=' :: text) setting rest) :
    ∃ value, setting = .assigned value ∧ atBoundary text = false ∧ Assigns text value rest ∧
      atBoundary rest = true := by
  cases sets with
  | flag ends => cases ends
  | assigned starts read ends => exact ⟨_, rfl, starts, read, ends⟩

theorem Sets.again (written : setting.Written) (ends : setting.EndsBefore other) :
    Sets (setting.render ++ other) setting other := by
  obtain ⟨after, sets⟩ := written
  cases setting with
  | flag => exact .flag ends
  | assigned value =>
    obtain ⟨_, same, starts, read, endsAfter⟩ :=
      Sets.assigns (show Sets ('=' :: (value.render ++ after)) _ _ from sets)
    cases same
    have filled := filled_of_starts _ after starts endsAfter
    rw [atBoundary_append _ after other filled] at starts
    exact .assigned starts (read.again filled endsAfter ends.1 ends.2) ends.1
  | call args source =>
    generalize isText : (Setting.call args source).render ++ after = text at sets
    cases sets with
    | call read =>
      obtain ⟨inner, rfl, reads⟩ := arguments_front _ _ args after read
      have list : ∀ left, Text.before left ('(' :: (inner ++ ')' :: left)) =
          '(' :: (inner ++ [')']) := by
        intro left
        have front := Text.before_append_right ('(' :: (inner ++ [')'])) left
        simpa using front
      have readAgain : arguments? (inner ++ ')' :: other) = some (args, other) := by
        refine reads _ ?_ other
        rw [fuelFor, List.length_append, List.length_cons]
        omega
      have again := Sets.call readAgain
      rw [list] at again
      simpa [list, Setting.render, Args.render] using again

theorem Sets.lost {found : Setting} (written : setting.Written) (continues : Continues other)
    (lost : ¬ setting.EndsBefore other) (again : Sets (setting.render ++ other) found rest)
    (goesOn : Continues rest) (bare : Bool) :
    (found.expand bare).canonical ≠ (setting.expand bare).canonical := by
  obtain ⟨after, sets⟩ := written
  cases setting with
  | flag =>
    exfalso
    rw [Setting.render, List.nil_append] at again
    cases again with
    | flag ends => exact lost ends
    | assigned => rcases continues.head _ rfl with isGap | isSign <;> contradiction
    | call => rcases continues.head _ rfl with isGap | isSign <;> contradiction
  | assigned value =>
    obtain ⟨_, same, starts, read, ends⟩ :=
      Sets.assigns (show Sets ('=' :: (value.render ++ after)) _ _ from sets)
    cases same
    obtain ⟨longer, rfl, -, readAgain, endsAgain⟩ :=
      Sets.assigns (show Sets ('=' :: (value.render ++ other)) _ _ from again)
    have signs := read.lost starts ends readAgain endsAgain continues goesOn lost
    intro same
    have sameValue : (longer.expand bare).canonical = (value.expand bare).canonical :=
      (List.cons.inj same).2
    have sameSigns : (longer.expand bare).signs = (value.expand bare).signs :=
      congrArg Text.signs sameValue
    rw [read.signs bare, readAgain.signs bare] at sameSigns
    exact signs sameSigns
  | call args source => exact absurd trivial lost

end Scan

end Dotenv
