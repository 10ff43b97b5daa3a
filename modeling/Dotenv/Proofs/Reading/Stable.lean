import Dotenv.Proofs.Document.Quoted
import Dotenv.Proofs.Reading.Scan
import Mathlib.Data.List.DropRight
/-!
# Tokens do not look ahead

A token in quotes and a call are read from their own text alone: whatever stands behind them,
they are read again as the same token, and what stands behind them is left. Names and bare
arguments end where they end because of the character that follows, so for them that
character counts as well.
-/

set_option autoImplicit false

namespace Dotenv

theorem Text.before_append_right (front rest : Text) : before rest (front ++ rest) = front := by
  simp [before]

namespace Text

theorem skipGap_cons (c : Char) (rest : Text) (solid : isGap c = false) :
    skipGap (c :: rest) = c :: rest := by
  rw [skipGap, List.dropWhile_cons_of_neg]
  rw [solid]
  exact Bool.false_ne_true

theorem solid_of_skipGap (text : Text) (c : Char) (rest : Text)
    (skipped : skipGap text = c :: rest) : isGap c = false := by
  have first := List.head?_dropWhile_not isGap text
  rw [show text.dropWhile isGap = c :: rest from skipped] at first
  exact first

theorem skipGap_gap_append (text rest : Text) : skipGap (gap text ++ rest) = skipGap rest :=
  List.dropWhile_append_of_pos fun _ member => List.mem_takeWhile_imp member

theorem gap_gap_append (text rest : Text) : gap (gap text ++ rest) = gap text ++ gap rest :=
  List.takeWhile_append_of_pos fun _ member => List.mem_takeWhile_imp member

theorem gap_append_solid (front rest : Text) (isGap : skipGap front = [])
    (solid : skipGap rest = rest) : gap (front ++ rest) = front ∧ skipGap (front ++ rest) = rest := by
  have skipped : skipGap (front ++ rest) = rest :=
    (List.dropWhile_append_of_pos (List.dropWhile_eq_nil_iff.mp isGap)).trans solid
  refine ⟨?_, skipped⟩
  have whole := gap_append_skipGap (front ++ rest)
  rw [skipped] at whole
  exact List.append_cancel_right whole

theorem skipGap_split (text : Text) :
    ∃ gap, text = gap ++ skipGap text ∧ ∀ other, skipGap (gap ++ other) = skipGap other :=
  ⟨gap text, (gap_append_skipGap text).symm, skipGap_gap_append text⟩

theorem skipGap_skipGap (text : Text) : skipGap (skipGap text) = skipGap text := by
  cases skipped : skipGap text with
  | nil => rfl
  | cons c rest => exact skipGap_cons c rest (solid_of_skipGap text c rest skipped)

theorem skipGap_front (front : Text) (c : Char) (rest other : Text) (solid : isGap c = false)
    (bare : skipGap (front ++ c :: rest) = front ++ c :: rest) :
    skipGap (front ++ c :: other) = front ++ c :: other := by
  cases front with
  | nil => exact skipGap_cons c other solid
  | cons d more => exact skipGap_cons d _ (solid_of_skipGap _ d _ bare)

theorem dropWhile_ne_nil (p : Char → Bool) (front : Text) (stops : ∃ c ∈ front, p c = false) :
    front.dropWhile p ≠ [] := by
  obtain ⟨c, member, fails⟩ := stops
  rw [ne_eq, List.dropWhile_eq_nil_iff]
  intro holds
  rw [holds c member] at fails
  cases fails

theorem dropWhile_stops (p : Char → Bool) (front rest : Text) (stops : ∃ c ∈ front, p c = false) :
    (front ++ rest).dropWhile p = front.dropWhile p ++ rest := by
  rw [List.dropWhile_append, if_neg]
  rw [List.isEmpty_iff]
  exact dropWhile_ne_nil p front stops

theorem takeWhile_stops (p : Char → Bool) (front rest : Text) (stops : ∃ c ∈ front, p c = false) :
    (front ++ rest).takeWhile p = front.takeWhile p := by
  have whole := List.takeWhile_append_dropWhile (p := p) (l := front ++ rest)
  rw [dropWhile_stops p front rest stops, ← List.append_assoc] at whole
  have sameFront := List.append_cancel_right whole
  exact List.append_cancel_right
    (sameFront.trans (List.takeWhile_append_dropWhile (p := p) (l := front)).symm)

theorem dropEndWhile_dropEndWhile (p : Char → Bool) (text : Text) :
    dropEndWhile p (dropEndWhile p text) = dropEndWhile p text := by
  unfold dropEndWhile
  rw [List.reverse_reverse, List.dropWhile_idempotent]

theorem dropEndWhile_append_of_pos (p : Char → Bool) (text tail : Text)
    (dropped : ∀ c ∈ tail, p c = true) : dropEndWhile p (text ++ tail) = dropEndWhile p text := by
  unfold dropEndWhile
  rw [List.reverse_append, List.dropWhile_append_of_pos]
  exact fun c member => dropped c (List.mem_reverse.mp member)

theorem gap_of_mem_gap (text : Text) (c : Char) (member : c ∈ gap text) : isGap c = true :=
  List.mem_takeWhile_imp member

end Text

namespace Scan

/-! ## Quotes -/

theorem closeQuote_cons (mark c : Char) (rest : Text) (slashless : c ≠ '\\') :
    closeQuote mark (c :: rest) = if c = mark then some rest else closeQuote mark rest := by
  rw [closeQuote]
  exact fun _ _ slash => absurd slash slashless

theorem closeQuote_front (mark : Char) (slashless : mark ≠ '\\') (text rest : Text)
    (closed : closeQuote mark text = some rest) :
    ∃ front, text = front ++ rest ∧ ∀ other, closeQuote mark (front ++ other) = some other := by
  fun_induction closeQuote mark text with
  | case1 => cases closed
  | case2 more ih =>
    obtain ⟨front, rfl, reads⟩ := ih closed
    refine ⟨'\\' :: mark :: front, rfl, fun other => ?_⟩
    simp only [List.cons_append, closeQuote, if_true]
    exact reads other
  | case3 c more differs ih =>
    obtain ⟨front, whole, reads⟩ := ih closed
    cases front with
    | nil => cases reads []
    | cons d front =>
      obtain ⟨rfl, rfl⟩ := List.cons.inj whole
      refine ⟨'\\' :: c :: front, rfl, fun other => ?_⟩
      simp only [List.cons_append, closeQuote, if_neg differs]
      exact reads other
  | case4 more other =>
    cases closed
    refine ⟨[mark], rfl, fun after => ?_⟩
    rw [List.singleton_append, closeQuote_cons mark mark after slashless, if_pos rfl]
  | case5 c more other differs ih =>
    obtain ⟨front, rfl, reads⟩ := ih closed
    have plain : c ≠ '\\' := by
      rintro rfl
      cases whole : front ++ rest with
      | nil =>
        rw [whole] at closed
        cases closed
      | cons d after => exact other d after rfl whole
    refine ⟨c :: front, rfl, fun after => ?_⟩
    rw [List.cons_append, closeQuote_cons mark c _ plain, if_neg differs]
    exact reads after

theorem quotedLiteral_front (quote : Quote) (text : Text) (literal : Literal) (rest : Text)
    (found : quotedLiteral quote text = some (literal, rest)) :
    literal.raw.head? = text.head? ∧
      ∀ other, quotedLiteral quote (literal.raw ++ other) = some (literal, other) := by
  simp only [quotedLiteral, Option.map_eq_some_iff, Prod.mk.injEq] at found
  obtain ⟨after, closed, rfl, rfl⟩ := found
  obtain ⟨front, whole, reads⟩ := closeQuote_front quote.mark quote.mark_ne_slash _ _ closed
  cases text with
  | nil => cases closed
  | cons c more =>
    simp only [List.drop_one, List.tail_cons] at whole
    subst whole
    have raw : Text.before after (c :: (front ++ after)) = c :: front :=
      Text.before_append_right (c :: front) after
    refine ⟨by rw [raw]; rfl, fun other => ?_⟩
    have again : Text.before other (c :: (front ++ other)) = c :: front :=
      Text.before_append_right (c :: front) other
    simp only [raw, List.cons_append, quotedLiteral, List.drop_one, List.tail_cons, reads other,
      Option.map_some, again]

theorem dropStart?_none (start front rest other : Text)
    (kept : Text.dropStart? start (front ++ rest) = none)
    (apart : front.length < start.length → ∀ c, other.head? = some c → c ∉ start) :
    Text.dropStart? start (front ++ other) = none := by
  cases dropped : Text.dropStart? start (front ++ other) with
  | none => rfl
  | some after =>
    have whole := dropStart?_append start _ after dropped
    rcases List.append_eq_append_iff.mp whole with ⟨more, rfl, same⟩ | ⟨more, rfl, rfl⟩
    · rw [List.append_assoc, Text.dropStart?_append] at kept
      cases kept
    · cases more with
      | nil =>
        rw [List.append_nil, Text.dropStart?_append] at kept
        cases kept
      | cons c more =>
        refine absurd ?_ (apart ?_ c rfl)
        · exact List.mem_append_right _ List.mem_cons_self
        · simp

theorem closeBlock_cons (mark c : Char) (rest : Text) (slashless : c ≠ '\\') :
    closeBlock mark (c :: rest) =
      match Text.dropStart? [mark, mark, mark] (c :: rest) with
      | some after => some after
      | none => closeBlock mark rest :=
  closeBlock.eq_3 mark c rest fun _ _ slash _ => slashless slash

theorem closeBlock_front (mark : Char) (slashless : mark ≠ '\\') (text rest : Text)
    (closed : closeBlock mark text = some rest) :
    ∃ front, text = front ++ rest ∧ 3 ≤ front.length ∧
      ∀ other, closeBlock mark (front ++ other) = some other := by
  fun_induction closeBlock mark text with
  | case1 => cases closed
  | case2 more ih =>
    obtain ⟨front, rfl, long, reads⟩ := ih closed
    refine ⟨'\\' :: mark :: front, rfl, ?_, fun other => ?_⟩
    · simp only [List.length_cons]
      omega
    · simp only [List.cons_append, closeBlock, if_true]
      exact reads other
  | case3 c more differs ih =>
    obtain ⟨front, whole, long, reads⟩ := ih closed
    cases front with
    | nil => cases reads []
    | cons d front =>
      obtain ⟨rfl, rfl⟩ := List.cons.inj whole
      refine ⟨'\\' :: c :: front, rfl, Nat.le_succ_of_le long, fun other => ?_⟩
      simp only [List.cons_append, closeBlock, if_neg differs]
      exact reads other
  | case4 c more other after dropped =>
    cases closed
    have whole := dropStart?_append _ _ _ dropped
    refine ⟨[mark, mark, mark], whole.symm, Nat.le_refl 3, fun other => ?_⟩
    have again := Text.dropStart?_append [mark, mark, mark] other
    simp only [List.cons_append, List.nil_append] at again ⊢
    rw [closeBlock_cons mark mark _ slashless, again]
  | case5 c more other kept ih =>
    obtain ⟨front, rfl, long, reads⟩ := ih closed
    have plain : c ≠ '\\' := by
      rintro rfl
      cases whole : front ++ rest with
      | nil =>
        rw [whole] at closed
        cases closed
      | cons d after => exact other d after rfl whole
    refine ⟨c :: front, rfl, Nat.le_succ_of_le long, fun after => ?_⟩
    have stillKept : Text.dropStart? [mark, mark, mark] (c :: front ++ after) = none := by
      refine dropStart?_none _ (c :: front) rest after kept fun short => ?_
      simp only [List.length_cons, List.length_nil] at short
      omega
    rw [List.cons_append] at stillKept ⊢
    rw [closeBlock_cons mark c _ plain, stillKept]
    exact reads after

/-! ## Names -/

theorem startsName_append (front rest : Text) (filled : front ≠ []) :
    startsName (front ++ rest) = startsName front := by
  cases front with
  | nil => exact absurd rfl filled
  | cons c more => rfl

theorem name?_stops (front rest : Text) (stops : ∃ c ∈ front, isNameChar c = false) :
    name? (front ++ rest) = (name? front).map fun found => (found.1, found.2 ++ rest) := by
  have starts := startsName_append front rest (List.ne_nil_of_mem stops.choose_spec.1)
  unfold name?
  rw [starts, Text.takeWhile_stops _ front rest stops, Text.dropWhile_stops _ front rest stops]
  split <;> rfl

theorem name?_front (text name : Text) (c : Char) (rest : Text)
    (found : name? text = some (name, c :: rest)) (other : Text) :
    name? (name ++ c :: other) = some (name, c :: other) := by
  have notName : isNameChar c = false := by
    unfold name? at found
    split at found
    · have first := List.head?_dropWhile_not isNameChar text
      simp only [Option.some.injEq, Prod.mk.injEq] at found
      rw [found.2] at first
      exact first
    · cases found
  have whole : name ++ [c] ++ rest = text := by
    rw [List.append_assoc]
    exact name?_append text name (c :: rest) found
  have stops : ∃ d ∈ name ++ [c], isNameChar d = false :=
    ⟨c, List.mem_append_right name (List.mem_singleton_self c), notName⟩
  rw [← whole, name?_stops _ rest stops, Option.map_eq_some_iff] at found
  obtain ⟨⟨sameName, left⟩, alone, same⟩ := found
  obtain ⟨rfl, leftIs⟩ := Prod.mk.inj same
  have leftAlone : left = [c] :=
    List.append_cancel_right (leftIs.trans rfl : left ++ rest = [c] ++ rest)
  have again := name?_stops _ other stops
  rw [alone, leftAlone] at again
  simpa using again

theorem argumentKey_stops (front rest : Text) (stops : ∃ c ∈ front, isNameChar c = false) :
    argumentKey (front ++ rest) = ((argumentKey front).1, (argumentKey front).2 ++ rest) := by
  unfold argumentKey
  rw [name?_stops front rest stops]
  cases named : name? front with
  | none => rfl
  | some found =>
    obtain ⟨name, left⟩ := found
    cases left with
    | nil =>
      have left := Text.dropWhile_ne_nil isNameChar front stops
      unfold name? at named
      split at named
      · simp only [Option.some.injEq, Prod.mk.injEq] at named
        exact absurd named.2 left
      · cases named
    | cons c more =>
      by_cases equals : c = '='
      · subst equals
        rfl
      · simp only [Option.map_some, List.cons_append]
        split
        · rename_i same
          simp only [Option.some.injEq, Prod.mk.injEq, List.cons.injEq] at same
          exact absurd same.2.1 equals
        · split
          · rename_i same
            simp only [Option.some.injEq, Prod.mk.injEq, List.cons.injEq] at same
            exact absurd same.2.1 equals
          · rfl

/-! ## Calls -/

/-- Whether a text goes on after an argument: a comma or the closing parenthesis is next. -/
def FollowsArgument (text : Text) : Prop :=
  ∃ c rest, Text.skipGap text = c :: rest ∧ (c = ',' ∨ c = ')')

theorem FollowsArgument.head (text : Text) (follows : FollowsArgument text) :
    ∃ c rest, text = c :: rest ∧ (Text.isGap c = true ∨ c = ',' ∨ c = ')') := by
  obtain ⟨c, rest, skipped, mark⟩ := follows
  cases text with
  | nil => cases skipped
  | cons d more =>
    refine ⟨d, more, rfl, ?_⟩
    cases isGap : Text.isGap d with
    | true => exact Or.inl rfl
    | false =>
      rw [Text.skipGap_cons d more isGap] at skipped
      obtain ⟨rfl, -⟩ := List.cons.inj skipped
      exact Or.inr mark

theorem bareLiteral_gap (raw other : Text) (ends : Text.dropEndWhile Text.isGap raw = raw) :
    bareLiteral (Text.skipGap other) (raw ++ other) = (.bare raw, other) := by
  have whole : raw ++ other = (raw ++ Text.gap other) ++ Text.skipGap other := by
    rw [List.append_assoc, Text.gap_append_skipGap]
  have sameRaw : Text.dropEndWhile Text.isGap (Text.before (Text.skipGap other) (raw ++ other)) =
      raw := by
    rw [whole, Text.before_append_right, Text.dropEndWhile_append_of_pos, ends]
    exact Text.gap_of_mem_gap other
  simp only [bareLiteral, sameRaw, List.drop_left]

theorem bareArgument_front (text : Text) (literal : Literal) (rest : Text)
    (found : bareArgument text = some (literal, rest)) :
    literal.raw ≠ [] ∧ (∀ c ∈ literal.raw, endsArgument c = false) ∧
      ∀ other, FollowsArgument other →
        bareArgument (literal.raw ++ other) = some (literal, other) := by
  simp only [bareArgument] at found
  split at found
  · cases found
  · rename_i filled
    cases found
    have front : Text.before (text.dropWhile (!endsArgument ·)) text =
        text.takeWhile (!endsArgument ·) := by
      have split := Text.before_append_right (text.takeWhile (!endsArgument ·))
        (text.dropWhile (!endsArgument ·))
      rwa [List.takeWhile_append_dropWhile] at split
    simp only [bareLiteral, front, Literal.bare] at filled ⊢
    have inside : ∀ c ∈ Text.dropEndWhile Text.isGap (text.takeWhile (!endsArgument ·)),
        endsArgument c = false := by
      intro c member
      have taken := List.mem_takeWhile_imp ((Text.dropEndWhile_prefix _ _).subset member)
      simpa using taken
    refine ⟨filled, inside, fun other follows => ?_⟩
    have ends := Text.dropEndWhile_dropEndWhile Text.isGap (text.takeWhile (!endsArgument ·))
    generalize Text.dropEndWhile Text.isGap (text.takeWhile (!endsArgument ·)) = raw at *
    obtain ⟨c, more, skipped, mark⟩ := follows
    have stop : (raw ++ other).dropWhile (!endsArgument ·) = Text.skipGap other := by
      rw [List.dropWhile_append_of_pos (by simpa using inside), ← Text.gap_append_skipGap other,
        List.dropWhile_append_of_pos, Text.skipGap_gap_append, Text.skipGap_skipGap, skipped]
      · rcases mark with rfl | rfl <;> rfl
      · intro d member
        have isGap := Text.gap_of_mem_gap other d member
        simp only [Text.isGap, Bool.or_eq_true, beq_iff_eq] at isGap
        rcases isGap with rfl | rfl <;> rfl
    simp only [bareArgument, stop, bareLiteral_gap raw other ends]
    rw [if_neg]
    · rfl
    · exact filled

theorem call_bare (fuel : Nat) (raw other : Text) (inside : ∀ c ∈ raw, endsArgument c = false)
    (follows : FollowsArgument other) : call fuel (raw ++ other) = none := by
  obtain ⟨c, more, rfl, stop⟩ := follows.head
  have notName : isNameChar c = false := by
    rcases stop with isGap | rfl | rfl
    · simp only [Text.isGap, Bool.or_eq_true, beq_iff_eq] at isGap
      rcases isGap with rfl | rfl <;> rfl
    · rfl
    · rfl
  have notOpen : c ≠ '(' := by
    rintro rfl
    rcases stop with isGap | same | same
    · cases isGap
    · cases same
    · cases same
  cases fuel with
  | zero => rfl
  | succ fuel =>
    simp only [call]
    split
    · rename_i name rest named
      have whole := name?_append _ name ('(' :: rest) named
      unfold name? at named
      split at named
      · simp only [Option.some.injEq, Prod.mk.injEq] at named
        rw [List.dropWhile_append] at named
        split at named
        · have dropped := named.2
          rw [List.dropWhile_cons_of_neg (by simp [notName])] at dropped
          exact absurd (List.cons.inj dropped).1 notOpen
        · rename_i some
          cases left : raw.dropWhile isNameChar with
          | nil => simp [left] at some
          | cons d after =>
            rw [left] at named
            obtain ⟨rfl, -⟩ := List.cons.inj named.2
            have member : '(' ∈ raw :=
              (List.dropWhile_suffix isNameChar).subset (left ▸ List.mem_cons_self)
            exact absurd (inside '(' member) (by decide)
      · cases named
    · rfl

theorem call_of_arguments (fuel : Nat) (name inside rest : Text) (args : Args)
    (named : name? (name ++ '(' :: (inside ++ ')' :: rest)) =
      some (name, '(' :: (inside ++ ')' :: rest)))
    (read : arguments fuel (inside ++ ')' :: rest) = some (args, rest)) :
    call (fuel + 1) (name ++ '(' :: (inside ++ ')' :: rest)) =
      some (.call name args (some ('(' :: (inside ++ [')'])))
        (some (name ++ '(' :: (inside ++ [')']))), rest) := by
  have list : Text.before rest ('(' :: (inside ++ ')' :: rest)) = '(' :: (inside ++ [')']) := by
    have front := Text.before_append_right ('(' :: (inside ++ [')'])) rest
    simpa using front
  have whole : Text.before rest (name ++ '(' :: (inside ++ ')' :: rest)) =
      name ++ '(' :: (inside ++ [')']) := by
    have front := Text.before_append_right (name ++ '(' :: (inside ++ [')'])) rest
    simpa using front
  simp only [call, named, read, list, whole]

theorem arguments_of_more (fuel : Nat) (text inside rest : Text) (args : Args)
    (bare : Text.skipGap (inside ++ ')' :: rest) = inside ++ ')' :: rest)
    (filled : ∀ more, inside ++ ')' :: rest ≠ ')' :: more)
    (read : moreArguments fuel (inside ++ ')' :: rest) = some (args, rest)) :
    arguments (fuel + 1) (Text.gap text ++ (inside ++ ')' :: rest)) = some (args, rest) := by
  simp only [arguments, Text.skipGap_gap_append, bare]
  exact read

theorem argumentKey_front (text label body rest : Text) (whole : label ++ (body ++ rest) = text)
    (left : (argumentKey text).2 = body ++ rest) (stops : ∃ c ∈ body, isNameChar c = false)
    (other : Text) :
    argumentKey (label ++ (body ++ other)) = ((argumentKey text).1, body ++ other) := by
  have stopsAll : ∃ c ∈ label ++ body, isNameChar c = false := by
    obtain ⟨c, member, notName⟩ := stops
    exact ⟨c, List.mem_append_right label member, notName⟩
  have before := argumentKey_stops (label ++ body) rest stopsAll
  have after := argumentKey_stops (label ++ body) other stopsAll
  rw [List.append_assoc, whole] at before
  rw [before] at left
  rw [List.append_assoc, List.append_cancel_right left] at after
  rw [after, before]

mutual

theorem call_front :
    ∀ (fuel : Nat) (text : Text) (term : Term) (rest : Text),
      call fuel text = some (term, rest) →
        (∃ front, term.render = front ++ [')']) ∧
          ∀ enough, 4 * term.render.length ≤ enough → ∀ other,
            call enough (term.render ++ other) = some (term, other)
  | 0, text, term, rest, found => by
    simp only [call] at found
    cases found
  | fuel + 1, text, term, rest, found => by
    have opened := found
    simp only [call] at opened
    split at opened
    · rename_i name afterName named
      split at opened
      · rename_i args after inner
        cases opened
        obtain ⟨inside, rfl, reads⟩ := arguments_front fuel afterName args rest inner
        have whole := name?_append text name _ named
        have again := call_of_arguments fuel name inside rest args (whole.symm ▸ named) inner
        rw [whole, found, Option.some.injEq, Prod.mk.injEq] at again
        rw [again.1]
        simp only [Term.render, Option.getD_some]
        refine ⟨⟨name ++ '(' :: inside, by simp⟩, fun enough long other => ?_⟩
        obtain ⟨more, rfl⟩ : ∃ more, enough = more + 1 := ⟨enough - 1, by simp at long; omega⟩
        have read := reads more (by simp at long; omega) other
        have result := call_of_arguments more name inside other args
          (name?_front text name '(' _ named _) read
        simpa using result
      · cases opened
    · cases opened

theorem arguments_front :
    ∀ (fuel : Nat) (text : Text) (args : Args) (rest : Text),
      arguments fuel text = some (args, rest) →
        ∃ inner, text = inner ++ ')' :: rest ∧
          ∀ enough, 4 * inner.length + 7 ≤ enough → ∀ other,
            arguments enough (inner ++ ')' :: other) = some (args, other)
  | 0, text, args, rest, found => by
    simp only [arguments] at found
    cases found
  | fuel + 1, text, args, rest, found => by
    have gap := Text.gap_append_skipGap text
    simp only [arguments] at found
    split at found
    · rename_i after closing
      cases found
      rw [closing] at gap
      refine ⟨Text.gap text, gap.symm, fun enough long other => ?_⟩
      obtain ⟨more, rfl⟩ : ∃ more, enough = more + 1 := ⟨enough - 1, by omega⟩
      simp only [arguments, Text.skipGap_gap_append, Text.skipGap_cons ')' other rfl]
    · rename_i open_
      obtain ⟨inner, isInner, reads⟩ := moreArguments_front fuel _ args rest found
      have bare := Text.skipGap_skipGap text
      rw [isInner] at bare gap open_
      refine ⟨Text.gap text ++ inner, by rw [List.append_assoc, gap], fun enough long other => ?_⟩
      rw [List.length_append] at long
      obtain ⟨more, rfl⟩ : ∃ more, enough = more + 1 := ⟨enough - 1, by omega⟩
      have read := reads more (by omega) other
      rw [List.append_assoc]
      refine arguments_of_more more text inner other args ?_ ?_ read
      · exact Text.skipGap_front inner ')' rest other rfl bare
      · intro beyond same
        cases inner with
        | nil => exact open_ rest rfl
        | cons c inner =>
          obtain ⟨rfl, -⟩ := List.cons.inj same
          exact open_ (inner ++ ')' :: rest) rfl

theorem moreArguments_front :
    ∀ (fuel : Nat) (text : Text) (args : Args) (rest : Text),
      moreArguments fuel text = some (args, rest) →
        ∃ inner, text = inner ++ ')' :: rest ∧
          ∀ enough, 4 * inner.length + 6 ≤ enough → ∀ other,
            moreArguments enough (inner ++ ')' :: other) = some (args, other)
  | 0, text, args, rest, found => by
    simp only [moreArguments] at found
    cases found
  | fuel + 1, text, args, rest, found => by
    obtain ⟨label, isLabel⟩ := argumentKey_suffix text
    simp only [moreArguments] at found
    split at found
    · cases found
    · rename_i value after first
      have isBody := argument_append fuel _ value after first
      obtain ⟨-, reads⟩ := argument_front fuel _ value after first
      obtain ⟨gap, afterIs, skips⟩ := Text.skipGap_split after
      split at found
      · rename_i beyond comma
        rw [comma] at afterIs
        split at found
        · rename_i more final others
          cases found
          obtain ⟨inner, isInner, readsMore⟩ := moreArguments_front fuel _ more rest others
          obtain ⟨space, beyondIs, skipsSpace⟩ := Text.skipGap_split beyond
          have bare := Text.skipGap_skipGap beyond
          rw [isInner] at beyondIs bare
          subst beyondIs
          subst afterIs
          have left : (argumentKey text).2 =
              (value.render ++ (gap ++ ',' :: (space ++ (inner ++ [')'])))) ++ rest := by
            rw [← isBody]
            simp
          refine ⟨label ++ (value.render ++ (gap ++ ',' :: (space ++ inner))), ?_,
            fun enough long other => ?_⟩
          · rw [← isLabel, left]
            simp
          · simp only [List.length_append, List.length_cons] at long
            obtain ⟨k, rfl⟩ : ∃ k, enough = k + 1 := ⟨enough - 1, by omega⟩
            have key := argumentKey_front text label _ rest (by rw [← left, isLabel]) left
              ⟨',', by simp, rfl⟩ other
            have follows : Text.skipGap (gap ++ ',' :: (space ++ (inner ++ ')' :: other))) =
                ',' :: (space ++ (inner ++ ')' :: other)) := by
              rw [skips, Text.skipGap_cons ',' _ rfl]
            have readFirst := reads k (by omega) _ ⟨',', _, follows, Or.inl rfl⟩
            have readRest := readsMore k (by omega) other
            have isRest := Text.skipGap_front inner ')' rest other rfl bare
            simp only [List.append_assoc, List.cons_append, List.nil_append] at key ⊢
            simp only [moreArguments, key, readFirst, follows, skipsSpace, isRest, readRest]
        · cases found
      · rename_i beyond closing
        cases found
        rw [closing] at afterIs
        subst afterIs
        have left : (argumentKey text).2 = (value.render ++ (gap ++ [')'])) ++ rest := by
          rw [← isBody]
          simp
        refine ⟨label ++ (value.render ++ gap), ?_, fun enough long other => ?_⟩
        · rw [← isLabel, left]
          simp
        · simp only [List.length_append] at long
          obtain ⟨k, rfl⟩ : ∃ k, enough = k + 1 := ⟨enough - 1, by omega⟩
          have key := argumentKey_front text label _ rest (by rw [← left, isLabel]) left
            ⟨')', by simp, rfl⟩ other
          have follows : Text.skipGap (gap ++ ')' :: other) = ')' :: other := by
            rw [skips, Text.skipGap_cons ')' _ rfl]
          have readFirst := reads k (by omega) _ ⟨')', _, follows, Or.inr rfl⟩
          simp only [List.append_assoc, List.cons_append, List.nil_append] at key ⊢
          simp only [moreArguments, key, readFirst, follows]
      · cases found

theorem argument_front :
    ∀ (fuel : Nat) (text : Text) (value : Term) (rest : Text),
      argument fuel text = some (value, rest) →
        value.render ≠ [] ∧
          ∀ enough, 4 * value.render.length + 1 ≤ enough → ∀ other, FollowsArgument other →
            argument enough (value.render ++ other) = some (value, other)
  | 0, text, value, rest, found => by
    simp only [argument] at found
    cases found
  | fuel + 1, text, value, rest, found => by
    have written := argument_append (fuel + 1) text value rest found
    simp only [argument] at found
    have sameHead : value.render ≠ [] → ∀ other, (value.render ++ other).head? = text.head? := by
      intro filled other
      rw [← written, List.head?_append_of_ne_nil _ filled, List.head?_append_of_ne_nil _ filled]
    suffices read : value.render ≠ [] ∧ ∀ k, 4 * value.render.length ≤ k → ∀ other,
        FollowsArgument other → argument (k + 1) (value.render ++ other) = some (value, other) by
      refine ⟨read.1, fun enough long other follows => ?_⟩
      obtain ⟨k, rfl⟩ : ∃ k, enough = k + 1 := ⟨enough - 1, by omega⟩
      exact read.2 k (by omega) other follows
    split at found
    · rename_i quote opens
      obtain ⟨⟨literal, after⟩, quoted, same⟩ := Option.map_eq_some_iff.mp found
      cases same
      simp only [Term.render] at sameHead ⊢
      obtain ⟨rawHead, reads⟩ := quotedLiteral_front quote text literal _ quoted
      have filled : literal.raw ≠ [] := by
        intro none
        rw [none] at rawHead
        rw [← rawHead] at opens
        cases opens
      refine ⟨filled, fun k _ other _ => ?_⟩
      simp only [argument, sameHead filled other, opens, reads other, Option.map_some]
    · rename_i unquoted
      split at found
      · rename_i inner called
        cases found
        obtain ⟨⟨front, closes⟩, reads⟩ := call_front fuel text value rest called
        have filled : value.render ≠ [] := by
          rw [closes]
          simp
        refine ⟨filled, fun k long other _ => ?_⟩
        simp only [argument, sameHead filled other, unquoted, reads k long other]
      · obtain ⟨⟨literal, after⟩, bare, same⟩ := Option.map_eq_some_iff.mp found
        cases same
        simp only [Term.render] at sameHead ⊢
        obtain ⟨filled, inside, reads⟩ := bareArgument_front text literal _ bare
        refine ⟨filled, fun k _ other follows => ?_⟩
        simp only [argument, sameHead filled other, unquoted,
          call_bare k literal.raw other inside follows, reads other follows, Option.map_some]

end

theorem call?_front (text : Text) (term : Term) (rest : Text)
    (found : call? text = some (term, rest)) (other : Text) :
    call? (term.render ++ other) = some (term, other) := by
  refine (call_front _ text term rest found).2 _ ?_ other
  rw [fuelFor, List.length_append]
  omega

theorem call?_closes (text : Text) (term : Term) (rest : Text)
    (found : call? text = some (term, rest)) : ∃ front, term.render = front ++ [')'] :=
  (call_front _ text term rest found).1

/-! ## Heads -/

theorem dropStart?_stops (start front rest : Text) (stops : ∃ c ∈ front, c ∉ start) :
    Text.dropStart? start (front ++ rest) = (Text.dropStart? start front).map (· ++ rest) := by
  induction start generalizing front with
  | nil => rfl
  | cons d start ih =>
    obtain ⟨c, member, apart⟩ := stops
    cases front with
    | nil => cases member
    | cons e front =>
      simp only [List.cons_append, Text.dropStart?]
      split
      · rename_i same
        refine ih front ⟨c, ?_, fun inStart => apart (List.mem_cons_of_mem d inStart)⟩
        rcases List.mem_cons.mp member with rfl | member
        · exact absurd (same ▸ List.mem_cons_self) apart
        · exact member
      · rfl

theorem exportWord_stops (front rest : Text) (stops : '=' ∈ front) :
    exportWord (front ++ rest) = ((exportWord front).1, (exportWord front).2 ++ rest) := by
  unfold exportWord
  rw [dropStart?_stops _ front rest ⟨'=', stops, by decide⟩]
  cases dropped : Text.dropStart? "export".toList front with
  | none => rfl
  | some after =>
    have whole := dropStart?_append _ front after dropped
    have stopsAfter : ∃ c ∈ after, Text.isGap c = false := by
      refine ⟨'=', ?_, rfl⟩
      rw [← whole] at stops
      rcases List.mem_append.mp stops with inWord | inAfter
      · exact absurd inWord (by decide)
      · exact inAfter
    have gap : Text.gap (after ++ rest) = Text.gap after :=
      Text.takeWhile_stops _ after rest stopsAfter
    have skip : Text.skipGap (after ++ rest) = Text.skipGap after ++ rest :=
      Text.dropWhile_stops _ after rest stopsAfter
    have starts := startsName_append (Text.skipGap after) rest
      (Text.dropWhile_ne_nil _ after stopsAfter)
    simp only [Option.map_some, gap, skip, starts]
    split <;> rfl

theorem key_stops (front rest : Text) (stops : '=' ∈ front) : key (front ++ rest) = key front := by
  unfold key
  rw [startsName_append front rest (List.ne_nil_of_mem stops),
    Text.takeWhile_stops _ front rest ⟨'=', stops, by decide⟩]

theorem mem_skipGap (c : Char) (text : Text) (solid : Text.isGap c = false) (member : c ∈ text) :
    c ∈ Text.skipGap text := by
  rw [← Text.gap_append_skipGap text] at member
  rcases List.mem_append.mp member with inGap | inRest
  · rw [Text.gap_of_mem_gap text c inGap] at solid
    cases solid
  · exact inRest

theorem mem_exportWord (text : Text) (member : '=' ∈ text) : '=' ∈ (exportWord text).2 := by
  unfold exportWord
  split
  · rename_i after dropped
    split
    · rw [← dropStart?_append _ text after dropped] at member
      refine mem_skipGap '=' after rfl ?_
      rcases List.mem_append.mp member with inWord | inAfter
      · exact absurd inWord (by decide)
      · exact inAfter
    · exact member
  · exact member

theorem mem_afterKey (text : Text) (member : '=' ∈ text) : '=' ∈ text.drop (key text).length := by
  have whole := key_append text
  rw [← whole] at member
  rcases List.mem_append.mp member with inKey | inRest
  · unfold key at inKey
    split at inKey
    · exact absurd (List.mem_takeWhile_imp inKey) (by decide)
    · cases inKey
  · exact inRest

theorem head_stops (front rest : Text) (stops : '=' ∈ front) (head : Head) (left : Text) :
    Scan.head (front ++ rest) = .ok (head, left) ↔
      let found := exportWord (Text.skipGap front)
      let afterKey := found.2.drop (key found.2).length
      key found.2 ≠ [] ∧ ∃ after, Text.skipGap afterKey = '=' :: after ∧
        head = ⟨Text.gap front, found.1, key found.2, Text.gap afterKey, Text.gap (after ++ rest)⟩ ∧
          left = Text.skipGap (after ++ rest) := by
  dsimp only
  have inLine := mem_skipGap '=' front rfl stops
  have inKey := mem_exportWord _ inLine
  have inAfter := mem_afterKey _ inKey
  have indent : Text.gap (front ++ rest) = Text.gap front :=
    Text.takeWhile_stops _ front rest ⟨'=', stops, rfl⟩
  have fromLine : Text.skipGap (front ++ rest) = Text.skipGap front ++ rest :=
    Text.dropWhile_stops _ front rest ⟨'=', stops, rfl⟩
  have exported := exportWord_stops _ rest inLine
  generalize exportWord (Text.skipGap front) = found at *
  obtain ⟨word, fromKey⟩ := found
  have sameKey := key_stops fromKey rest inKey
  have dropped : (fromKey ++ rest).drop (key fromKey).length =
      fromKey.drop (key fromKey).length ++ rest := by
    refine List.drop_append_of_le_length ?_
    have whole := congrArg List.length (key_append fromKey)
    rw [List.length_append] at whole
    omega
  generalize fromKey.drop (key fromKey).length = afterKey at *
  have beforeEquals : Text.gap (afterKey ++ rest) = Text.gap afterKey :=
    Text.takeWhile_stops _ afterKey rest ⟨'=', inAfter, rfl⟩
  have fromEquals : Text.skipGap (afterKey ++ rest) = Text.skipGap afterKey ++ rest :=
    Text.dropWhile_stops _ afterKey rest ⟨'=', inAfter, rfl⟩
  have solid := Text.dropWhile_ne_nil Text.isGap afterKey ⟨'=', inAfter, rfl⟩
  simp only [Scan.head, indent, fromLine, exported, sameKey, dropped, beforeEquals, fromEquals]
  cases fromMark : Text.skipGap afterKey with
  | nil => exact absurd fromMark solid
  | cons c after =>
    by_cases unnamed : key fromKey = []
    · simp [unnamed]
    · by_cases isEquals : c = '='
      · subst isEquals
        rw [if_neg (by simp [unnamed])]
        simp only [List.cons_append, Except.ok.injEq, Prod.mk.injEq]
        constructor
        · rintro ⟨rfl, rfl⟩
          exact ⟨unnamed, after, rfl, rfl, rfl⟩
        · rintro ⟨-, other, same, rfl, rfl⟩
          obtain ⟨-, rfl⟩ := List.cons.inj same
          exact ⟨rfl, rfl⟩
      · constructor
        · intro success
          split at success
          · cases success
          · split at success
            · rename_i same
              exact absurd (List.cons.inj same).1 isEquals
            · cases success
        · rintro ⟨-, other, same, -⟩
          exact absurd (List.cons.inj same).1 isEquals

theorem head_front (line : Text) (head : Head) (rest : Text)
    (read : Scan.head line = .ok (head, rest)) (other : Text) :
    Scan.head (head.render ++ other) =
      .ok ({ head with afterEquals := head.afterEquals ++ Text.gap other },
        Text.skipGap other) := by
  rw [← head_append line head rest read] at read
  have stops : '=' ∈ head.render := by simp [Head.render]
  generalize head.render = front at read stops ⊢
  obtain ⟨named, after, found, rfl, left⟩ := (head_stops front rest stops head rest).mp read
  have isAfter : Text.gap (after ++ rest) = after := by
    have whole := Text.gap_append_skipGap (after ++ rest)
    rw [← left] at whole
    exact List.append_cancel_right whole
  have gapAfter := Text.gap_gap_append (after ++ rest) other
  have skipAfter := Text.skipGap_gap_append (after ++ rest) other
  rw [isAfter] at gapAfter skipAfter
  refine (head_stops front other stops _ _).mpr ⟨named, after, found, ?_, skipAfter.symm⟩
  rw [gapAfter, isAfter]

theorem head_solid (line : Text) (head : Head) (rest other : Text)
    (read : Scan.head line = .ok (head, rest)) (solid : Text.skipGap other = other) :
    Scan.head (head.render ++ other) = .ok (head, other) := by
  have again := head_front line head rest read other
  have noGap : Text.gap other = [] := by
    have whole := Text.gap_append_skipGap other
    rw [solid] at whole
    exact List.append_left_eq_self.mp whole
  rwa [solid, noGap, List.append_nil] at again

theorem not_isGap_of_isKeyChar (c : Char) (keyChar : isKeyChar c = true) :
    Text.isGap c = false := by
  cases isGap : Text.isGap c with
  | false => rfl
  | true =>
    simp only [Text.isGap, Bool.or_eq_true, beq_iff_eq] at isGap
    rcases isGap with rfl | rfl <;> cases keyChar

theorem not_isKeyChar_of_isGap (c : Char) (isGap : Text.isGap c = true) : isKeyChar c = false := by
  cases keyChar : isKeyChar c with
  | false => rfl
  | true =>
    rw [not_isGap_of_isKeyChar c keyChar] at isGap
    cases isGap

end Scan

end Dotenv
