import Dotenv.Proofs.Reading.Stable
/-!
# Seams

A value that was read at the end of its line is read again in front of a comment, unless the
comment is taken into it. That happens in two ways: a backslash at the end of a bare value
protects the `#` right behind it, or a bare value is the start of a call that a parenthesis of
the comment closes.
-/

set_option autoImplicit false

namespace Dotenv

theorem Text.dropEndWhile_cons (p : Char → Bool) (front back : Text) (c : Char)
    (kept : p c = false) :
    dropEndWhile p (front ++ c :: back) = front ++ c :: dropEndWhile p back := by
  unfold dropEndWhile
  rw [List.reverse_append, List.reverse_cons, List.append_assoc, List.dropWhile_append]
  split
  · rename_i none
    rw [List.isEmpty_iff] at none
    rw [List.singleton_append, List.dropWhile_cons_of_neg (by simp [kept]), none]
    simp
  · simp

namespace Scan

/-! ## The first hash -/

theorem toHash_head (text : Text) (c : Char) (rest : Text) (found : toHash text = c :: rest) :
    c = '#' := by
  fun_induction toHash text with
  | case1 => cases found
  | case2 more ih => exact ih found
  | case3 more => exact (List.cons.inj found).1.symm
  | case4 d more _ _ ih => exact ih found

theorem toHash_of_not_mem (text : Text) (none : '#' ∉ text) : toHash text = [] := by
  cases found : toHash text with
  | nil => rfl
  | cons c rest =>
    have member : c ∈ text := (toHash_suffix text).subset (found ▸ List.mem_cons_self)
    rw [toHash_head text c rest found] at member
    exact absurd member none

theorem toHash_cons (c : Char) (rest : Text) (plain : c ≠ '#')
    (apart : ¬ (c = '\\' ∧ rest.head? = some '#')) : toHash (c :: rest) = toHash rest := by
  rw [toHash]
  · rintro more rfl rfl
    exact apart ⟨rfl, rfl⟩
  · exact plain

/-- Behind a text without a hash of its own the first hash is that of what follows, unless a
backslash at the end of the text protects it. -/
theorem toHash_append (front rest : Text) (none : toHash front = [])
    (apart : ¬ (front.getLast? = some '\\' ∧ rest.head? = some '#')) :
    toHash (front ++ rest) = toHash rest := by
  fun_induction toHash front with
  | case1 => rfl
  | case2 more ih =>
    simp only [List.cons_append, toHash]
    refine ih none ?_
    rintro ⟨last, hash⟩
    refine apart ⟨?_, hash⟩
    rw [List.getLast?_cons_cons, List.getLast?_cons, last]
    rfl
  | case3 more => cases none
  | case4 c more plain notHash ih =>
    cases more with
    | nil =>
      rw [List.singleton_append]
      refine toHash_cons c rest notHash fun glued => apart ⟨?_, glued.2⟩
      rw [glued.1]
      rfl
    | cons d more =>
      rw [List.cons_append]
      rw [toHash_cons c _ notHash]
      · refine ih none fun glued => apart ⟨?_, glued.2⟩
        rw [List.getLast?_cons_cons]
        exact glued.1
      · rintro ⟨rfl, hash⟩
        simp only [List.cons_append, List.head?_cons, Option.some.injEq] at hash
        exact plain more rfl (by rw [hash])

theorem toHash_glued (front rest : Text) (none : toHash front = [])
    (slash : front.getLast? = some '\\') : toHash (front ++ '#' :: rest) = toHash rest := by
  fun_induction toHash front with
  | case1 => cases slash
  | case2 more ih =>
    simp only [List.cons_append, toHash]
    refine ih none ?_
    cases more with
    | nil => cases slash
    | cons d more => simpa [List.getLast?_cons_cons] using slash
  | case3 more => cases none
  | case4 c more plain notHash ih =>
    cases more with
    | nil =>
      simp only [List.getLast?_singleton, Option.some.injEq] at slash
      subst slash
      rfl
    | cons d more =>
      rw [List.cons_append, toHash_cons c _ notHash]
      · refine ih none ?_
        rwa [List.getLast?_cons_cons] at slash
      · rintro ⟨rfl, hash⟩
        simp only [List.cons_append, List.head?_cons, Option.some.injEq] at hash
        exact plain more rfl (by rw [hash])

theorem toHash_front (front rest : Text) (some : toHash front ≠ []) :
    toHash (front ++ rest) = toHash front ++ rest := by
  fun_induction toHash front with
  | case1 => exact absurd rfl some
  | case2 more ih => exact ih some
  | case3 more => rfl
  | case4 c more plain notHash ih =>
    rw [List.cons_append, toHash_cons c _ notHash]
    · exact ih some
    · rintro ⟨rfl, hash⟩
      cases more with
      | nil => exact some rfl
      | cons d more =>
        simp only [List.cons_append, List.head?_cons, Option.some.injEq] at hash
        exact plain more rfl (by rw [hash])

/-! ## Bare values -/

/-- Whether a value may end in front of a text: only a gap is left, or a comment is next. -/
def EndsValue (text : Text) : Prop :=
  Text.skipGap text = [] ∨ ∃ comment, Text.skipGap text = '#' :: comment

def Swallows (value after : Text) : Prop :=
  (value.getLast? = some '\\' ∧ after.head? = some '#') ∨
    ∃ call rest, call? (value ++ after) = some (call, rest) ∧ rest.length < after.length ∧
      EndsValue rest

theorem EndsValue.toHash {text : Text} (ends : EndsValue text) :
    Scan.toHash text = Text.skipGap text := by
  have noHash : ∀ c ∈ Text.gap text, c ≠ '#' ∧ c ≠ '\\' := by
    intro c member
    have isGap := Text.gap_of_mem_gap text c member
    simp only [Text.isGap, Bool.or_eq_true, beq_iff_eq] at isGap
    rcases isGap with rfl | rfl <;> decide
  have gapOnly : Scan.toHash (Text.gap text) = [] :=
    toHash_of_not_mem _ fun member => (noHash '#' member).1 rfl
  have passed := toHash_append (Text.gap text) (Text.skipGap text) gapOnly fun glued =>
    (noHash '\\' (List.mem_of_getLast? glued.1)).2 rfl
  rw [Text.gap_append_skipGap] at passed
  rw [passed]
  rcases ends with none | ⟨comment, some⟩
  · rw [none]
    rfl
  · rw [some]
    rfl

theorem EndsValue.swap (front : Text) {tail other : Text} (ends : EndsValue (front ++ other))
    (gap : Text.skipGap tail = []) : EndsValue (front ++ tail) := by
  cases left : Text.skipGap front with
  | nil =>
    left
    have whole := Text.gap_append_skipGap front
    rw [left, List.append_nil] at whole
    rw [← whole, Text.skipGap_gap_append, gap]
  | cons c rest =>
    have same : ∀ z, Text.skipGap (front ++ z) = c :: (rest ++ z) := by
      intro z
      rw [← Text.gap_append_skipGap front, List.append_assoc, Text.skipGap_gap_append, left]
      exact Text.skipGap_cons c _ (Text.solid_of_skipGap front c rest left)
    rcases ends with none | ⟨comment, hash⟩
    · rw [same] at none
      cases none
    · rw [same] at hash
      obtain ⟨rfl, -⟩ := List.cons.inj hash
      exact Or.inr ⟨rest ++ tail, same tail⟩

theorem EndsValue.append {front back : Text} (ends : EndsValue front) (endsBack : EndsValue back) :
    EndsValue (front ++ back) := by
  have whole := Text.gap_append_skipGap front
  rcases ends with none | ⟨comment, hash⟩
  · rw [none, List.append_nil] at whole
    rw [EndsValue, ← whole, Text.skipGap_gap_append]
    exact endsBack
  · rw [hash] at whole
    refine Or.inr ⟨comment ++ back, ?_⟩
    rw [← whole, List.append_assoc, Text.skipGap_gap_append, List.cons_append]
    exact Text.skipGap_cons '#' _ rfl

theorem bareValue_call (text : Text) (value : Term) (rest : Text)
    (found : call? text = some (value, rest)) (ends : EndsValue rest) :
    bareValue text = (value, rest) := by
  simp only [bareValue, found]
  rcases ends with none | ⟨comment, hash⟩
  · rw [none]
  · rw [hash]
    rfl

theorem bareValue_literal (text : Text)
    (noCall : ∀ value rest, call? text = some (value, rest) → ¬ EndsValue rest) :
    bareValue text =
      (.literal (bareLiteral (toHash text) text).1, (bareLiteral (toHash text) text).2) := by
  simp only [bareValue]
  split
  · rename_i value rest found
    have goesOn := noCall value rest found
    split
    · rename_i none
      exact absurd (Or.inl none) goesOn
    · rename_i c more next
      rw [if_neg]
      rintro rfl
      exact goesOn (Or.inr ⟨more, next⟩)
  · rfl

theorem hash_mem_of_closes (value after front more rest : Text) (isFront : after = more ++ rest)
    (ends : EndsValue after) (closes : value ++ more = front ++ [')']) (filled : more ≠ []) :
    '#' ∈ more := by
  have last : ')' ∈ more := by
    rw [← List.dropLast_append_getLast filled, ← List.append_assoc] at closes
    have same := (List.append_inj' closes rfl).2
    rw [List.singleton_inj] at same
    rw [← same]
    exact List.getLast_mem filled
  have solid : ')' ∉ Text.gap after := fun member =>
    absurd (Text.gap_of_mem_gap after ')' member) (by decide)
  have whole := Text.gap_append_skipGap after
  rcases ends with none | ⟨comment, hash⟩
  · rw [none, List.append_nil] at whole
    rw [whole, isFront] at solid
    exact absurd (List.mem_append_left rest last) solid
  · rw [hash, isFront] at whole
    rcases List.append_eq_append_iff.mp whole with ⟨inner, isMore, comment⟩ | ⟨inner, isGap, -⟩
    · cases inner with
      | nil =>
        rw [List.append_nil] at isMore
        rw [← isFront] at isMore
        rw [isMore] at last
        exact absurd last solid
      | cons c inner =>
        obtain ⟨rfl, -⟩ := List.cons.inj comment
        rw [isMore]
        simp
    · rw [← isFront] at isGap
      rw [isGap] at solid
      exact absurd (List.mem_append_left inner last) solid

theorem bareLiteral_parts (text : Text) (literal : Literal) (tail : Text)
    (read : bareLiteral (toHash text) text = (literal, tail)) :
    literal = .bare literal.raw ∧ toHash literal.raw = [] ∧
      Text.dropEndWhile Text.isGap literal.raw = literal.raw := by
  have whole := bareLiteral_append (toHash text) text
  rw [read] at whole
  dsimp only at whole
  have raw : literal.raw = Text.dropEndWhile Text.isGap (Text.before (toHash text) text) :=
    congrArg Literal.raw (Prod.mk.inj read).1.symm
  have isBare : literal = .bare literal.raw := by
    rw [raw]
    exact (Prod.mk.inj read).1.symm
  have short : literal.raw.length ≤ (Text.before (toHash text) text).length := by
    rw [raw]
    exact (Text.dropEndWhile_prefix _ _).length_le
  refine ⟨isBare, ?_, by rw [raw, Text.dropEndWhile_dropEndWhile]⟩
  by_contra hash
  have later := toHash_front _ tail hash
  rw [whole] at later
  have laterLength := congrArg List.length later
  have wholeLength := congrArg List.length whole
  have hashLength := List.length_pos_iff.mpr hash
  have inside := (toHash_suffix literal.raw).length_le
  rw [List.length_append] at laterLength wholeLength
  rw [Text.before, List.length_take] at short
  omega

theorem bareValue_alone (text : Text) (value : Term) (after : Text)
    (read : bareValue text = (value, after)) (ends : EndsValue after) :
    bareValue value.render = (value, []) := by
  have whole := bareValue_append text
  rw [read] at whole
  have endsNil : EndsValue [] := Or.inl rfl
  by_cases isCall : ∃ call rest, call? text = some (call, rest) ∧ EndsValue rest
  · obtain ⟨call, rest, found, endsCall⟩ := isCall
    rw [bareValue_call text call rest found endsCall] at read
    cases read
    have again := call?_front text value after found []
    rw [List.append_nil] at again
    exact bareValue_call _ value [] again endsNil
  · have noCall : ∀ call rest, call? text = some (call, rest) → ¬ EndsValue rest :=
      fun call rest found endsCall => isCall ⟨call, rest, found, endsCall⟩
    rw [bareValue_literal text noCall] at read
    obtain ⟨rfl, left⟩ := Prod.mk.inj read
    obtain ⟨isBare, noHash, trimmed⟩ := bareLiteral_parts text _ after (Prod.ext rfl left)
    simp only [Term.render] at whole ⊢
    have stillNoCall : ∀ call rest,
        call? (bareLiteral (toHash text) text).1.raw = some (call, rest) → ¬ EndsValue rest := by
      intro call rest found endsCall
      have written := call_append _ _ call rest found
      have later := call?_front _ call rest found (rest ++ after)
      rw [← List.append_assoc, written, whole] at later
      exact noCall call _ later (endsCall.append ends)
    have alone := bareLiteral_gap _ [] trimmed
    rw [List.append_nil] at alone
    rw [bareValue_literal _ stillNoCall, noHash]
    exact congrArg (fun found => (Term.literal found.1, found.2)) (alone.trans (by rw [← isBare]))

/-- The calls that end a value on its own and in front of other text are the same, but for
those that reach into that text. -/
theorem bareValue_noCall (text raw tail other : Text) (whole : raw ++ tail = text)
    (gap : Text.skipGap tail = [])
    (noCall : ∀ value rest, call? text = some (value, rest) → ¬ EndsValue rest)
    (value : Term) (rest : Text) (found : call? (raw ++ other) = some (value, rest))
    (ends : EndsValue rest) :
    rest.length < other.length ∧ ∃ more, value.render = raw ++ more ∧ other = more ++ rest := by
  have written : value.render ++ rest = raw ++ other := call_append _ _ value rest found
  rcases List.append_eq_append_iff.mp written with ⟨inner, isRaw, isRest⟩ | ⟨more, isValue, isOther⟩
  · exfalso
    have alone := call?_front _ value rest found (inner ++ tail)
    rw [← List.append_assoc, ← isRaw, whole] at alone
    rw [isRest] at ends
    exact noCall value _ alone (ends.swap inner gap)
  · refine ⟨?_, more, isValue, isOther⟩
    have filled : more ≠ [] := by
      rintro rfl
      rw [List.append_nil] at isValue
      rw [List.nil_append] at isOther
      have alone := call?_front _ value rest found tail
      rw [isValue, whole] at alone
      exact noCall value tail alone (Or.inl gap)
    rw [isOther, List.length_append]
    have positive := List.length_pos_iff.mpr filled
    omega

/-- A value without quotes that ends its line is read again in front of a comment that it
does not take in. -/
theorem bareValue_again (text : Text) (value : Term) (tail other : Text)
    (read : bareValue text = (value, tail)) (gap : Text.skipGap tail = []) (ends : EndsValue other)
    (kept : ¬ Swallows value.render other) :
    bareValue (value.render ++ other) = (value, other) := by
  have whole := bareValue_append text
  rw [read] at whole
  by_cases isCall : ∃ call rest, call? text = some (call, rest) ∧ EndsValue rest
  · obtain ⟨call, rest, found, endsCall⟩ := isCall
    rw [bareValue_call text call rest found endsCall] at read
    obtain ⟨rfl, rfl⟩ := Prod.mk.inj read
    exact bareValue_call _ call other (call?_front text call rest found other) ends
  · have noCall : ∀ call rest, call? text = some (call, rest) → ¬ EndsValue rest :=
      fun call rest found endsCall => isCall ⟨call, rest, found, endsCall⟩
    rw [bareValue_literal text noCall] at read
    obtain ⟨rfl, left⟩ := Prod.mk.inj read
    obtain ⟨isBare, noHash, trimmed⟩ := bareLiteral_parts text _ tail (Prod.ext rfl left)
    simp only [Term.render] at whole kept ⊢
    have stillNoCall : ∀ call rest,
        call? ((bareLiteral (toHash text) text).1.raw ++ other) = some (call, rest) →
          ¬ EndsValue rest := by
      intro call rest found endsCall
      have reaches := bareValue_noCall text _ tail other whole gap noCall call rest found endsCall
      exact kept (Or.inr ⟨call, rest, found, reaches.1, endsCall⟩)
    have hash := toHash_append _ other noHash fun glued => kept (Or.inl glued)
    rw [bareValue_literal _ stillNoCall, hash, ends.toHash, bareLiteral_gap _ other trimmed,
      ← isBare]

theorem bareValue_swallowed (text : Text) (value : Term) (tail other : Text)
    (read : bareValue text = (value, tail)) (gap : Text.skipGap tail = []) (ends : EndsValue other)
    (swallows : Swallows value.render other) :
    ∃ longer more rest, bareValue (value.render ++ other) = (longer, rest) ∧
      longer.render = value.render ++ more ∧ '#' ∈ more := by
  have whole := bareValue_append text
  rw [read] at whole
  by_cases isCall : ∃ call rest, call? text = some (call, rest) ∧ EndsValue rest
  · exfalso
    obtain ⟨call, rest, found, endsCall⟩ := isCall
    rw [bareValue_call text call rest found endsCall] at read
    obtain ⟨rfl, rfl⟩ := Prod.mk.inj read
    rcases swallows with ⟨slash, -⟩ | ⟨again, left, found', short, -⟩
    · obtain ⟨front, closes⟩ := call?_closes text call rest found
      rw [closes, List.getLast?_concat] at slash
      cases slash
    · rw [call?_front text call rest found other] at found'
      obtain ⟨-, rfl⟩ := Prod.mk.inj (Option.some.inj found')
      exact Nat.lt_irrefl _ short
  · have noCall : ∀ call rest, call? text = some (call, rest) → ¬ EndsValue rest :=
      fun call rest found endsCall => isCall ⟨call, rest, found, endsCall⟩
    by_cases nowCall : ∃ call rest,
        call? (value.render ++ other) = some (call, rest) ∧ EndsValue rest
    · obtain ⟨call, rest, found, endsCall⟩ := nowCall
      obtain ⟨short, more, isValue, isOther⟩ :=
        bareValue_noCall text _ tail other whole gap noCall call rest found endsCall
      obtain ⟨front, closes⟩ := call?_closes _ call rest found
      refine ⟨call, more, rest, bareValue_call _ call rest found endsCall, isValue, ?_⟩
      refine hash_mem_of_closes value.render other front more rest isOther ends ?_ ?_
      · rw [← isValue, closes]
      · rintro rfl
        rw [isOther] at short
        exact Nat.lt_irrefl _ short
    · have stillNoCall : ∀ call rest,
          call? (value.render ++ other) = some (call, rest) → ¬ EndsValue rest :=
        fun call rest found endsCall => nowCall ⟨call, rest, found, endsCall⟩
      rcases swallows with ⟨slash, hash⟩ | ⟨call, rest, found, -, endsCall⟩
      · obtain ⟨comment, rfl⟩ := List.head?_eq_some_iff.mp hash
        rw [bareValue_literal text noCall] at read
        obtain ⟨rfl, left⟩ := Prod.mk.inj read
        obtain ⟨-, noHash, -⟩ := bareLiteral_parts text _ tail (Prod.ext rfl left)
        simp only [Term.render] at slash stillNoCall ⊢
        generalize (bareLiteral (toHash text) text).1.raw = raw at *
        obtain ⟨inner, isComment⟩ := toHash_suffix comment
        have front : Text.before (toHash comment) (raw ++ '#' :: comment) =
            raw ++ '#' :: inner := by
          have split := Text.before_append_right (raw ++ '#' :: inner) (toHash comment)
          rwa [List.append_assoc, List.cons_append, isComment] at split
        refine ⟨_, '#' :: Text.dropEndWhile Text.isGap inner, _,
          bareValue_literal _ stillNoCall, ?_, List.mem_cons_self⟩
        rw [toHash_glued raw comment noHash slash]
        simp only [Term.render, bareLiteral, front, Literal.bare]
        exact Text.dropEndWhile_cons _ raw inner '#' rfl
      · exact absurd endsCall (stillNoCall call rest found)

/-! ## Values -/

theorem EndsValue.head {text : Text} (ends : EndsValue text) (c : Char)
    (first : text.head? = some c) : Text.isGap c = true ∨ c = '#' := by
  obtain ⟨rest, rfl⟩ := List.head?_eq_some_iff.mp first
  cases isGap : Text.isGap c with
  | true => exact Or.inl rfl
  | false =>
    rcases ends with none | ⟨comment, hash⟩
    · rw [Text.skipGap_cons c rest isGap] at none
      cases none
    · rw [Text.skipGap_cons c rest isGap] at hash
      exact Or.inr (List.cons.inj hash).1

theorem blockQuote?_again (value tail other : Text) (ends : EndsValue other)
    (none : blockQuote? (value ++ tail) = none) : blockQuote? (value ++ other) = .none := by
  have kept : ∀ quote : Quote, quote = .tripleDouble ∨ quote = .tripleBacktick →
      Text.dropStart? quote.delimiter (value ++ tail) = .none →
        Text.dropStart? quote.delimiter (value ++ other) = .none := by
    intro quote triple absent
    refine dropStart?_none _ value tail other absent fun _ c first => ?_
    rcases ends.head c first with isGap | rfl
    · simp only [Text.isGap, Bool.or_eq_true, beq_iff_eq] at isGap
      rcases triple with rfl | rfl <;> rcases isGap with rfl | rfl <;> decide
    · rcases triple with rfl | rfl <;> decide
  unfold blockQuote? at none ⊢
  split at none
  · cases none
  · split at none
    · cases none
    · rename_i noDouble noBacktick
      rw [Option.not_isSome_iff_eq_none] at noDouble noBacktick
      rw [kept .tripleDouble (Or.inl rfl) noDouble, kept .tripleBacktick (Or.inr rfl) noBacktick]
      rfl

theorem closeQuote_closes (mark : Char) (text rest : Text)
    (closed : closeQuote mark text = some rest) : ∃ front, text = front ++ mark :: rest := by
  fun_induction closeQuote mark text with
  | case1 => cases closed
  | case2 more ih =>
    obtain ⟨front, rfl⟩ := ih closed
    exact ⟨'\\' :: mark :: front, rfl⟩
  | case3 c more differs ih =>
    obtain ⟨front, whole⟩ := ih closed
    exact ⟨'\\' :: front, by rw [whole]; rfl⟩
  | case4 more other =>
    cases closed
    exact ⟨[], rfl⟩
  | case5 c more other differs ih =>
    obtain ⟨front, rfl⟩ := ih closed
    exact ⟨c :: front, rfl⟩

theorem call?_of_noName (text : Text) (noName : startsName text = false) : call? text = none := by
  have unnamed : name? text = none := by
    rw [name?, noName]
    rfl
  simp only [call?, fuelFor, call, unnamed]

theorem ofMark?_mark (c : Char) (quote : Quote) (opens : Quote.ofMark? c = some quote) :
    quote.mark = c ∧ quote.isTriple = false := by
  unfold Quote.ofMark? at opens
  split at opens
  · rename_i same
    cases opens
    exact ⟨same.symm, rfl⟩
  · split at opens
    · rename_i same
      cases opens
      exact ⟨same.symm, rfl⟩
    · split at opens
      · rename_i same
        cases opens
        exact ⟨same.symm, rfl⟩
      · cases opens

theorem quotedLiteral_raw (quote : Quote) (c : Char) (text : Text) (literal : Literal) (rest : Text)
    (found : quotedLiteral quote (c :: text) = some (literal, rest)) :
    ∃ inner, literal = ⟨c :: inner ++ [quote.mark], some quote⟩ := by
  simp only [quotedLiteral, List.drop_one, List.tail_cons, Option.map_eq_some_iff] at found
  obtain ⟨after, closed, same⟩ := found
  obtain ⟨inner, rfl⟩ := closeQuote_closes _ _ _ closed
  cases same
  have split := Text.before_append_right (c :: inner ++ [quote.mark]) rest
  rw [List.append_assoc, List.singleton_append, List.cons_append] at split
  exact ⟨inner, by rw [split]⟩

theorem quotedLiteral_keeps (quote : Quote) (c : Char) (opens : Quote.ofMark? c = some quote)
    (text : Text) (literal : Literal) (rest : Text)
    (found : quotedLiteral quote (c :: text) = some (literal, rest)) (other : Text) :
    ¬ Swallows literal.raw other := by
  obtain ⟨inner, rfl⟩ := quotedLiteral_raw quote c text literal rest found
  obtain ⟨rfl, -⟩ := ofMark?_mark c quote opens
  rintro (⟨slash, -⟩ | ⟨call, left, isCall, -⟩)
  · rw [List.getLast?_concat, Option.some.injEq] at slash
    exact quote.mark_ne_slash slash
  · have noName : startsName (quote.mark :: inner ++ [quote.mark] ++ other) = false := by
      cases quote <;> rfl
    rw [call?_of_noName _ noName] at isCall
    cases isCall

theorem beginning_eq_value (text : Text) (value : Term) (rest : Text) :
    beginning text = .ok (.whole (some value) rest) ↔
      ∃ c more, text = c :: more ∧ c ≠ '#' ∧ blockQuote? text = none ∧
        ((∃ quote literal, Quote.ofMark? c = some quote ∧
            quotedLiteral quote text = some (literal, rest) ∧ value = .literal literal) ∨
          (Quote.ofMark? c = none ∧ bareValue text = (value, rest))) := by
  cases text with
  | nil => simp [beginning]
  | cons c more =>
    simp only [beginning]
    by_cases hash : c = '#'
    · subst hash
      simp
    · rw [if_neg hash]
      cases block : blockQuote? (c :: more) with
      | some quote =>
        simp only
        constructor
        · intro read
          split at read <;> cases read
        · rintro ⟨_, _, _, _, none, _⟩
          cases none
      | none =>
        simp only
        cases mark : Quote.ofMark? c with
        | some quote =>
          simp only
          constructor
          · intro read
            split at read
            · rename_i literal after quoted
              cases read
              exact ⟨c, more, rfl, hash, trivial, Or.inl ⟨quote, literal, mark, quoted, rfl⟩⟩
            · cases read
          · rintro ⟨d, other, same, -, -, ⟨quote', literal, mark', quoted, rfl⟩ | ⟨unquoted, -⟩⟩
            · obtain ⟨rfl, rfl⟩ := List.cons.inj same
              rw [mark] at mark'
              cases mark'
              rw [quoted]
            · obtain ⟨rfl, rfl⟩ := List.cons.inj same
              rw [mark] at unquoted
              cases unquoted
        | none =>
          simp only [Except.ok.injEq, Beginning.whole.injEq, Option.some.injEq]
          constructor
          · rintro ⟨rfl, rfl⟩
            exact ⟨c, more, rfl, hash, trivial, Or.inr ⟨mark, rfl⟩⟩
          · rintro ⟨d, other, same, -, -, ⟨quote', literal, mark', -⟩ | ⟨-, bare⟩⟩
            · obtain ⟨rfl, rfl⟩ := List.cons.inj same
              rw [mark] at mark'
              cases mark'
            · rw [bare]
              exact ⟨rfl, rfl⟩

theorem value_head (text : Text) (value : Term) (tail : Text)
    (read : beginning text = .ok (.whole (some value) tail)) (solid : Text.skipGap text = text)
    (ends : EndsValue tail) :
    ∃ c rest, value.render = c :: rest ∧ text = c :: (rest ++ tail) ∧ Text.isGap c = false := by
  have whole := beginning_append text (some value) tail read
  simp only [Option.map_some, Option.getD_some] at whole
  obtain ⟨c, more, rfl, notHash, -⟩ := (beginning_eq_value text value tail).mp read
  have notGap := Text.solid_of_skipGap _ c more solid
  cases written : value.render with
  | nil =>
    rw [written, List.nil_append] at whole
    rcases ends.head c (by rw [whole]; rfl) with isGap | isHash
    · rw [notGap] at isGap
      cases isGap
    · exact absurd isHash notHash
  | cons d rest =>
    rw [written, List.cons_append] at whole
    obtain ⟨rfl, -⟩ := List.cons.inj whole
    exact ⟨d, rest, rfl, whole.symm, notGap⟩

theorem beginning_alone (text : Text) (value : Term) (after : Text)
    (read : beginning text = .ok (.whole (some value) after)) (solid : Text.skipGap text = text)
    (ends : EndsValue after) : beginning value.render = .ok (.whole (some value) []) := by
  have whole := beginning_append text (some value) after read
  simp only [Option.map_some, Option.getD_some] at whole
  obtain ⟨c, rest, written, isText, -⟩ := value_head text value after read solid ends
  obtain ⟨d, more, same, notHash, block, shape⟩ := (beginning_eq_value text value after).mp read
  obtain ⟨rfl, -⟩ := List.cons.inj (same.symm.trans isText)
  rw [← whole] at block
  have noBlock := blockQuote?_again _ after [] (Or.inl rfl) block
  rw [List.append_nil] at noBlock
  refine (beginning_eq_value _ value []).mpr ⟨d, rest, written, notHash, noBlock, ?_⟩
  rcases shape with ⟨quote, literal, mark, quoted, rfl⟩ | ⟨unquoted, bare⟩
  · have again := (quotedLiteral_front quote text literal after quoted).2 []
    rw [List.append_nil] at again
    exact Or.inl ⟨quote, literal, mark, by rwa [Term.render], rfl⟩
  · exact Or.inr ⟨unquoted, bareValue_alone text value after bare ends⟩

theorem beginning_again (text : Text) (value : Term) (tail other : Text)
    (read : beginning text = .ok (.whole (some value) tail)) (solid : Text.skipGap text = text)
    (gap : Text.skipGap tail = []) (ends : EndsValue other)
    (kept : ¬ Swallows value.render other) :
    beginning (value.render ++ other) = .ok (.whole (some value) other) := by
  have whole := beginning_append text (some value) tail read
  simp only [Option.map_some, Option.getD_some] at whole
  obtain ⟨c, rest, written, isText, -⟩ := value_head text value tail read solid (Or.inl gap)
  obtain ⟨d, more, same, notHash, block, shape⟩ := (beginning_eq_value text value tail).mp read
  obtain ⟨rfl, -⟩ := List.cons.inj (same.symm.trans isText)
  rw [← whole] at block
  refine (beginning_eq_value _ value other).mpr
    ⟨d, rest ++ other, by rw [written]; rfl, notHash,
      blockQuote?_again _ tail other ends block, ?_⟩
  rcases shape with ⟨quote, literal, mark, quoted, rfl⟩ | ⟨unquoted, bare⟩
  · refine Or.inl ⟨quote, literal, mark, ?_, rfl⟩
    simp only [Term.render]
    exact (quotedLiteral_front quote text literal tail quoted).2 other
  · exact Or.inr ⟨unquoted, bareValue_again text value tail other bare gap ends kept⟩

theorem beginning_swallowed (text : Text) (value : Term) (tail other : Text)
    (read : beginning text = .ok (.whole (some value) tail)) (solid : Text.skipGap text = text)
    (gap : Text.skipGap tail = []) (ends : EndsValue other)
    (swallows : Swallows value.render other) :
    ∃ longer more rest, beginning (value.render ++ other) = .ok (.whole (some longer) rest) ∧
      longer.render = value.render ++ more ∧ '#' ∈ more := by
  have whole := beginning_append text (some value) tail read
  simp only [Option.map_some, Option.getD_some] at whole
  obtain ⟨c, rest, written, isText, -⟩ := value_head text value tail read solid (Or.inl gap)
  obtain ⟨d, more, same, notHash, block, shape⟩ := (beginning_eq_value text value tail).mp read
  obtain ⟨rfl, -⟩ := List.cons.inj (same.symm.trans isText)
  rw [← whole] at block
  rcases shape with ⟨quote, literal, mark, quoted, rfl⟩ | ⟨unquoted, bare⟩
  · rw [same] at quoted
    simp only [Term.render] at swallows
    exact absurd swallows (quotedLiteral_keeps quote d mark more literal tail quoted other)
  · obtain ⟨longer, inside, left, found, isLonger, hash⟩ :=
      bareValue_swallowed text value tail other bare gap ends swallows
    refine ⟨longer, inside, left, ?_, isLonger, hash⟩
    exact (beginning_eq_value _ longer left).mpr
      ⟨d, rest ++ other, by rw [written]; rfl, notHash,
        blockQuote?_again _ tail other ends block, Or.inr ⟨unquoted, found⟩⟩

end Scan

end Dotenv
