import Dotenv.Proofs.Reading.Alone
/-!
# Literals in quotes, read again

A literal that is built for a text has a backslash before every mark of its quotes and leaves the
other backslashes as they are. What closes quotes passes over such a text, so the literal ends where
it was made to end. The exception is a backslash at the end of the text: on one line it stands right
before the closing mark and protects it.
-/

set_option autoImplicit false

namespace Dotenv

namespace Text

theorem escape_append (mark : Char) (front back : Text) :
    escape mark (front ++ back) = escape mark front ++ escape mark back :=
  List.flatMap_append

theorem mem_escape (mark c : Char) (text : Text) (member : c ∈ escape mark text) :
    c = '\\' ∨ c ∈ text := by
  obtain ⟨d, inText, isPart⟩ := List.mem_flatMap.mp member
  split at isPart
  · rename_i isMark
    subst isMark
    rcases List.mem_cons.mp isPart with slash | isMark
    · exact .inl slash
    · exact .inr (List.mem_singleton.mp isMark ▸ inText)
  · exact .inr (List.mem_singleton.mp isPart ▸ inText)

/-- What passes over a mark behind a backslash, and over any character that is no mark and protects
none, passes over an escaped text. -/
theorem escape_passed {α : Type} {mark : Char} (slashless : mark ≠ '\\') (scan : Text → α)
    (escaped : ∀ rest, scan ('\\' :: mark :: rest) = scan rest)
    (plain : ∀ c rest, c ≠ mark → ¬ (c = '\\' ∧ rest.head? = some mark) →
      scan (c :: rest) = scan rest)
    (text tail : Text) (apart : ¬ (text.getLast? = some '\\' ∧ tail.head? = some mark)) :
    scan (escape mark text ++ tail) = scan tail := by
  induction text with
  | nil => rfl
  | cons c rest ih =>
    have passed := ih fun glued => apart ⟨by rw [List.getLast?_cons, glued.1]; rfl, glued.2⟩
    rw [escape_cons]
    split
    · exact (escaped _).trans passed
    · rename_i differs
      rw [List.singleton_append, List.cons_append]
      refine (plain c _ differs ?_).trans passed
      rintro ⟨rfl, next⟩
      cases rest with
      | nil => exact apart ⟨rfl, next⟩
      | cons d more =>
        rw [List.head?_append_of_ne_nil _ (escape_ne_nil mark d more)] at next
        exact head?_escape mark slashless _ next

theorem closed_map_escape (mark : Char) (notNewline : mark ≠ '\n') (lines : List Text) :
    closed (lines.map (escape mark)) = escape mark (closed lines) := by
  induction lines with
  | nil => rfl
  | cons line more ih =>
    have newline : escape mark ('\n' :: closed more) = '\n' :: escape mark (closed more) := by
      rw [escape_cons, if_neg notNewline.symm, List.singleton_append]
    rw [List.map_cons, closed_cons, closed_cons, escape_append, newline, ih]

end Text

namespace Scan

/-! ## What closes quotes -/

section
variable {mark : Char} (slashless : mark ≠ '\\') {c : Char} {rest : Text} (differs : c ≠ mark)
  (apart : ¬ (c = '\\' ∧ rest.head? = some mark))

include differs apart in
theorem closeQuote_plain : closeQuote mark (c :: rest) = closeQuote mark rest := by
  by_cases slash : c = '\\'
  · subst slash
    cases rest with
    | nil => simp [closeQuote, differs]
    | cons d more =>
      have notMark : d ≠ mark := fun same => apart ⟨rfl, congrArg some same⟩
      simp only [closeQuote, if_neg notMark]
  · rw [closeQuote_cons mark c rest slash, if_neg differs]

include differs apart in
theorem closeBlock_plain : closeBlock mark (c :: rest) = closeBlock mark rest := by
  by_cases slash : c = '\\'
  · subst slash
    cases rest with
    | nil => simp [closeBlock, Text.dropStart?, differs.symm]
    | cons d more =>
      have notMark : d ≠ mark := fun same => apart ⟨rfl, congrArg some same⟩
      simp only [closeBlock, if_neg notMark]
  · have kept : Text.dropStart? [mark, mark, mark] (c :: rest) = none := by
      rw [Text.dropStart?, if_neg differs.symm]
    rw [closeBlock_cons mark c rest slash, kept]

end

theorem closeQuote_escape {mark : Char} (slashless : mark ≠ '\\') (text tail : Text)
    (apart : ¬ (text.getLast? = some '\\' ∧ tail.head? = some mark)) :
    closeQuote mark (Text.escape mark text ++ tail) = closeQuote mark tail :=
  Text.escape_passed slashless (closeQuote mark) (fun rest => by rw [closeQuote, if_pos rfl])
    (fun _ _ => closeQuote_plain) text tail apart

theorem closeBlock_escape {mark : Char} (slashless : mark ≠ '\\') (text : Text) :
    closeBlock mark (Text.escape mark text) = none := by
  have passed := Text.escape_passed slashless (closeBlock mark)
    (fun rest => by rw [closeBlock, if_pos rfl]) (fun _ _ => closeBlock_plain) text []
    fun glued => nomatch glued.2
  rwa [List.append_nil] at passed

theorem closeQuote_eq_some_iff {mark : Char} (slashless : mark ≠ '\\') (text rest : Text) :
    closeQuote mark text = some rest ↔
      ∃ body, body.getLast? ≠ some '\\' ∧ text = Text.escape mark body ++ mark :: rest := by
  constructor
  · intro closed
    -- A mark that the scan passes stands behind a backslash, which the body leaves out.
    fun_induction closeQuote mark text with
    | case1 => cases closed
    | case2 more ih =>
      obtain ⟨body, last, rfl⟩ := ih closed
      refine ⟨mark :: body, ?_, by rw [Text.escape_cons, if_pos rfl]; rfl⟩
      cases body with
      | nil => simpa using slashless
      | cons d body => rwa [List.getLast?_cons_cons]
    | case3 c more differs ih =>
      obtain ⟨body, last, whole⟩ := ih closed
      -- The backslash protects nothing and stays in the body, so the body must go on behind it.
      cases body with
      | nil => exact absurd (List.cons.inj whole).1 differs
      | cons d body =>
        refine ⟨'\\' :: d :: body, by rwa [List.getLast?_cons_cons], ?_⟩
        rw [Text.escape_cons, if_neg slashless.symm, whole]
        rfl
    | case4 more other =>
      cases closed
      exact ⟨[], by simp, rfl⟩
    | case5 c more other differs ih =>
      obtain ⟨body, last, rfl⟩ := ih closed
      refine ⟨c :: body, ?_, by rw [Text.escape_cons, if_neg differs]; rfl⟩
      cases body with
      | nil =>
        rintro same
        exact other mark rest (Option.some.inj same) rfl
      | cons d body => rwa [List.getLast?_cons_cons]
  · rintro ⟨body, last, rfl⟩
    rw [closeQuote_escape slashless body _ fun glued => last glued.1,
      closeQuote_cons mark mark rest slashless, if_pos rfl]

/-! ## Quotes on one line -/

section
variable {quote : Quote} (single : quote.isTriple = false) (text : Text)

include single in
theorem raw_quoted : (Literal.quoted text quote).raw =
    quote.mark :: (Text.escape quote.mark text ++ [quote.mark]) := by
  simp [Literal.quoted, Quote.delimiter, single]

include single in
theorem quotedLiteral_eq_some_iff (literal : Literal) (rest : Text)
    (opens : text.head? = some quote.mark) :
    quotedLiteral quote text = some (literal, rest) ↔
      ∃ body, body.getLast? ≠ some '\\' ∧ literal = .quoted body quote ∧
        text = literal.raw ++ rest := by
  obtain ⟨more, rfl⟩ := List.head?_eq_some_iff.mp opens
  have split : ∀ body after : Text, (Literal.quoted body quote).raw ++ after =
      quote.mark :: (Text.escape quote.mark body ++ quote.mark :: after) := by
    intro body after
    rw [raw_quoted single body]
    simp
  simp only [quotedLiteral, Option.map_eq_some_iff, Prod.mk.injEq, List.drop_one, List.tail_cons,
    closeQuote_eq_some_iff quote.mark_ne_slash]
  constructor
  · rintro ⟨after, ⟨body, last, rfl⟩, rfl, rfl⟩
    have raw := Text.before_append_right (Literal.quoted body quote).raw after
    rw [split] at raw
    exact ⟨body, last, by rw [raw]; rfl, by rw [raw, split]⟩
  · rintro ⟨body, last, rfl, whole⟩
    have raw := Text.before_append_right (Literal.quoted body quote).raw rest
    rw [← whole] at raw
    rw [split] at whole
    exact ⟨rest, ⟨body, last, (List.cons.inj whole).2⟩, by rw [raw]; rfl, rfl⟩

include single in
theorem quotedLiteral_quoted (last : text.getLast? ≠ some '\\') :
    quotedLiteral quote (Literal.quoted text quote).raw = some (.quoted text quote, []) := by
  refine (quotedLiteral_eq_some_iff single _ _ _ ?_).mpr ⟨text, last, rfl, by simp⟩
  rw [raw_quoted single]
  rfl

include single in
theorem quotedLiteral_slash (last : text.getLast? = some '\\') :
    quotedLiteral quote (Literal.quoted text quote).raw = none := by
  obtain ⟨front, rfl⟩ := List.getLast?_eq_some_iff.mp last
  -- The closing mark is taken for one more mark of the text, and nothing stands behind it.
  have glued : Text.escape quote.mark (front ++ ['\\']) ++ [quote.mark] =
      Text.escape quote.mark (front ++ [quote.mark]) := by
    have slash : Text.escape quote.mark ['\\'] = ['\\'] := by
      rw [Text.escape_cons, if_neg quote.mark_ne_slash.symm]
      rfl
    have mark : Text.escape quote.mark [quote.mark] = ['\\', quote.mark] := by
      rw [Text.escape_cons, if_pos rfl]
      rfl
    rw [Text.escape_append, Text.escape_append, slash, mark, List.append_assoc]
    rfl
  have unclosed := closeQuote_escape quote.mark_ne_slash (front ++ [quote.mark]) []
    fun both => nomatch both.2
  rw [List.append_nil] at unclosed
  rw [raw_quoted single, glued, quotedLiteral, List.drop_one, List.tail_cons, unclosed]
  rfl

include single in
theorem blockQuote?_quoted : blockQuote? (Literal.quoted text quote).raw = none := by
  have noBlock : ∀ mark : Char,
      Text.dropStart? [mark, mark, mark] (Literal.quoted text quote).raw = none := by
    intro mark
    cases dropped : Text.dropStart? [mark, mark, mark] (Literal.quoted text quote).raw with
    | none => rfl
    | some after =>
      have whole := dropStart?_append _ _ after dropped
      rw [raw_quoted single] at whole
      obtain ⟨rfl, inner⟩ := List.cons.inj whole
      cases text with
      | nil => cases inner
      | cons c rest =>
        have first := congrArg List.head? inner
        rw [List.head?_append_of_ne_nil _ (Text.escape_ne_nil _ c rest)] at first
        exact absurd first.symm (Text.head?_escape _ quote.mark_ne_slash _)
  have noDouble := noBlock '"'
  have noBacktick := noBlock '`'
  rw [blockQuote?, show Quote.tripleDouble.delimiter = ['"', '"', '"'] from rfl,
    show Quote.tripleBacktick.delimiter = ['`', '`', '`'] from rfl, noDouble, noBacktick]
  rfl

include single in
theorem beginning_quoted : beginning (Literal.quoted text quote).raw =
    match quotedLiteral quote (Literal.quoted text quote).raw with
    | some (literal, rest) => .ok (.whole (some (.literal literal)) rest)
    | none => .error ⟨.unterminated quote, (Literal.quoted text quote).raw,
        (Literal.quoted text quote).raw.drop 1⟩ := by
  have noBlock := blockQuote?_quoted single text
  have notHash : quote.mark ≠ '#' := by cases quote <;> decide
  have opens : Quote.ofMark? quote.mark = some quote := by
    cases quote <;> first | rfl | cases single
  rw [raw_quoted single] at noBlock ⊢
  simp only [beginning, if_neg notHash, noBlock, opens]
  cases quotedLiteral quote (quote.mark :: (Text.escape quote.mark text ++ [quote.mark])) <;> rfl

end

end Scan

/-! ## Quotes over several lines -/

def Quote.blockLines (quote : Quote) (text : Text) : List Text :=
  (Text.lines (text ++ ['\n'])).map (Text.escape quote.mark)

namespace Literal

theorem closed_blockLines (quote : Quote) (text : Text) :
    Text.closed (quote.blockLines text) = Text.escape quote.mark text ++ ['\n'] := by
  have notNewline := quote.mark_ne_newline
  have whole : Text.closed (Text.lines (text ++ ['\n'])) = text ++ ['\n'] := by
    rw [Text.closed_lines, if_pos (.inr (by simp [Text.endsWithNewline])), List.append_nil]
  rw [Quote.blockLines, Text.closed_map_escape _ notNewline, whole, Text.escape_append,
    Text.escape_cons, if_neg notNewline.symm]
  rfl

theorem areLines_blockLines (quote : Quote) (text : Text) :
    Text.AreLines (quote.blockLines text) := by
  intro line member newline
  obtain ⟨written, inLines, rfl⟩ := List.mem_map.mp member
  rcases Text.mem_escape _ _ _ newline with slash | inText
  · cases slash
  · exact Text.areLines_lines _ written inLines inText

section
variable {quote : Quote} (triple : quote.isTriple = true) (text : Text)

include triple in
theorem closed_quoted :
    Text.closed (quote.delimiter :: (quote.blockLines text ++ [quote.delimiter])) =
      (quoted text quote).raw ++ ['\n'] := by
  rw [Text.closed_cons, Text.closed_append, closed_blockLines, Text.closed_singleton]
  simp [quoted, triple]

theorem areLines_quoted :
    Text.AreLines (quote.delimiter :: (quote.blockLines text ++ [quote.delimiter])) := by
  have isLine : '\n' ∉ quote.delimiter := by cases quote <;> decide
  refine (Text.areLines_cons _ _).mpr ⟨isLine, (areLines_blockLines quote text).append ?_⟩
  intro line member
  rwa [List.mem_singleton.mp member]

include triple in
theorem reads_quoted : ReadsValue quote.delimiter (quote.blockLines text ++ [quote.delimiter])
    (some (.literal (quoted text quote))) [] := by
  have opens : Scan.beginning quote.delimiter = .ok (.opened quote) := by
    cases quote <;> first | rfl | cases triple
  have closes : Scan.closeBlock quote.mark quote.delimiter = some [] := by
    cases quote <;> first | rfl | cases triple
  have inside : ∀ line ∈ quote.blockLines text, Scan.closeBlock quote.mark line = none := by
    intro line member
    obtain ⟨written, -, rfl⟩ := List.mem_map.mp member
    exact Scan.closeBlock_escape quote.mark_ne_slash written
  have written := closed_quoted triple text
  rw [← List.cons_append, Text.closed_append, Text.closed_singleton, Text.closed_flatMap] at written
  have raw : quote.delimiter ++ (quote.blockLines text).flatMap ('\n' :: ·) ++
      '\n' :: Text.before [] quote.delimiter = (quoted text quote).raw := by
    have last : Text.before [] quote.delimiter = quote.delimiter := by simp [Text.before]
    rw [last]
    refine (List.append_left_inj ['\n']).mp ?_
    rw [← written]
    simp
  have read := ReadsValue.block opens inside closes
  rw [raw] at read
  exact read

end

/-! ## Documents -/

def ReadsBack (bare : Bool) (key text : Text) (quote : Quote) : Prop :=
  ∃ document literal, Document.read ⟨false, bare⟩ (key ++ '=' :: (quoted text quote).raw) =
    .ok document ∧ document.Defines key (.literal literal) ∧ literal.quote = some quote ∧
      literal.content = text

section
variable (bare : Bool) {key text : Text} (isKey : Scan.IsKey key) {quote : Quote}

include isKey in
theorem readsBack_block (plain : '\r' ∉ text) (triple : quote.isTriple = true) :
    ReadsBack bare key text quote := by
  have unix : Text.unixLines (quoted text quote).raw = (quoted text quote).raw := by
    refine (Text.unixLines_eq_self_iff _).mpr fun found => ?_
    have member : '\r' ∈ (quoted text quote).raw := found.subset (by simp)
    have noReturn : '\r' ∉ quote.delimiter := by cases quote <;> decide
    simp only [quoted, triple, if_true, List.mem_append, noReturn, false_or, or_false] at member
    rcases member with (newline | escaped) | newline
    · simp at newline
    · rcases Text.mem_escape _ _ _ escaped with slash | inText
      · cases slash
      · exact plain inText
    · simp at newline
  have solid : Text.skipGap quote.delimiter = quote.delimiter := by cases quote <;> rfl
  obtain ⟨document, isRead, defines⟩ := (reads_quoted triple text).alone bare isKey
    (areLines_quoted text) solid (closed_quoted triple text) unix
  exact ⟨document, _, isRead, defines, rfl, content_quoted text quote⟩

variable (oneLine : '\n' ∉ text) (single : quote.isTriple = false)

include oneLine single in
theorem not_newline_quoted : '\n' ∉ (quoted text quote).raw := by
  have notNewline := quote.mark_ne_newline
  have inside : '\n' ∉ Text.escape quote.mark text := by
    intro member
    rcases Text.mem_escape _ _ _ member with slash | inText
    · cases slash
    · exact oneLine inText
  rw [Scan.raw_quoted single]
  simp [notNewline.symm, inside]

include single in
theorem skipGap_quoted : Text.skipGap (quoted text quote).raw = (quoted text quote).raw := by
  rw [Scan.raw_quoted single]
  exact Text.skipGap_cons _ _ (by cases quote <;> rfl)

include isKey oneLine single in
theorem readsBack_line (last : text.getLast? ≠ some '\\') : ReadsBack bare key text quote := by
  have begins := Scan.beginning_quoted single text
  rw [Scan.quotedLiteral_quoted single text last] at begins
  obtain ⟨document, isRead, defines⟩ := Scan.beginning_defines bare isKey begins
    (not_newline_quoted oneLine single) (skipGap_quoted single)
  exact ⟨document, _, isRead, defines, rfl, content_quoted text quote⟩

include isKey oneLine single in
theorem read_quoted_slash (last : text.getLast? = some '\\') :
    Document.read ⟨false, bare⟩ (key ++ '=' :: (quoted text quote).raw) =
      .error ⟨.unterminated quote, ⟨Text.width key + 1, Text.width key + 2⟩⟩ := by
  have begins := Scan.beginning_quoted single text
  rw [Scan.quotedLiteral_slash single text last] at begins
  rw [Scan.beginning_refused bare isKey begins (not_newline_quoted oneLine single)
    (skipGap_quoted single), LineFault.inText, Text.width_append, Text.width_cons]
  have size : quote.mark.utf8Size = 1 ∧ '='.utf8Size = 1 := by cases quote <;> decide
  have whole : Text.width (quoted text quote).raw =
      1 + Text.width ((quoted text quote).raw.drop 1) := by
    rw [Scan.raw_quoted single, Text.width_cons, size.1]
    rfl
  rw [size.2, whole]
  have start : Text.width key + (1 + (1 + Text.width ((quoted text quote).raw.drop 1))) -
      (1 + Text.width ((quoted text quote).raw.drop 1)) = Text.width key + 1 := by omega
  have stop : Text.width key + (1 + (1 + Text.width ((quoted text quote).raw.drop 1))) -
      Text.width ((quoted text quote).raw.drop 1) = Text.width key + 2 := by omega
  rw [start, stop]

end

/-- A text in quotes is read back unless it ends in a backslash in quotes on one line: then the
opening quote is reported as one that is not closed. -/
theorem quoted_readsBack_iff (bare : Bool) {key text : Text} (isKey : Scan.IsKey key)
    (quote : Quote) (plain : '\r' ∉ text) (oneLine : quote.isTriple = false → '\n' ∉ text) :
    (ReadsBack bare key text quote ↔ quote.isTriple = true ∨ text.getLast? ≠ some '\\') ∧
      (quote.isTriple = false → text.getLast? = some '\\' →
        Document.read ⟨false, bare⟩ (key ++ '=' :: (quoted text quote).raw) =
          .error ⟨.unterminated quote, ⟨Text.width key + 1, Text.width key + 2⟩⟩) := by
  have refused : quote.isTriple = false → text.getLast? = some '\\' →
      Document.read ⟨false, bare⟩ (key ++ '=' :: (quoted text quote).raw) =
        .error ⟨.unterminated quote, ⟨Text.width key + 1, Text.width key + 2⟩⟩ :=
    fun single last => read_quoted_slash bare isKey (oneLine single) single last
  refine ⟨⟨?_, ?_⟩, refused⟩
  · rintro ⟨document, literal, isRead, -⟩
    by_contra lost
    rw [not_or, Bool.not_eq_true, not_not] at lost
    rw [refused lost.1 lost.2] at isRead
    cases isRead
  · intro kept
    cases triple : quote.isTriple with
    | true => exact readsBack_block bare isKey plain triple
    | false =>
      rw [triple] at kept
      exact readsBack_line bare isKey (oneLine triple) triple (by simpa using kept)

/-- A text with a mark behind a backslash and a backslash at its end: it is lost in double quotes
and read back in three of them. -/
theorem quoted_readsBack_iff_slash :
    let key := "K".toList
    let text := "a\\\"b\\".toList
    Scan.IsKey key ∧ '\r' ∉ text ∧ '\n' ∉ text ∧ ReadsBack true key text .tripleDouble ∧
      ¬ ReadsBack true key text .double ∧
      Document.read ⟨false, true⟩ (key ++ '=' :: (quoted text .double).raw) =
        .error ⟨.unterminated .double, ⟨2, 3⟩⟩ := by
  intro key text
  have isKey : Scan.IsKey key := ⟨rfl, rfl⟩
  have plain : '\r' ∉ text := by decide
  have isLine : '\n' ∉ text := by decide
  have last : text.getLast? = some '\\' := rfl
  have block := quoted_readsBack_iff true isKey .tripleDouble plain fun _ => isLine
  have line := quoted_readsBack_iff true isKey .double plain fun _ => isLine
  refine ⟨isKey, plain, isLine, block.1.mpr (.inl rfl), fun reads => ?_, line.2 rfl last⟩
  rcases line.1.mp reads with triple | kept
  · cases triple
  · exact kept last

end Literal

end Dotenv
