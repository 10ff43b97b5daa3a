import Dotenv.Text.Basic
/-!
# Lines

A text and its lines. Lines that are closed by newlines and put together are the text again,
but for a newline at its end.
-/

set_option autoImplicit false

namespace Dotenv

def Text.closed (lines : List Text) : Text := lines.flatMap (· ++ ['\n'])

namespace Text

theorem closed_nil : closed [] = [] := rfl

theorem closed_cons (line : Text) (more : List Text) :
    closed (line :: more) = line ++ '\n' :: closed more := by
  simp only [closed, List.flatMap_cons, List.append_assoc, List.singleton_append]

theorem closed_singleton (line : Text) : closed [line] = line ++ ['\n'] := by
  simp only [closed, List.flatMap_cons, List.flatMap_nil, List.append_nil]

theorem closed_append (lines more : List Text) :
    closed (lines ++ more) = closed lines ++ closed more :=
  List.flatMap_append

theorem closed_flatMap (line : Text) (more : List Text) :
    closed (line :: more) = line ++ more.flatMap ('\n' :: ·) ++ ['\n'] := by
  induction more generalizing line with
  | nil => rw [closed_singleton, List.flatMap_nil, List.append_nil]
  | cons next rest ih =>
    rw [closed_cons, ih next, List.flatMap_cons]
    simp only [List.append_assoc, List.cons_append]

theorem closed_join (line : Text) (more : List Text) :
    join ['\n'] (line :: more) ++ ['\n'] = closed (line :: more) := by
  induction more generalizing line with
  | nil => simp only [join, closed_cons, closed_nil]
  | cons next rest ih =>
    rw [closed_cons, ← ih next]
    simp only [join, List.append_assoc, List.cons_append, List.nil_append]

theorem closed_lines (text : Text) :
    closed (lines text) = text ++ if text = [] ∨ endsWithNewline text then [] else ['\n'] := by
  induction text with
  | nil => rfl
  | cons c rest ih =>
    by_cases newline : c = '\n'
    · subst newline
      simp only [lines, if_true, closed_cons, List.nil_append, ih, List.cons_append]
      cases rest with
      | nil => rfl
      | cons d more => simp [endsWithNewline]
    · simp only [lines, if_neg newline]
      cases rest with
      | nil => simp [lines, closed, endsWithNewline, newline]
      | cons d more =>
        have sameEnd : endsWithNewline (c :: d :: more) = endsWithNewline (d :: more) := by
          simp [endsWithNewline]
        split
        · rename_i none
          rw [none] at ih
          simp [closed] at ih
        · rename_i line others some
          rw [some, closed_cons] at ih
          rw [closed_cons, List.cons_append, ih, sameEnd]
          simp

end Text

def Text.AreLines (lines : List Text) : Prop := ∀ line ∈ lines, '\n' ∉ line

namespace Text

theorem AreLines.append {lines more : List Text} (front : AreLines lines) (back : AreLines more) :
    AreLines (lines ++ more) := by
  intro line member
  rcases List.mem_append.mp member with inFront | inBack
  · exact front line inFront
  · exact back line inBack

theorem areLines_append (lines more : List Text) :
    AreLines (lines ++ more) ↔ AreLines lines ∧ AreLines more := by
  refine ⟨fun all => ⟨fun line member => ?_, fun line member => ?_⟩,
    fun both => both.1.append both.2⟩
  · exact all line (List.mem_append_left more member)
  · exact all line (List.mem_append_right lines member)

theorem areLines_cons (line : Text) (more : List Text) :
    AreLines (line :: more) ↔ '\n' ∉ line ∧ AreLines more := List.forall_mem_cons

theorem areLines_lines (text : Text) : AreLines (lines text) := by
  induction text with
  | nil => exact fun line member => nomatch member
  | cons c rest ih =>
    by_cases newline : c = '\n'
    · rw [lines, if_pos newline]
      exact (areLines_cons _ _).mpr ⟨List.not_mem_nil, ih⟩
    · have differs : '\n' ≠ c := fun same => newline same.symm
      rw [lines, if_neg newline]
      split
      · exact (areLines_cons _ _).mpr ⟨by simp [differs], fun line member => nomatch member⟩
      · rename_i line more found
        rw [found] at ih
        obtain ⟨first, others⟩ := (areLines_cons line more).mp ih
        exact (areLines_cons _ _).mpr ⟨by simp [differs, first], others⟩

theorem lines_newline (line rest : Text) (isLine : '\n' ∉ line) :
    lines (line ++ '\n' :: rest) = line :: lines rest := by
  induction line with
  | nil => simp [lines]
  | cons c more ih =>
    have differs : c ≠ '\n' := fun same => isLine (same ▸ List.mem_cons_self)
    have others := ih fun member => isLine (List.mem_cons_of_mem c member)
    rw [List.cons_append, lines, if_neg differs, others]

theorem lines_single (line : Text) (isLine : '\n' ∉ line) (filled : line ≠ []) :
    lines line = [line] := by
  induction line with
  | nil => exact absurd rfl filled
  | cons c more ih =>
    have differs : c ≠ '\n' := fun same => isLine (same ▸ List.mem_cons_self)
    rw [lines, if_neg differs]
    cases more with
    | nil => rfl
    | cons d rest =>
      rw [ih (fun member => isLine (List.mem_cons_of_mem c member)) (List.cons_ne_nil d rest)]

theorem count_closed {lines : List Text} (areLines : AreLines lines) :
    (closed lines).count '\n' = lines.length := by
  induction lines with
  | nil => rfl
  | cons line more ih =>
    obtain ⟨isLine, others⟩ := (areLines_cons line more).mp areLines
    rw [closed_cons, List.count_append, List.count_cons_self, ih others,
      List.count_eq_zero.mpr isLine, List.length_cons, Nat.zero_add]

theorem lines_closed_append (front : List Text) (rest : Text) (areLines : AreLines front) :
    lines (closed front ++ rest) = front ++ lines rest := by
  induction front with
  | nil => rfl
  | cons line more ih =>
    obtain ⟨isLine, others⟩ := (areLines_cons line more).mp areLines
    rw [closed_cons, List.append_assoc, List.cons_append, lines_newline line _ isLine, ih others]
    rfl

theorem lines_append (front back : Text) (ends : endsWithNewline front) :
    lines (front ++ back) = lines front ++ lines back := by
  have whole : closed (lines front) = front := by
    rw [closed_lines, if_pos (Or.inr ends), List.append_nil]
  rw [← lines_closed_append (lines front) back (areLines_lines front), whole]

/-- Lines are those of a text that they are when closed, and of that text without the newline
at its end when the last line is not empty. -/
theorem lines_of_closed (text : Text) (isLines : List Text) (areLines : AreLines isLines)
    (same : closed isLines = text ∨ closed isLines = text ++ ['\n'] ∧ isLines.getLast? ≠ some []) :
    lines text = isLines := by
  rcases same with rfl | ⟨same, filled⟩
  · have whole := lines_closed_append isLines [] areLines
    simpa [lines] using whole
  · rcases List.eq_nil_or_concat isLines with rfl | ⟨front, last, rfl⟩
    · simp [closed_nil] at same
    · rw [List.concat_eq_append] at *
      rw [closed_append, closed_singleton, ← List.append_assoc] at same
      rw [← List.append_cancel_right same]
      obtain ⟨frontLines, lastLines⟩ := (areLines_append front [last]).mp areLines
      have isLine : '\n' ∉ last := lastLines last (List.mem_singleton_self last)
      have notEmpty : last ≠ [] := by
        rintro rfl
        simp at filled
      rw [lines_closed_append front last frontLines, lines_single last isLine notEmpty]

theorem getLast?_lines (text : Text) (open_ : endsWithNewline text = false) :
    (lines text).getLast? ≠ some [] := by
  intro last
  obtain ⟨front, isLines⟩ := List.getLast?_eq_some_iff.mp last
  have whole := closed_lines text
  rw [isLines, closed_append, closed_singleton, open_] at whole
  by_cases none : text = []
  · subst none
    simp [lines] at last
  · rw [if_neg (by simp [none])] at whole
    have isFront : closed front = text := (List.append_left_inj ['\n']).mp whole
    rcases List.eq_nil_or_concat front with rfl | ⟨upper, line, rfl⟩
    · exact none isFront.symm
    · rw [List.concat_eq_append, closed_append, closed_singleton] at isFront
      rw [← isFront] at open_
      simp [endsWithNewline] at open_

end Text

/-! ## Parts between separators

A text that is cut at a separator has at least one part, and no part holds the separator. Cutting
such a text and joining its parts undo each other. -/

namespace Text

variable {separator : Char}

theorem splitOn_ne_nil (text : Text) : splitOn separator text ≠ [] := by
  cases text with
  | nil => exact List.cons_ne_nil _ _
  | cons c rest =>
    rw [splitOn]
    split
    · exact List.cons_ne_nil _ _
    · split <;> exact List.cons_ne_nil _ _

theorem not_mem_of_mem_splitOn (text : Text) :
    ∀ part ∈ splitOn separator text, separator ∉ part := by
  induction text with
  | nil => simp [splitOn]
  | cons c rest ih =>
    intro part member
    rw [splitOn] at member
    by_cases cuts : c = separator
    · rw [if_pos cuts] at member
      rcases List.mem_cons.mp member with rfl | member
      · exact List.not_mem_nil
      · exact ih part member
    · rw [if_neg cuts] at member
      cases parts : splitOn separator rest with
      | nil => exact absurd parts (splitOn_ne_nil rest)
      | cons first more =>
        rw [parts] at member ih
        rcases List.mem_cons.mp member with rfl | member
        · have absent := ih first List.mem_cons_self
          simp [Ne.symm cuts, absent]
        · exact ih part (List.mem_cons_of_mem _ member)

theorem splitOn_of_not_mem (part : Text) (absent : separator ∉ part) :
    splitOn separator part = [part] := by
  induction part with
  | nil => rfl
  | cons c rest ih =>
    obtain ⟨differs, others⟩ := not_or.mp (mt List.mem_cons.mpr absent)
    rw [splitOn, if_neg (Ne.symm differs), ih others]

theorem splitOn_append (front rest : Text) :
    splitOn separator (front ++ separator :: rest) =
      splitOn separator front ++ splitOn separator rest := by
  induction front with
  | nil => simp [splitOn]
  | cons c more ih =>
    rw [List.cons_append, splitOn, splitOn, ih]
    by_cases cuts : c = separator
    · rw [if_pos cuts, if_pos cuts, List.cons_append]
    · rw [if_neg cuts, if_neg cuts]
      cases parts : splitOn separator more with
      | nil => exact absurd parts (splitOn_ne_nil more)
      | cons first others => rfl

theorem splitOn_join (parts : List Text) (filled : parts ≠ [])
    (absent : ∀ part ∈ parts, separator ∉ part) :
    splitOn separator (join [separator] parts) = parts := by
  induction parts with
  | nil => exact absurd rfl filled
  | cons part more ih =>
    obtain ⟨first, others⟩ := List.forall_mem_cons.mp absent
    cases more with
    | nil => exact splitOn_of_not_mem part first
    | cons next rest =>
      have again := ih (List.cons_ne_nil _ _) others
      rw [join, List.append_assoc, List.singleton_append, splitOn_append,
        splitOn_of_not_mem part first, again, List.singleton_append]
      exact List.cons_ne_nil _ _

theorem join_splitOn (text : Text) : join [separator] (splitOn separator text) = text := by
  induction text with
  | nil => rfl
  | cons c rest ih =>
    rw [splitOn]
    cases parts : splitOn separator rest with
    | nil => exact absurd parts (splitOn_ne_nil rest)
    | cons first more =>
      rw [parts] at ih
      by_cases cuts : c = separator
      · rw [if_pos cuts, join, ih, cuts]
        · rfl
        · exact List.cons_ne_nil _ _
      · rw [if_neg cuts]
        cases more with
        | nil => exact congrArg (c :: ·) ih
        | cons next others =>
          rw [join] at ih ⊢
          · simpa only [List.cons_append] using congrArg (c :: ·) ih
          · exact List.cons_ne_nil _ _
          · exact List.cons_ne_nil _ _

end Text

end Dotenv
