import Dotenv.Proofs.Text.Lines
import Dotenv.Source
/-!
# Spans over parts of a text

A part of a text is at the bytes that the text in front of it takes. Lines that are closed and put
together are the text, so a part of them that ends where one of them does is a part of the text.
-/

set_option autoImplicit false

namespace Dotenv

namespace Text

theorem dropBytes?_width (front rest : Text) :
    dropBytes? (width front) (front ++ rest) = some rest := by
  induction front with
  | nil => simp only [width_nil, List.nil_append, dropBytes?]
  | cons c more ih =>
    have positive : 0 < c.utf8Size := Char.utf8Size_pos c
    rw [width_cons, List.cons_append]
    obtain ⟨n, size⟩ : ∃ n, c.utf8Size + width more = n + 1 :=
      Nat.exists_eq_add_one.mpr (by omega)
    rw [size]
    simp only [dropBytes?]
    rw [if_pos (by omega), ← size, Nat.add_sub_cancel_left]
    exact ih

theorem takeBytes?_width (front rest : Text) :
    takeBytes? (width front) (front ++ rest) = some front := by
  induction front with
  | nil => simp only [width_nil, takeBytes?]
  | cons c more ih =>
    have positive : 0 < c.utf8Size := Char.utf8Size_pos c
    rw [width_cons, List.cons_append]
    obtain ⟨n, size⟩ : ∃ n, c.utf8Size + width more = n + 1 :=
      Nat.exists_eq_add_one.mpr (by omega)
    rw [size]
    simp only [takeBytes?]
    rw [if_pos (by omega), ← size, Nat.add_sub_cancel_left, ih, Option.map_some]

theorem slice?_width (front middle back : Text) :
    slice? (width front) (width front + width middle) (front ++ (middle ++ back)) =
      some middle := by
  rw [slice?, if_pos (Nat.le_add_right _ _), dropBytes?_width, Option.bind_some,
    Nat.add_sub_cancel_left, takeBytes?_width]

end Text

def Span.Covers (span : Span) (text part : Text) : Prop :=
  ∃ front back, text = front ++ (part ++ back) ∧
    span = ⟨Text.width front, Text.width front + Text.width part⟩

namespace Span.Covers

variable {span : Span} {text part : Text} (covers : span.Covers text part)
include covers

theorem slice? : Text.slice? span.start span.stop text = some part := by
  obtain ⟨front, back, rfl, rfl⟩ := covers
  exact Text.slice?_width front part back

theorem slice : span.slice text = part := by
  rw [Span.slice, covers.slice?, Option.getD_some]

theorem start_le_stop : span.start ≤ span.stop := by
  obtain ⟨front, back, rfl, rfl⟩ := covers
  exact Nat.le_add_right _ _

theorem stop_le_width : span.stop ≤ Text.width text := by
  obtain ⟨front, back, rfl, rfl⟩ := covers
  rw [Text.width_append, Text.width_append]
  exact Nat.add_le_add_left (Nat.le_add_right _ _) _

end Span.Covers

namespace Text

theorem width_pos {text : Text} (filled : text ≠ []) : 0 < width text := by
  cases text with
  | nil => exact absurd rfl filled
  | cons c rest =>
    have positive := Char.utf8Size_pos c
    rw [width_cons]
    omega

theorem width_newline : width ['\n'] = 1 := rfl

theorem width_closed_cons (line : Text) (more : List Text) :
    width (closed (line :: more)) = width line + 1 + width (closed more) := by
  rw [closed_cons, width_append, width_cons, show '\n'.utf8Size = 1 from rfl, Nat.add_assoc]

/-- A line starts at an offset: the text does, or a newline stands right in front. -/
def StartsLine (text : Text) (offset : Nat) : Prop :=
  ∃ front back, text = front ++ back ∧ width front = offset ∧
    (front = [] ∨ endsWithNewline front)

/-- A line ends at an offset: a newline stands right behind, or the text ends there with a line
that no newline closes. -/
def EndsLine (text : Text) (offset : Nat) : Prop :=
  ∃ front back, text = front ++ back ∧ width front = offset ∧
    (back.head? = some '\n' ∨ back = [] ∧ ¬ endsWithNewline text)

theorem endsWithNewline_closed (lines : List Text) :
    closed lines = [] ∨ endsWithNewline (closed lines) := by
  rcases List.eq_nil_or_concat lines with rfl | ⟨upper, line, rfl⟩
  · exact .inl rfl
  · refine .inr ?_
    rw [List.concat_eq_append, closed_append, closed_singleton, endsWithNewline,
      ← List.append_assoc, List.getLast?_append, List.getLast?_singleton]
    rfl

theorem part_of_closed (text front part back : Text)
    (same : closed (lines text) = front ++ (part ++ '\n' :: back)) :
    ∃ after, text = front ++ (part ++ after) ∧
      (after.head? = some '\n' ∨ after = [] ∧ ¬ endsWithNewline text) := by
  rw [closed_lines] at same
  split at same
  · rw [List.append_nil] at same
    exact ⟨'\n' :: back, same, .inl rfl⟩
  · rename_i unclosed
    rcases List.eq_nil_or_concat back with rfl | ⟨more, last, rfl⟩
    · rw [← List.append_assoc] at same
      refine ⟨[], ?_, .inr ⟨rfl, fun ends => unclosed (.inr ends)⟩⟩
      rw [List.append_nil]
      exact List.append_cancel_right same
    · have whole : text ++ ['\n'] = (front ++ (part ++ '\n' :: more)) ++ [last] := by
        simpa only [List.concat_eq_append, List.append_assoc, List.cons_append] using same
      exact ⟨'\n' :: more, (List.append_inj' whole rfl).1, .inl rfl⟩

end Text

end Dotenv
