import Dotenv.Proofs.Text.Lines
import Mathlib.Init
/-!
# Line ends

What making line ends bare newlines does to a text. It is not done again to its own result: of two
carriage returns in front of a newline one is left, and is one that would be taken away the next
time.
-/

set_option autoImplicit false

namespace Dotenv.Text

def DoublesReturn (text : Text) : Prop := ['\r', '\r', '\n'] <:+: text

instance (text : Text) : Decidable text.DoublesReturn :=
  inferInstanceAs (Decidable (['\r', '\r', '\n'] <:+: text))

theorem unixLines_eq_self_iff (text : Text) :
    unixLines text = text ↔ ¬ ['\r', '\n'] <:+: text := by
  fun_induction unixLines text with
  | case1 => simp
  | case2 rest _ =>
    have found : ['\r', '\n'] <:+: '\r' :: '\n' :: rest := (List.prefix_append _ rest).isInfix
    simp [found]
  | case3 c rest other ih =>
    have noPrefix : ¬ ['\r', '\n'] <+: c :: rest := by
      rintro ⟨more, same⟩
      cases same
      exact other more rfl rfl
    rw [List.cons.injEq, List.infix_cons_iff, or_iff_right noPrefix, ← ih]
    exact and_iff_right rfl

theorem unixLines_of_line {text : Text} (isLine : '\n' ∉ text) : unixLines text = text := by
  refine (unixLines_eq_self_iff text).mpr fun found => isLine (found.subset ?_)
  simp

/-- The first character becomes a newline where it is one, or where a newline follows the carriage
return that it is. -/
theorem newline_prefix_unixLines (text : Text) :
    ['\n'] <+: unixLines text ↔ ['\n'] <+: text ∨ ['\r', '\n'] <+: text := by
  fun_cases unixLines text with
  | case1 => simp
  | case2 rest => simp
  | case3 c rest other =>
    have noPrefix : ¬ ['\r', '\n'] <+: c :: rest := by
      rintro ⟨more, same⟩
      cases same
      exact other more rfl rfl
    rw [or_iff_left noPrefix, List.cons_prefix_cons, List.cons_prefix_cons]
    simp

theorem return_infix_unixLines (text : Text) :
    ['\r', '\n'] <:+: unixLines text ↔ text.DoublesReturn := by
  unfold DoublesReturn
  fun_induction unixLines text with
  | case1 => simp
  | case2 rest ih => simp [List.infix_cons_iff, ih]
  | case3 c rest other ih =>
    have noPrefix : c = '\r' → ¬ ['\n'] <+: rest := by
      rintro rfl ⟨more, rfl⟩
      exact other more rfl rfl
    rw [List.infix_cons_iff, List.infix_cons_iff, ih, List.cons_prefix_cons, List.cons_prefix_cons,
      newline_prefix_unixLines]
    refine or_congr_left (and_congr_right fun isReturn => or_iff_right (noPrefix isReturn.symm))

theorem unixLines_unixLines_iff (text : Text) :
    unixLines (unixLines text) = unixLines text ↔ ¬ text.DoublesReturn :=
  (unixLines_eq_self_iff _).trans (not_congr (return_infix_unixLines text))

/-! ## Texts put together -/

theorem unixLines_cons (c : Char) (rest : Text) (plain : c ≠ '\r') :
    unixLines (c :: rest) = c :: unixLines rest := by
  rw [unixLines]
  rintro _ rfl
  exact absurd rfl plain

theorem unixLines_append (front rest : Text) (plain : '\r' ∉ front) :
    unixLines (front ++ rest) = front ++ unixLines rest := by
  induction front with
  | nil => rfl
  | cons c more ih =>
    have others := ih fun member => plain (List.mem_cons_of_mem c member)
    have notReturn : c ≠ '\r' := fun same => plain (same ▸ List.mem_cons_self)
    rw [List.cons_append, unixLines_cons c _ notReturn, others, List.cons_append]

theorem unixLines_append_newline (front back : Text) (ends : endsWithNewline front) :
    unixLines (front ++ back) = unixLines front ++ unixLines back := by
  fun_induction unixLines front with
  | case1 => rfl
  | case2 rest ih =>
    rw [List.cons_append, List.cons_append, unixLines, List.cons_append]
    cases rest with
    | nil => rfl
    | cons d more => rw [ih (by simpa [endsWithNewline] using ends)]
  | case3 c rest other ih =>
    cases rest with
    | nil =>
      have newline : c = '\n' := by simpa [endsWithNewline] using ends
      rw [List.singleton_append, unixLines, unixLines, List.singleton_append]
      rintro _ rfl
      cases newline
    | cons d more =>
      have others := ih (by simpa [endsWithNewline] using ends)
      rw [List.cons_append, unixLines, others, List.cons_append]
      rintro _ isReturn same
      rw [List.cons_append, List.cons.injEq] at same
      exact other more isReturn (by rw [same.1])

theorem endsWithNewline_cons (c : Char) (rest : Text) :
    endsWithNewline (c :: rest) = if rest = [] then c == '\n' else endsWithNewline rest := by
  cases rest <;> simp [endsWithNewline]

theorem unixLines_eq_nil (text : Text) : unixLines text = [] ↔ text = [] := by
  fun_cases unixLines text <;> simp

theorem endsWithNewline_unixLines (text : Text) :
    endsWithNewline (unixLines text) = endsWithNewline text := by
  fun_induction unixLines text with
  | case1 => rfl
  | case2 rest ih =>
    rw [endsWithNewline_cons, endsWithNewline_cons, endsWithNewline_cons, ih]
    simp [unixLines_eq_nil]
  | case3 c rest other ih =>
    rw [endsWithNewline_cons, endsWithNewline_cons, ih]
    simp only [unixLines_eq_nil]

theorem endsWithNewline_append (front back : Text) :
    endsWithNewline (front ++ back) =
      if back = [] then endsWithNewline front else endsWithNewline back := by
  cases back with
  | nil => simp
  | cons c rest => simp [endsWithNewline, List.getLast?_cons]

/-! ## Lines -/

def withoutReturn (line : Text) : Text :=
  if line.getLast? = some '\r' then line.dropLast else line

theorem withoutReturn_cases (line : Text) :
    line = withoutReturn line ∨ line = withoutReturn line ++ ['\r'] := by
  unfold withoutReturn
  split
  · rename_i ends
    obtain ⟨front, rfl⟩ := List.getLast?_eq_some_iff.mp ends
    rw [List.dropLast_concat]
    exact Or.inr rfl
  · exact Or.inl rfl

theorem withoutReturn_cons_cons (c d : Char) (rest : Text) :
    withoutReturn (c :: d :: rest) = c :: withoutReturn (d :: rest) := by
  simp only [withoutReturn, List.getLast?_cons_cons, List.dropLast_cons_cons]
  split <;> rfl

theorem withoutReturn_cons (c : Char) (line : Text) (plain : c ≠ '\r') :
    withoutReturn (c :: line) = c :: withoutReturn line := by
  cases line with
  | nil => simp [withoutReturn, plain]
  | cons d rest => exact withoutReturn_cons_cons c d rest

theorem unixLines_closed_line (line : Text) (isLine : '\n' ∉ line) :
    unixLines (line ++ ['\n']) = withoutReturn line ++ ['\n'] := by
  induction line with
  | nil => rfl
  | cons c more ih =>
    have others := ih fun member => isLine (List.mem_cons_of_mem c member)
    cases more with
    | nil =>
      by_cases isReturn : c = '\r'
      · subst isReturn
        rfl
      · rw [List.singleton_append, unixLines_cons c _ isReturn, withoutReturn_cons c _ isReturn]
        rfl
    | cons d rest =>
      have differs : d ≠ '\n' := by
        rintro rfl
        exact isLine (by simp)
      have keeps : unixLines (c :: d :: (rest ++ ['\n'])) =
          c :: unixLines (d :: rest ++ ['\n']) := by
        rw [unixLines]
        · rfl
        · rintro _ - same
          exact differs (List.cons.inj same).1
      rw [List.cons_append, List.cons_append, keeps, others, withoutReturn_cons_cons]
      rfl

theorem unixLines_closed {lines : List Text} (areLines : AreLines lines) :
    unixLines (closed lines) = closed (lines.map withoutReturn) := by
  induction lines with
  | nil => rfl
  | cons line more ih =>
    obtain ⟨isLine, others⟩ := (areLines_cons line more).mp areLines
    have ends : endsWithNewline (line ++ ['\n']) := by simp [endsWithNewline]
    rw [List.map_cons, closed_cons, closed_cons, ← List.singleton_append, ← List.append_assoc,
      unixLines_append_newline _ _ ends, unixLines_closed_line line isLine, ih others,
      List.append_assoc, List.singleton_append]

theorem AreLines.withoutReturn {lines : List Text} (areLines : AreLines lines) :
    AreLines (lines.map withoutReturn) := by
  intro text member newline
  obtain ⟨line, inLines, rfl⟩ := List.mem_map.mp member
  refine areLines line inLines ?_
  rcases withoutReturn_cases line with same | ends
  · rwa [same]
  · rw [ends]
    exact List.mem_append_left _ newline

end Dotenv.Text
