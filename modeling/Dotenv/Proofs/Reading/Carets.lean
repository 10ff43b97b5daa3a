import Dotenv.Proofs.Reading.Pointing
import Dotenv.Proofs.Value.Display
/-!
# Carets

A fault is shown by a line and by carets below it. In a context the first caret stands under the
first character of the fault. In a diagnostic the number of the line takes a character more than the
carets leave for it, and from four digits on as many more. The carets are counted in bytes and cut
off at the end of what is shown, so that there are too many of them under characters of more than
one byte, unless nothing else is shown.
-/

set_option autoImplicit false

namespace Dotenv

namespace Text

/-! ## Lines and carets -/

def ShowsCarets (printed left part right : Text) (shift count : Nat) : Prop :=
  ∃ upper pad, splitOn '\n' printed =
      upper ++ [left ++ (part ++ right), pad ++ Span.fill '^' count] ∧
    '^' ∉ pad ∧ pad.length + shift = left.length

/-- A printed text ends in a line with a part of it, and in a line that has a caret under each
character of the part, or a caret alone when the part is empty. -/
def PointsAt (printed left part right : Text) : Prop :=
  ShowsCarets printed left part right 0 (max part.length 1)

variable {printed left part right : Text} {shift count : Nat}

theorem takeWhile_carets (pad : Text) (blank : '^' ∉ pad) (some : 0 < count) :
    (pad ++ Span.fill '^' count).takeWhile (· ≠ '^') = pad := by
  have all : ∀ c ∈ pad, decide (c ≠ '^') = true := by
    intro c member
    exact decide_eq_true fun same => blank (same ▸ member)
  obtain ⟨more, rfl⟩ := Nat.exists_eq_add_of_lt some
  rw [List.takeWhile_append_of_pos all, Span.fill, Nat.zero_add, List.replicate_succ,
    List.takeWhile_cons_of_neg (by decide), List.append_nil]

theorem ShowsCarets.unique (shows : ShowsCarets printed left part right shift count)
    (some : 0 < count) {shift' count' : Nat}
    (other : ShowsCarets printed left part right shift' count') (some' : 0 < count') :
    shift = shift' ∧ count = count' := by
  obtain ⟨upper, pad, isPrinted, blank, placed⟩ := shows
  obtain ⟨upper', pad', isPrinted', blank', placed'⟩ := other
  rw [isPrinted] at isPrinted'
  -- The last two lines are the same, and the first caret ends what is blank in the second.
  have lines := List.append_inj_right' isPrinted' rfl
  have carets : pad ++ Span.fill '^' count = pad' ++ Span.fill '^' count' :=
    (List.cons.inj (List.cons.inj lines).2).1
  have samePad : pad = pad' := by
    rw [← takeWhile_carets pad blank some, carets, takeWhile_carets pad' blank' some']
  subst samePad
  have sameCount := congrArg List.length carets
  simp only [List.length_append, Span.fill, List.length_replicate] at sameCount
  omega

theorem ShowsCarets.pointsAt_iff (shows : ShowsCarets printed left part right shift count)
    (some : 0 < count) :
    PointsAt printed left part right ↔ shift = 0 ∧ count = max part.length 1 := by
  constructor
  · intro points
    exact shows.unique some points (by omega)
  · rintro ⟨rfl, rfl⟩
    exact shows

theorem length_le_width (text : Text) : text.length ≤ width text := by
  induction text with
  | nil => exact Nat.le_refl _
  | cons c rest ih =>
    have positive := Char.utf8Size_pos c
    rw [width_cons, List.length_cons]
    omega

end Text

/-! ## Excerpts and diagnostics -/

namespace Span

/-- The carets under a part are cut off behind it when nothing else is in reach, and are as many as
its characters anyway when these have a byte each. -/
theorem carets_eq_iff (size part others : Nat) (fits : part ≤ size) (none : part = 0 → size = 0) :
    max 1 (min size (max (part + others) 1)) = max part 1 ↔ size = part ∨ others = 0 := by
  omega

theorem not_mem_fill_newline (c : Char) (isOther : c ≠ '\n') (count : Nat) :
    '\n' ∉ fill c count := by
  intro member
  exact isOther (List.eq_of_mem_replicate member).symm

variable {span : Span} {source left part right : Text} {line : Nat}

theorem splitOn_line (above line carets : Text) (isLine : '\n' ∉ line) (isLast : '\n' ∉ carets) :
    Text.splitOn '\n' (above ++ '\n' :: (line ++ '\n' :: carets)) =
      Text.splitOn '\n' above ++ [line, carets] := by
  rw [Text.splitOn_append, Text.splitOn_append, Text.splitOn_of_not_mem line isLine,
    Text.splitOn_of_not_mem carets isLast]
  rfl

theorem newline_not_mem_carets (pad : Text) (isLine : '\n' ∉ pad) (count : Nat) :
    '\n' ∉ pad ++ fill '^' count := by
  rw [List.mem_append, not_or]
  exact ⟨isLine, not_mem_fill_newline '^' (by decide) count⟩

theorem excerpt_shows (located : span.locate source = ⟨line, left.length, left ++ (part ++ right)⟩)
    (isLine : '\n' ∉ left ++ (part ++ right)) (margin : Nat) (fits : part.length ≤ span.size)
    (wide : span.size ≤ margin) :
    let shown := left.drop (left.length - margin)
    let back := right.take (margin * 2 + max span.size 1 - (shown.length + part.length))
    Text.ShowsCarets (span.excerpt source margin) shown part back 0
      (max 1 (min span.size (max (part.length + (shown.length + back.length)) 1))) := by
  intro shown back
  have few : shown.length ≤ margin := by
    simp only [shown, List.length_drop]
    omega
  have piece : ((left ++ (part ++ right)).drop (left.length - margin)).take
      (margin * 2 + max span.size 1) = shown ++ (part ++ back) := by
    rw [List.drop_append_of_le_length (Nat.sub_le _ _), ← List.append_assoc,
      List.take_append, List.take_of_length_le, List.length_append, List.append_assoc]
    rw [List.length_append]
    change shown.length + part.length ≤ _
    omega
  have noNewline : '\n' ∉ shown ++ (part ++ back) := by
    rw [← piece]
    exact fun member => isLine (List.mem_of_mem_drop (List.mem_of_mem_take member))
  have blank : '^' ∉ fill ' ' (left.length - (left.length - margin)) :=
    fun member => absurd (List.eq_of_mem_replicate member) (by decide)
  have noBreak : '\n' ∉ fill ' ' (left.length - (left.length - margin)) :=
    not_mem_fill_newline ' ' (by decide) _
  refine ⟨[], fill ' ' (left.length - (left.length - margin)), ?_, blank, ?_⟩
  · have isExcerpt : span.excerpt source margin = shown ++ (part ++ back) ++ '\n' ::
        (fill ' ' (left.length - (left.length - margin)) ++ fill '^'
          (max 1 (min span.size (max (part.length + (shown.length + back.length)) 1)))) := by
      simp only [excerpt, located, piece, List.append_assoc, List.length_append, List.cons_append,
        List.nil_append, Nat.add_left_comm]
    rw [isExcerpt, Text.splitOn_append, Text.splitOn_of_not_mem _ noNewline,
      Text.splitOn_of_not_mem _ (newline_not_mem_carets _ noBreak _)]
    rfl
  · simp only [fill, List.length_replicate, shown, List.length_drop]
    omega

def gutter (line : Nat) : Text := Text.padLeft 3 (Text.ofNat line) ++ " | ".toList

theorem length_gutter (line : Nat) :
    (gutter line).length = max 3 (Text.ofNat line).length + 3 := by
  simp only [gutter, Text.padLeft, List.length_append, List.length_replicate]
  change _ + 3 = _
  omega

theorem newline_not_mem_gutter (line : Nat) : '\n' ∉ gutter line := by
  rw [gutter, Text.padLeft, List.mem_append, List.mem_append, not_or, not_or]
  refine ⟨⟨not_mem_fill_newline ' ' (by decide) _, ?_⟩, by decide⟩
  exact fun member => absurd (Text.isDigit_ofNat line _ member) (by decide)

theorem diagnostic_shows
    (located : span.locate source = ⟨line, left.length, left ++ (part ++ right)⟩)
    (isLine : '\n' ∉ left ++ (part ++ right)) (message : Text) :
    Text.ShowsCarets (span.diagnostic source message) (gutter line ++ left) part right
      (max 3 (Text.ofNat line).length - 2)
      (max 1 (min span.size (max (part.length + right.length) 1))) := by
  have noNewline : '\n' ∉ gutter line ++ (left ++ (part ++ right)) := by
    rw [List.mem_append, not_or]
    exact ⟨newline_not_mem_gutter line, isLine⟩
  have blank : '^' ∉ "   | ".toList ++ fill ' ' left.length := by
    rw [List.mem_append, not_or]
    exact ⟨by decide, fun member => absurd (List.eq_of_mem_replicate member) (by decide)⟩
  have noBreak : '\n' ∉ "   | ".toList ++ fill ' ' left.length := by
    rw [List.mem_append, not_or]
    exact ⟨by decide, not_mem_fill_newline ' ' (by decide) _⟩
  have room : left.length + (part.length + right.length) - left.length =
      part.length + right.length := Nat.add_sub_cancel_left _ _
  have above : "\n   |\n".toList = "\n   |".toList ++ ['\n'] := rfl
  have below : "\n   | ".toList = '\n' :: "   | ".toList := rfl
  have isDiagnostic : span.diagnostic source message =
      ("error: ".toList ++ message ++ "\n  --> line ".toList ++ Text.ofNat line ++
        ", column ".toList ++ Text.ofNat (left.length + 1) ++ "\n   |".toList) ++ '\n' ::
      (gutter line ++ (left ++ (part ++ right)) ++ '\n' ::
        ("   | ".toList ++ fill ' ' left.length ++
          fill '^' (max 1 (min span.size (max (part.length + right.length) 1))))) := by
    unfold diagnostic
    rw [located]
    dsimp only
    rw [List.length_append, List.length_append, room, above, below]
    simp only [gutter, List.append_assoc, List.cons_append, List.nil_append]
  unfold Text.ShowsCarets
  rw [isDiagnostic, splitOn_line _ _ _ noNewline (newline_not_mem_carets _ noBreak _),
    ← List.append_assoc (gutter line)]
  refine ⟨_, _, rfl, blank, ?_⟩
  rw [List.length_append, List.length_append, length_gutter, fill, List.length_replicate]
  change 5 + _ + _ = _
  omega

end Span

/-! ## Faults -/

namespace Document

/-- The line of a fault is printed with the part that the fault is over. A diagnostic never points
at it: its first caret is at least one character too far to the left. A context, with a margin as
wide as the fault, has its first caret under the part. There is a caret for each character of the
part where it has no character of more than one byte, or where nothing else follows in the line and,
in a context, nothing stands in front. -/
theorem carets_of_read (options : ReadOptions) (source : Text) (fault : Fault)
    (refused : read options source = .error fault) :
    ∃ upper left part right lower,
      Text.lines (Text.unixLines source) = upper ++ (left ++ (part ++ right)) :: lower ∧
      fault.span.start = Text.width (Text.closed upper) + Text.width left ∧
      fault.span.slice (Text.unixLines source) = part ∧
      (let number := Text.ofNat (upper.length + 1)
       let numbered := Text.padLeft 3 number ++ " | ".toList ++ left
       ¬ Text.PointsAt (fault.diagnostic source) numbered part right ∧
       ∃ count, Text.ShowsCarets (fault.diagnostic source) numbered part right
          (max 3 number.length - 2) count ∧
        (count = max part.length 1 ↔ fault.span.size = part.length ∨ right = [])) ∧
      ∀ margin, fault.span.size ≤ margin →
        let shown := left.drop (left.length - margin)
        ∃ back count, back <+: right ∧
          Text.ShowsCarets (fault.context source margin) shown part back 0 count ∧
          (Text.PointsAt (fault.context source margin) shown part back ↔
            fault.span.size = part.length ∨ left = [] ∧ right = []) := by
  obtain ⟨part, coversIn, -⟩ := pointsInto_of_read options source fault refused
  obtain ⟨upper, left, right, lower, isLines, start, located⟩ := coversIn.locate
  have size : fault.span.size = Text.width part := by
    obtain ⟨front, back, -, isSpan⟩ := coversIn.covers
    rw [isSpan, Span.size]
    exact Nat.add_sub_cancel_left _ _
  have isLine : '\n' ∉ left ++ (part ++ right) := by
    apply Text.areLines_lines (Text.unixLines source)
    rw [isLines]
    exact List.mem_append_right _ List.mem_cons_self
  have fits : part.length ≤ fault.span.size := size ▸ part.length_le_width
  have isPart : fault.span.slice (Text.unixLines source) = part := by
    rw [Span.slice, coversIn.covers.slice?, Option.getD_some]
  have none : part.length = 0 → fault.span.size = 0 := by
    intro empty
    rw [size, List.length_eq_zero_iff.mp empty, Text.width_nil]
  refine ⟨upper, left, part, right, lower, isLines, start, isPart, ?_, ?_⟩
  · intro number numbered
    have shows := Span.diagnostic_shows located isLine fault.message
    refine ⟨?_, _, shows, ?_⟩
    · intro points
      have shift := ((shows.pointsAt_iff (by omega)).mp points).1
      omega
    · rw [Span.carets_eq_iff _ _ _ fits none, List.length_eq_zero_iff]
  · intro margin wide shown
    have shows := Span.excerpt_shows located isLine margin fits wide
    refine ⟨_, _, List.take_prefix _ _, shows, (shows.pointsAt_iff (by omega)).trans ?_⟩
    rw [and_iff_right rfl, Span.carets_eq_iff _ _ _ fits none, ← List.length_eq_zero_iff (l := left),
      ← List.length_eq_zero_iff (l := right), List.length_take, List.length_drop]
    omega

/-- A letter of two bytes, which is no key: the carets are one character too far to the left in the
diagnostic, and one too many. -/
theorem carets_of_read_letter :
    let source : Text := ['é', '=', '1', '\n']
    let fault : Fault := ⟨.invalidKey ['é'], ⟨0, 2⟩⟩
    read .standard source = .error fault ∧
      fault.diagnostic source = ("error: invalid key \x60é\x60 at position 0\n" ++
        "  --> line 1, column 1\n   |\n  1 | é=1\n   | ^^").toList ∧
      fault.context source 10 = "é=1\n^^".toList ∧
      ¬ Text.PointsAt (fault.diagnostic source) "  1 | ".toList ['é'] ['=', '1'] ∧
      ∃ back, ¬ Text.PointsAt (fault.context source 10) [] ['é'] back := by
  intro source fault
  have refused : read .standard source = .error fault := rfl
  obtain ⟨upper, left, part, right, lower, isLines, start, isPart, diagnostic, context⟩ :=
    carets_of_read .standard source fault refused
  obtain ⟨back, _, -, -, points⟩ := context 10 (by decide)
  obtain rfl : ['é'] = part := Eq.trans (by decide +kernel) isPart
  have one : Text.lines (Text.unixLines source) = [['é', '=', '1']] := by decide +kernel
  rw [one] at isLines
  cases upper with
  | cons first more =>
    have lengths := congrArg List.length isLines
    simp at lengths
  | nil =>
    have noLeft : left = [] := by
      by_contra filled
      have positive := Text.width_pos filled
      change 0 = 0 + Text.width left at start
      omega
    subst noLeft
    obtain rfl : ['=', '1'] = right := (List.cons.inj (List.cons.inj isLines).1).2
    have tooMany : ¬ (fault.span.size = ['é'].length ∨ ([] : Text) = [] ∧ ['=', '1'] = []) := by
      decide
    exact ⟨refused, by decide +kernel, by decide +kernel, diagnostic.1, back, mt points.mp tooMany⟩

end Document

end Dotenv
