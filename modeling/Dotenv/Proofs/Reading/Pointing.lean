import Dotenv.Proofs.Reading.Concatenation
/-!
# What faults point at

The span of a fault is over a part of one line of the text: of the line at which reading stops, or,
where the text ends inside a value, of the line that opens it. Where the cause names a text of the
line, the part is that text. A span over a part of a line is located in this line, at the column of
the part.
-/

set_option autoImplicit false

namespace Dotenv

def Span.CoversIn (span : Span) (lines : List Text) (part : Text) : Prop :=
  ∃ upper left right lower, lines = upper ++ (left ++ (part ++ right)) :: lower ∧
    span = ⟨Text.width (Text.closed upper) + Text.width left,
      Text.width (Text.closed upper) + Text.width left + Text.width part⟩

def Fault.PointsInto (fault : Fault) (lines : List Text) : Prop :=
  ∃ part, fault.span.CoversIn lines part ∧
    ∀ named, fault.cause.named? = some named → part = named

theorem Span.CoversIn.append {span : Span} {lines : List Text} {part : Text}
    (covers : span.CoversIn lines part) (more : List Text) :
    span.CoversIn (lines ++ more) part := by
  obtain ⟨upper, left, right, lower, rfl, isSpan⟩ := covers
  exact ⟨upper, left, right, lower ++ more, by rw [List.append_assoc, List.cons_append], isSpan⟩

theorem Fault.PointsInto.append {fault : Fault} {lines : List Text}
    (points : fault.PointsInto lines) (more : List Text) : fault.PointsInto (lines ++ more) := by
  obtain ⟨part, covers, isNamed⟩ := points
  exact ⟨part, covers.append more, isNamed⟩

theorem Span.coversIn_last (taken : List Text) (line part rest : Text)
    (atEnd : part ++ rest <:+ line) :
    let lineEnd := Text.width (Text.closed taken) + Text.width line
    CoversIn ⟨lineEnd - Text.width (part ++ rest), lineEnd - Text.width rest⟩ (taken ++ [line])
      part := by
  intro lineEnd
  obtain ⟨left, rfl⟩ := atEnd
  refine ⟨taken, left, rest, [], rfl, ?_⟩
  simp only [lineEnd, Text.width_append, Span.mk.injEq]
  omega

theorem LineFault.PointsInto.inText {fault : LineFault} {line : Text}
    (points : fault.PointsInto line) (taken : List Text) :
    (fault.inText (Text.width (Text.closed taken) + Text.width line)).PointsInto
      (taken ++ [line]) := by
  obtain ⟨atEnd, part, parts, isNamed⟩ := points
  refine ⟨part, ?_, isNamed⟩
  have covers := Span.coversIn_last taken line part fault.stop (parts ▸ atEnd)
  rw [← parts] at covers
  exact covers

/-! ## The reader -/

def Position.OpensIn (position : Position) (taken : List Text) : Prop :=
  ∀ item, position = .inside item →
    Span.CoversIn ⟨item.opening, item.opening + 3⟩ taken item.quote.delimiter

theorem Quote.width_delimiter {quote : Quote} (triple : quote.isTriple = true) :
    Text.width quote.delimiter = 3 := by
  cases quote <;> first | rfl | cases triple

theorem readItem_opens (run : List CommentLine) (line : Text) (taken : List Text)
    (item : OpenItem)
    (read : readItem run line (Text.width (Text.closed taken)) = .ok (.inr item)) :
    Span.CoversIn ⟨item.opening, item.opening + 3⟩ (taken ++ [line]) item.quote.delimiter := by
  simp only [readItem, bind_eq_ok] at read
  obtain ⟨⟨head, fromValue⟩, headIs, beginning, beginningIs, read⟩ := read
  cases beginning with
  | opened quote =>
    cases read
    obtain ⟨triple, rest, rfl, -⟩ := Scan.opened_of_beginning fromValue quote beginningIs
    obtain ⟨front, rfl⟩ := Scan.head_suffix line head _ headIs
    refine ⟨taken, front, rest, [], rfl, ?_⟩
    simp only [Text.width_append, Quote.width_delimiter triple, Span.mk.injEq]
    omega
  | whole value rest =>
    simp only [bind_eq_ok] at read
    obtain ⟨_, -, read⟩ := read
    cases read

namespace Position

section
variable {taken : List Text} {line : Text} {position next : Position}

theorem step_opensIn {nodes : List Node} (opens : position.OpensIn taken)
    (success : position.step (Text.width (Text.closed taken)) line = .ok (nodes, next)) :
    next.OpensIn (taken ++ [line]) := by
  rintro item rfl
  cases position with
  | between run =>
    simp only [step] at success
    split at success
    · cases success
    · split at success <;> cases success
    · split at success
      · cases success
      · cases success
      · rename_i read
        cases success
        exact readItem_opens run line taken item read
  | inside old =>
    have opened := (opens old rfl).append [line]
    simp only [step] at success
    split at success
    · cases success
      exact opened
    · split at success <;> cases success

theorem step_points {fault : Fault}
    (refused : position.step (Text.width (Text.closed taken)) line = .error fault) :
    fault.PointsInto (taken ++ [line]) := by
  cases position with
  | between run =>
    simp only [step] at refused
    split at refused
    · cases refused
    · split at refused
      · rename_i stopped
        cases refused
        exact (readComment_points line _ stopped).inText taken
      · cases refused
      · cases refused
    · split at refused
      · rename_i stopped
        cases refused
        exact (readItem_points run line _ _ stopped).inText taken
      · cases refused
      · cases refused
  | inside item =>
    simp only [step] at refused
    split at refused
    · cases refused
    · rename_i afterValue found
      have atEnd := Scan.closeBlock_suffix _ line afterValue found
      split at refused
      · rename_i stopped
        cases refused
        exact (item.close_points line afterValue _ _ atEnd stopped).inText taken
      · cases refused

theorem leave_points {fault : Fault} (opens : position.OpensIn taken)
    (refused : position.leave = .error fault) : fault.PointsInto taken := by
  cases position with
  | between run => cases refused
  | inside item =>
    cases refused
    exact ⟨item.quote.delimiter, opens item rfl, fun named same => Option.some.inj same⟩

end

theorem finish_nil (start : Nat) (position : Position) :
    position.finish start [] = position.leave := by
  simp only [finish, run, bind, Except.bind]
  cases position.leave <;> rfl

theorem finish_points (lines taken : List Text) (position : Position) (fault : Fault)
    (opens : position.OpensIn taken)
    (refused : position.finish (Text.width (Text.closed taken)) lines = .error fault) :
    fault.PointsInto (taken ++ lines) := by
  induction lines generalizing taken position with
  | nil =>
    rw [List.append_nil]
    rw [finish_nil] at refused
    exact leave_points opens refused
  | cons line more ih =>
    rw [List.append_cons]
    rw [finish_cons, bind_eq_error] at refused
    rcases refused with refused | ⟨⟨nodes, next⟩, stepped, refused⟩
    · exact (step_points refused).append more
    · have below : Text.width (Text.closed taken) + Text.width line + 1 =
          Text.width (Text.closed (taken ++ [line])) := by
        rw [Text.closed_append, Text.closed_singleton, Text.width_append, Text.width_append,
          Text.width_newline, Nat.add_assoc]
      rw [bind_eq_error, below] at refused
      rcases refused with refused | ⟨_, -, refused⟩
      · exact ih (taken ++ [line]) next (step_opensIn opens stepped) refused
      · cases refused

end Position

/-! ## Locations -/

theorem Text.takeEndWhile_closed (lines : List Text) (left : Text) (isLine : '\n' ∉ left) :
    takeEndWhile (· ≠ '\n') (closed lines ++ left) = left := by
  have all : ∀ c ∈ left.reverse, decide (c ≠ '\n') = true := by
    intro c member
    refine decide_eq_true fun same => isLine ?_
    rw [← same]
    exact List.mem_reverse.mp member
  rw [takeEndWhile, List.reverse_append, List.takeWhile_append_of_pos all]
  rcases List.eq_nil_or_concat lines with rfl | ⟨upper, line, rfl⟩
  · simp [closed_nil]
  · rw [List.concat_eq_append, closed_append, closed_singleton]
    simp

theorem Text.takeWhile_line (line after : Text) (isLine : '\n' ∉ line)
    (ends : after = [] ∨ after.head? = some '\n') :
    (line ++ after).takeWhile (· ≠ '\n') = line := by
  have all : ∀ c ∈ line, decide (c ≠ '\n') = true := by
    intro c member
    exact decide_eq_true fun same => isLine (same ▸ member)
  rw [List.takeWhile_append_of_pos all]
  rcases ends with rfl | ends
  · simp
  · obtain ⟨rest, rfl⟩ := List.head?_eq_some_iff.mp ends
    simp

namespace Span.CoversIn

variable {span : Span} {text part : Text}

/-- A line of a text that a span is over a part of: the text from its start on, and what stands
behind it. -/
theorem split (covers : span.CoversIn (Text.lines text) part) :
    ∃ upper left right lower after, Text.lines text = upper ++ (left ++ (part ++ right)) :: lower ∧
      text = (Text.closed upper ++ left) ++ (part ++ (right ++ after)) ∧
      (after = [] ∨ after.head? = some '\n') ∧
      span = ⟨Text.width (Text.closed upper ++ left),
        Text.width (Text.closed upper ++ left) + Text.width part⟩ := by
  obtain ⟨upper, left, right, lower, isLines, isSpan⟩ := covers
  have whole := congrArg Text.closed isLines
  rw [Text.closed_append, Text.closed_cons] at whole
  obtain ⟨after, isText, ends⟩ := Text.part_of_closed text _ _ _ whole
  refine ⟨upper, left, right, lower, after, isLines, ?_, ?_, ?_⟩
  · simpa only [List.append_assoc] using isText
  · exact ends.symm.imp And.left id
  · rw [Text.width_append]
    exact isSpan

theorem covers (covers : span.CoversIn (Text.lines text) part) : span.Covers text part := by
  obtain ⟨upper, left, right, lower, after, -, isText, -, isSpan⟩ := covers.split
  exact ⟨_, _, isText, isSpan⟩

theorem locate (covers : span.CoversIn (Text.lines text) part) :
    ∃ upper left right lower, Text.lines text = upper ++ (left ++ (part ++ right)) :: lower ∧
      span.start = Text.width (Text.closed upper) + Text.width left ∧
      span.locate text = ⟨upper.length + 1, left.length, left ++ (part ++ right)⟩ := by
  obtain ⟨upper, left, right, lower, after, isLines, isText, ends, isSpan⟩ := covers.split
  have areLines := Text.areLines_lines text
  rw [isLines, Text.areLines_append, Text.areLines_cons] at areLines
  obtain ⟨upperLines, isLine, -⟩ := areLines
  simp only [List.mem_append, not_or] at isLine
  obtain ⟨noLeft, noPart, noRight⟩ := isLine
  have start : span.start = Text.width (Text.closed upper ++ left) := congrArg Span.start isSpan
  have inside : span.start ≤ Text.width text :=
    covers.covers.start_le_stop.trans covers.covers.stop_le_width
  have before : span.before text = Text.closed upper ++ left := by
    have sliced := Text.slice?_width [] (Text.closed upper ++ left) (part ++ (right ++ after))
    simp only [Text.width_nil, Nat.zero_add, List.nil_append, ← isText] at sliced
    rw [Span.before, Nat.min_eq_left inside, start, sliced, Option.getD_some]
  have behind : text.drop (Text.closed upper ++ left).length = (part ++ right) ++ after := by
    rw [isText, List.drop_left, List.append_assoc]
  have noNewline : '\n' ∉ part ++ right := by
    simpa only [List.mem_append, not_or] using ⟨noPart, noRight⟩
  refine ⟨upper, left, right, lower, isLines, by rw [start, Text.width_append], ?_⟩
  simp only [Span.locate, before, behind, Text.takeEndWhile_closed upper left noLeft,
    Text.takeWhile_line _ after noNewline ends, List.count_append, Text.count_closed upperLines,
    List.count_eq_zero.mpr noLeft, Nat.add_zero]

end Span.CoversIn

/-! ## Documents -/

namespace Document

theorem pointsInto_of_read (options : ReadOptions) (source : Text) (fault : Fault)
    (refused : read options source = .error fault) :
    fault.PointsInto (Text.lines (Text.unixLines source)) := by
  rw [read_eq, map_eq_error] at refused
  exact Position.finish_points _ [] (.between []) fault (fun _ same => nomatch same) refused

/-- A fault is over a part of one line, which is the text that its cause names, and it is located
in this line: the characters in front of its column are those in front of the part. -/
theorem fault_points (options : ReadOptions) (source : Text) (fault : Fault)
    (refused : read options source = .error fault) :
    let text := Text.unixLines source
    let place := fault.span.locate text
    ∃ upper lower part,
      Text.lines text = upper ++ place.content :: lower ∧
      place.line = upper.length + 1 ∧
      fault.span.start = Text.width (Text.closed upper) +
        Text.width (place.content.take place.column) ∧
      fault.span.start ≤ fault.span.stop ∧
      fault.span.stop ≤ Text.width (Text.closed upper) + Text.width place.content ∧
      fault.span.stop ≤ Text.width text ∧
      Text.slice? fault.span.start fault.span.stop text = some part ∧
      part <+: place.content.drop place.column ∧
      ∀ named, fault.cause.named? = some named → part = named := by
  intro text place
  obtain ⟨part, coversIn, isNamed⟩ := pointsInto_of_read options source fault refused
  obtain ⟨upper, left, right, lower, isLines, start, located⟩ := coversIn.locate
  have covers := coversIn.covers
  have stop : fault.span.stop = fault.span.start + Text.width part := by
    obtain ⟨front, back, -, isSpan⟩ := covers
    rw [isSpan]
  have isPlace : place = ⟨upper.length + 1, left.length, left ++ (part ++ right)⟩ := located
  rw [isPlace]
  refine ⟨upper, lower, part, isLines, rfl, ?_, covers.start_le_stop, ?_, covers.stop_le_width,
    covers.slice?, ?_, isNamed⟩
  · rw [List.take_left]
    exact start
  · rw [stop, start, Text.width_append, Text.width_append]
    omega
  · rw [List.drop_left]
    exact List.prefix_append _ _

/-- A key that no equals sign follows and quotes that are never closed, both below lines with
letters of two bytes. -/
theorem fault_points_lines :
    let unequal : Text := "# é\r\nA='ö'\n  Bc d\n".toList
    let unclosed : Text := "A='ö'\n B=```x\né".toList
    ∃ first second,
      read .standard unequal = .error first ∧ read .standard unclosed = .error second ∧
      Text.slice? first.span.start first.span.stop (Text.unixLines unequal) = some ['B', 'c'] ∧
      Text.slice? second.span.start second.span.stop (Text.unixLines unclosed) =
        some ['`', '`', '`'] ∧
      first.span.locate (Text.unixLines unequal) = ⟨3, 2, "  Bc d".toList⟩ ∧
      second.span.locate (Text.unixLines unclosed) = ⟨2, 3, " B=```x".toList⟩ := by
  intro unequal unclosed
  obtain ⟨_, _, part, -, -, -, -, -, -, sliced, -, isNamed⟩ := fault_points .standard unequal _ rfl
  obtain ⟨_, _, other, -, -, -, -, -, -, slicedOther, -, isNamedOther⟩ :=
    fault_points .standard unclosed _ rfl
  cases isNamed _ rfl
  cases isNamedOther _ rfl
  exact ⟨_, _, rfl, rfl, sliced, slicedOther, by decide +kernel, by decide +kernel⟩

end Document

end Dotenv
