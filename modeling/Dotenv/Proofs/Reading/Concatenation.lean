import Dotenv.Proofs.Reading.Faults
import Dotenv.Proofs.Reading.Portions
/-!
# Texts read one after the other

A reader looks neither ahead nor back beyond the run of comments that it holds. So where a text ends
between two nodes, what is put behind it is read as it is read alone, but for its offsets.
-/

set_option autoImplicit false

namespace Dotenv

/-! ## Places moved to the right -/

def Fault.shift (fault : Fault) (offset : Nat) : Fault :=
  { fault with span := fault.span.shift offset }

def Item.shift (item : Item) (offset : Nat) : Item := { item with span := item.span.shift offset }

def Node.shift (node : Node) (offset : Nat) : Node :=
  match node with
  | item definition => item (definition.shift offset)
  | other => other

def OpenItem.shift (item : OpenItem) (offset : Nat) : OpenItem :=
  { item with start := item.start + offset, opening := item.opening + offset }

def Position.shift (position : Position) (offset : Nat) : Position :=
  match position with
  | between run => between run
  | inside item => inside (item.shift offset)

def readFurther {α : Type} (offset : Nat) (move : α → α) : Except Fault α → Except Fault α
  | .ok read => .ok (move read)
  | .error fault => .error (fault.shift offset)

theorem readFurther_bind {α β : Type} {offset : Nat} {move : α → α} {moveNext : β → β}
    (read : Except Fault α) (next nextFurther : α → Except Fault β)
    (further : ∀ value, nextFurther (move value) = readFurther offset moveNext (next value)) :
    (readFurther offset move read >>= nextFurther) =
      readFurther offset moveNext (read >>= next) := by
  cases read with
  | error fault => rfl
  | ok value => exact further value

theorem LineFault.inText_shift (fault : LineFault) (line : Text) (within : fault.Within line)
    (start offset : Nat) :
    fault.inText (start + offset + Text.width line) =
      (fault.inText (start + Text.width line)).shift offset := by
  have first := Text.width_le_of_suffix within.1
  have last := Text.width_le_of_suffix within.2
  simp only [inText, Fault.shift, Span.shift, Fault.mk.injEq, Span.mk.injEq, true_and]
  omega

/-! ## Lines further on -/

def Position.taken (offset : Nat) (taken : List Node × Position) : List Node × Position :=
  (taken.1.map (·.shift offset), taken.2.shift offset)

theorem shift_looseBlock (run : List CommentLine) (offset : Nat) :
    (looseBlock run).map (·.shift offset) = looseBlock run := by
  cases run <;> rfl

theorem shift_closedBlock (run : List CommentLine) (divider : Text) (offset : Nat) :
    (closedBlock run divider).shift offset = closedBlock run divider := by
  cases run <;> rfl

theorem readItem_shift (run : List CommentLine) (line : Text) (start offset : Nat) :
    readItem run line (start + offset) =
      (readItem run line start).map (Sum.map (·.shift offset) (·.shift offset)) := by
  simp only [readItem]
  cases headIs : Scan.head line with
  | error fault => rfl
  | ok found =>
    obtain ⟨head, fromValue⟩ := found
    have width := Text.width_le_of_suffix (Scan.head_suffix line head fromValue headIs)
    simp only [bind, Except.bind]
    cases Scan.beginning fromValue with
    | error fault => rfl
    | ok beginning =>
      cases beginning with
      | opened quote =>
        have opening : start + offset + Text.width line - Text.width fromValue =
            start + Text.width line - Text.width fromValue + offset := by omega
        simp only [opening]
        rfl
      | whole value rest =>
        dsimp only
        cases Scan.lineEnd rest with
        | error fault => rfl
        | ok ends =>
          have stop : start + offset + Text.width line = start + Text.width line + offset := by
            omega
          simp only [stop]
          rfl

theorem OpenItem.close_shift (item : OpenItem) (line afterValue : Text) (lineEnd offset : Nat) :
    (item.shift offset).close line afterValue (lineEnd + offset) =
      (item.close line afterValue lineEnd).map (·.shift offset) := by
  simp only [close]
  cases Scan.lineEnd afterValue with
  | error fault => rfl
  | ok found => rfl

namespace Position

theorem step_shift (position : Position) (start offset : Nat) (line : Text) :
    (position.shift offset).step (start + offset) line =
      readFurther offset (taken offset) (position.step start line) := by
  cases position with
  | between run =>
    simp only [shift, step]
    cases LineClass.of line with
    | blank =>
      simp only [readFurther, taken, List.map_append, shift_looseBlock]
      rfl
    | comment =>
      cases read : readComment line with
      | error fault =>
        have within := (readComment_points line fault read).within
        exact congrArg Except.error (fault.inText_shift line within start offset)
      | ok found =>
        cases found with
        | inl divider =>
          simp only [readFurther, taken, List.map_cons, List.map_nil, shift_closedBlock]
          rfl
        | inr comment => rfl
    | item =>
      simp only [readItem_shift]
      cases read : readItem run line start with
      | error fault =>
        have within := (readItem_points run line start fault read).within
        exact congrArg Except.error (fault.inText_shift line within start offset)
      | ok found =>
        cases found with
        | inl item => rfl
        | inr item => rfl
  | inside item =>
    have stop : start + offset + Text.width line = start + Text.width line + offset := by omega
    simp only [shift, step]
    cases found : Scan.closeBlock item.quote.mark line with
    | none =>
      simp only [OpenItem.shift, found]
      rfl
    | some afterValue =>
      have quoteIs : (item.shift offset).quote = item.quote := rfl
      have atEnd := Scan.closeBlock_suffix _ line afterValue found
      simp only [quoteIs, found, stop, item.close_shift]
      cases read : item.close line afterValue (start + Text.width line) with
      | error fault =>
        have within := (item.close_points line afterValue _ fault atEnd read).within
        rw [← stop]
        exact congrArg Except.error (fault.inText_shift line within start offset)
      | ok closed => rfl

theorem run_shift (lines : List Text) (position : Position) (start offset : Nat) :
    (position.shift offset).run (start + offset) lines =
      readFurther offset (taken offset) (position.run start lines) := by
  induction lines generalizing position start with
  | nil => rfl
  | cons line more ih =>
    have below : start + offset + Text.width line + 1 = start + Text.width line + 1 + offset := by
      omega
    simp only [run, step_shift]
    refine readFurther_bind _ _ _ fun first => ?_
    rw [below]
    simp only [taken, ih]
    refine readFurther_bind _ _ _ fun others => ?_
    simp only [readFurther, taken, List.map_append]

theorem leave_shift (position : Position) (offset : Nat) :
    (position.shift offset).leave =
      readFurther offset (List.map (·.shift offset)) position.leave := by
  cases position with
  | between run => exact congrArg Except.ok (shift_looseBlock run offset).symm
  | inside item =>
    have stop : item.opening + offset + 3 = item.opening + 3 + offset := by omega
    simp only [shift, leave, readFurther, Fault.shift, Span.shift, OpenItem.shift, stop]

theorem finish_shift (lines : List Text) (position : Position) (start offset : Nat) :
    (position.shift offset).finish (start + offset) lines =
      readFurther offset (List.map (·.shift offset)) (position.finish start lines) := by
  simp only [finish, run_shift]
  refine readFurther_bind _ _ _ fun ran => ?_
  simp only [taken, leave_shift]
  refine readFurther_bind _ _ _ fun rest => ?_
  simp only [readFurther, List.map_append]

theorem below_eq (start : Nat) (lines : List Text) :
    below start lines = start + Text.width (Text.closed lines) := by
  induction lines generalizing start with
  | nil => rfl
  | cons line more ih =>
    have newline : '\n'.utf8Size = 1 := rfl
    rw [below, ih, Text.closed_cons, Text.width_append, Text.width_cons, newline]
    omega

/-- A run that ends without a block of comments as its last node ends between nodes, under no
comments. -/
theorem finish_settled (start : Nat) (lines : List Text) (position : Position) (nodes : List Node)
    (finished : position.finish start lines = .ok nodes)
    (settled : ∀ comments, nodes.getLast? ≠ some (.block comments none)) :
    position.run start lines = .ok (nodes, .between []) := by
  simp only [finish, bind_eq_ok] at finished
  obtain ⟨⟨taken, final⟩, ran, rest, left, same⟩ := finished
  cases same
  cases final with
  | inside item => cases left
  | between run =>
    cases left
    cases run with
    | nil => simpa only [looseBlock, List.append_nil] using ran
    | cons first more =>
      refine absurd ?_ (settled (first :: more))
      simp only [looseBlock, List.getLast?_append, List.getLast?_singleton, Option.some_or]

end Position

/-! ## Documents -/

def Node.readWith (options : ReadOptions) (node : Node) : Node :=
  if options.expand then node.expand options.bareNames else node

theorem Node.readWith_shift (options : ReadOptions) (node : Node) (offset : Nat) :
    (node.shift offset).readWith options = (node.readWith options).shift offset := by
  unfold readWith
  split
  · cases node <;> rfl
  · rfl

theorem Node.readWith_block (options : ReadOptions) (comments : List CommentLine) :
    ∃ read, (Node.block comments none).readWith options = .block read none := by
  unfold readWith
  split
  · exact ⟨_, rfl⟩
  · exact ⟨_, rfl⟩

namespace Document

theorem read_eq (options : ReadOptions) (source : Text) :
    read options source =
      ((Position.between []).finish 0 (Text.lines (Text.unixLines source))).map fun nodes =>
        ⟨nodes.map (Node.readWith options), Text.endsWithNewline source⟩ := by
  rw [read, readVerbatim_eq, Text.endsWithNewline_unixLines]
  cases (Position.between []).finish 0 (Text.lines (Text.unixLines source)) with
  | error fault => rfl
  | ok nodes =>
    refine congrArg Except.ok ?_
    cases expands : options.expand with
    | true =>
      have each : Node.readWith options = Node.expand options.bareNames := by
        funext node
        simp only [Node.readWith, expands, if_true]
      simp only [each, if_true]
      rfl
    | false =>
      have each : Node.readWith options = id := by
        funext node
        simp only [Node.readWith, expands]
        rfl
      simp only [each, List.map_id]
      rfl

theorem finish_append_text (front back : Text) (nodes : List Node)
    (finished : (Position.between []).finish 0 (Text.lines (Text.unixLines front)) = .ok nodes)
    (ends : Text.endsWithNewline front)
    (settled : ∀ comments, nodes.getLast? ≠ some (.block comments none)) :
    (Position.between []).finish 0 (Text.lines (Text.unixLines (front ++ back))) =
      (readFurther (Text.width (Text.unixLines front))
        (List.map (·.shift (Text.width (Text.unixLines front))))
        ((Position.between []).finish 0 (Text.lines (Text.unixLines back)))).map (nodes ++ ·) := by
  have unixEnds : Text.endsWithNewline (Text.unixLines front) := by
    rwa [Text.endsWithNewline_unixLines]
  have ran := Position.finish_settled 0 _ _ nodes finished settled
  have start : Position.below 0 (Text.lines (Text.unixLines front)) =
      0 + Text.width (Text.unixLines front) := by
    rw [Position.below_eq, Text.closed_lines, if_pos (Or.inr unixEnds), List.append_nil]
  have again := Position.finish_shift (Text.lines (Text.unixLines back)) (.between []) 0
    (Text.width (Text.unixLines front))
  rw [Text.unixLines_append_newline front back ends, Text.lines_append _ _ unixEnds,
    Position.finish_append, ran]
  rw [← again, ← start]
  rfl

/-- A text that ends between two nodes, with no comments left over, and another behind it: the
nodes of both, or the fault of the other, which are as many bytes further on. -/
theorem read_append (options : ReadOptions) (front back : Text) (document : Document)
    (reads : read options front = .ok document) (ends : Text.endsWithNewline front)
    (settled : ∀ comments, document.nodes.getLast? ≠ some (.block comments none)) :
    (∀ more, read options back = .ok more →
      read options (front ++ back) =
        .ok ⟨document.nodes ++ more.nodes.map (·.shift (Text.width (Text.unixLines front))),
          back.isEmpty || more.trailingNewline⟩) ∧
      ∀ fault, read options back = .error fault →
        read options (front ++ back) =
          .error (fault.shift (Text.width (Text.unixLines front))) := by
  rw [read_eq, map_eq_ok] at reads
  obtain ⟨nodes, finished, rfl⟩ := reads
  have settledVerbatim : ∀ comments, nodes.getLast? ≠ some (.block comments none) := by
    intro comments last
    obtain ⟨read_, isBlock⟩ := Node.readWith_block options comments
    refine settled read_ ?_
    rw [List.getLast?_map, last, Option.map_some, isBlock]
  have whole := finish_append_text front back nodes finished ends settledVerbatim
  have final : Text.endsWithNewline (front ++ back) =
      (back.isEmpty || Text.endsWithNewline back) := by
    rw [Text.endsWithNewline_append]
    cases back with
    | nil => exact ends
    | cons c rest => rfl
  refine ⟨fun more readsMore => ?_, fun fault refused => ?_⟩
  · rw [read_eq, map_eq_ok] at readsMore
    obtain ⟨others, finishedMore, rfl⟩ := readsMore
    rw [read_eq, whole, finishedMore, final]
    simp only [readFurther, Except.map, List.map_append, List.map_map, Function.comp_def,
      Node.readWith_shift]
  · rw [read_eq, map_eq_error] at refused
    rw [read_eq, whole, refused]
    rfl

/-- An item of four bytes, its line end made a bare newline, with an item and with a line without a
key behind it. -/
theorem read_append_item :
    let front : Text := "A=1\r\n".toList
    ∃ document more, read .standard front = .ok document ∧
      read .standard ['B', '=', '2'] = .ok more ∧
      read .standard (front ++ ['B', '=', '2']) =
        .ok ⟨document.nodes ++ more.nodes.map (·.shift 4), false⟩ ∧
      read .standard (front ++ ['=']) = .error ⟨.invalidKey [], ⟨4, 4⟩⟩ := by
  intro front
  have appended := read_append .standard front
  refine ⟨_, _, rfl, rfl, ?_, ?_⟩
  · exact (appended _ _ rfl rfl fun comments last => nomatch last).1 _ rfl
  · exact (appended ['='] _ rfl rfl fun comments last => nomatch last).2 _ rfl

end Document

end Dotenv
