import Dotenv.Proofs.Edit.Header
import Dotenv.Proofs.Reading.Concatenation
/-!
# New headers

The lines of a new header are put into the document as they are, and nothing is read. What is
read from the document afterwards begins with that header: with a plain comment for each line,
unless a line is a divider or begins with a decorator, and with the divider alone where there are
no lines.
-/

set_option autoImplicit false

namespace Dotenv

/-! ## Blanks at the ends -/

namespace Text

theorem trim_return (text : Text) : trim (text ++ ['\r']) = trim text := by
  have isBlankReturn : isBlank '\r' = true := by decide
  simp only [trim, trimStart, List.dropWhile_append]
  split
  · rename_i allBlank
    rw [List.isEmpty_iff.mp allBlank]
    simp [List.dropWhile, isBlankReturn]
  · simp [trimEnd, dropEndWhile, List.reverse_append, isBlankReturn]

theorem trim_withoutReturn (line : Text) : trim (withoutReturn line) = trim line := by
  rcases withoutReturn_cases line with same | ends
  · rw [← same]
  · conv_rhs => rw [ends]
    exact (trim_return _).symm

theorem trim_space (text : Text) : trim (' ' :: text) = trim text := by
  have isBlankSpace : isBlank ' ' = true := by decide
  simp only [trim, trimStart, List.dropWhile_cons, isBlankSpace, if_true]

end Text

/-! ## Lines that are read as remarks -/

theorem Scan.isDivider_congr {text other : Text} (same : Text.trim text = Text.trim other) :
    isDivider text = isDivider other := by
  simp only [isDivider, same]

/-- A line that is read as a plain comment behind a hash: it is no divider and does not begin with
a decorator. -/
def Text.IsRemark (line : Text) : Prop :=
  Scan.isDivider line = false ∧ (Text.skipGap line).head? ≠ some '@'

instance (line : Text) : Decidable line.IsRemark := inferInstanceAs (Decidable (_ ∧ _))

theorem Text.IsRemark.withoutReturn {line : Text} (remark : line.IsRemark) :
    (Text.withoutReturn line).IsRemark := by
  refine ⟨(Scan.isDivider_congr (trim_withoutReturn line)).trans remark.1, fun at_ => ?_⟩
  rcases withoutReturn_cases line with same | ends
  · rw [← same] at at_
    exact remark.2 at_
  · obtain ⟨rest, isRest⟩ := List.head?_eq_some_iff.mp at_
    refine remark.2 ?_
    rw [ends, skipGap, List.dropWhile_append]
    rw [skipGap] at isRest
    simp [isRest]

theorem Text.IsRemark.formed {line : Text} (remark : line.IsRemark) :
    (CommentLine.plain (.new line)).Formed := by
  have noDivider : Scan.isDivider (' ' :: line) = false :=
    (Scan.isDivider_congr (trim_space line)).trans remark.1
  have isPlain : Scan.comment ['#'] (' ' :: line) = .ok (.plain (.new line)) := by
    unfold Scan.comment
    split
    · rename_i rest begins
      exact absurd (congrArg List.head? begins) remark.2
    · rfl
  refine ⟨LineClass.of_comment [] (' ' :: line) rfl, ?_⟩
  have read := readComment_gap [] (' ' :: line) rfl noDivider
  rw [List.nil_append, List.nil_append, isPlain] at read
  exact read

/-! ## The header -/

def CommentLine.remarks (lines : List Text) : List CommentLine :=
  lines.map fun line => .plain (.new (Text.withoutReturn line))

def Node.newHeader (lines : List Text) : Node :=
  .block (lines.map fun line => .plain (.new line)) (some plainDivider)

theorem Node.closed_newHeader (lines : List Text) :
    (newHeader lines).render ++ ['\n'] =
      Text.closed (lines.map (fun line => '#' :: ' ' :: line) ++ [plainDivider]) := by
  have isText : (newHeader lines).render =
      Text.join ['\n'] (lines.map (fun line => '#' :: ' ' :: line) ++ [plainDivider]) := by
    simp only [newHeader, render, renderBlock, List.map_map]
    rfl
  rw [isText]
  cases lines with
  | nil => exact Text.closed_join _ _
  | cons line more => exact Text.closed_join _ _

theorem Node.readWith_remarks (options : ReadOptions) (lines : List Text) (divider : Text) :
    (closedBlock (CommentLine.remarks lines) divider).readWith options =
      closedBlock (CommentLine.remarks lines) divider := by
  unfold readWith
  split
  · cases lines with
    | nil => rfl
    | cons line more =>
      simp [CommentLine.remarks, closedBlock, expand, CommentLine.expand]
  · rfl

theorem Node.endsWithNewline_newHeader (lines : List Text) :
    Text.endsWithNewline ((newHeader lines).render ++ ['\n']) = true := by
  simp [Text.endsWithNewline]

theorem Position.finish_newHeader {lines : List Text} (areLines : Text.AreLines lines)
    (remarks : ∀ line ∈ lines, line.IsRemark) :
    (Position.between []).finish 0
        (Text.lines (Text.unixLines ((Node.newHeader lines).render ++ ['\n']))) =
      .ok [closedBlock (CommentLine.remarks lines) plainDivider] := by
  have written :
      Text.AreLines (lines.map (fun line => '#' :: ' ' :: line) ++ [plainDivider]) := by
    refine Text.AreLines.append (fun text member => ?_) (by simp [Text.AreLines, plainDivider])
    obtain ⟨line, inLines, rfl⟩ := List.mem_map.mp member
    simpa using areLines line inLines
  have kept : (lines.map (fun line => '#' :: ' ' :: line) ++ [plainDivider]).map
      Text.withoutReturn =
        (CommentLine.remarks lines).map CommentLine.render ++ [plainDivider] := by
    rw [List.map_append, CommentLine.remarks, List.map_map, List.map_map]
    refine congrArg₂ (· ++ ·) (List.map_congr_left fun line _ => ?_) rfl
    rw [Function.comp_apply, Text.withoutReturn_cons _ _ (by decide),
      Text.withoutReturn_cons _ _ (by decide)]
    rfl
  have isLines : Text.lines (Text.unixLines ((Node.newHeader lines).render ++ ['\n'])) =
      (CommentLine.remarks lines).map CommentLine.render ++ [plainDivider] := by
    rw [Node.closed_newHeader, Text.unixLines_closed written, kept]
    have closed := Text.lines_closed_append _ [] (kept ▸ written.withoutReturn)
    rwa [List.append_nil, Text.lines, List.append_nil] at closed
  have formed : ∀ line ∈ CommentLine.remarks lines, line.Formed ∧ line.Holds := by
    intro line member
    obtain ⟨text, inLines, rfl⟩ := List.mem_map.mp member
    exact ⟨(remarks text inLines).withoutReturn.formed, trivial⟩
  have run := Portions.run_again [] (CommentLine.remarks lines)
    (fun line member => (formed line member).1) fun line member => (formed line member).2
  obtain ⟨placed, ran, same⟩ := run.run 0
  obtain rfl := List.map_eq_nil_iff.mp same
  rw [isLines, Position.finish_append, ran]
  rfl

theorem Document.read_newHeader (options : ReadOptions) {lines : List Text}
    (areLines : Text.AreLines lines) (remarks : ∀ line ∈ lines, line.IsRemark) :
    read options ((Node.newHeader lines).render ++ ['\n']) =
      .ok ⟨[closedBlock (CommentLine.remarks lines) plainDivider], true⟩ := by
  rw [read_eq, Position.finish_newHeader areLines remarks, Node.endsWithNewline_newHeader]
  simp only [Except.map, List.map_cons, List.map_nil, Node.readWith_remarks]

theorem Position.finish_newHeader_blank {lines : List Text} (areLines : Text.AreLines lines)
    (remarks : ∀ line ∈ lines, line.IsRemark) :
    (Position.between []).finish 0
        (Text.lines (Text.unixLines ((Node.newHeader lines).render ++ ['\n'] ++ ['\n']))) =
      .ok [closedBlock (CommentLine.remarks lines) plainDivider, .blank []] := by
  have closes : ∀ comments, closedBlock (CommentLine.remarks lines) plainDivider ≠
      .block comments none := by
    intro comments
    cases lines <;> exact nofun
  rw [Document.finish_append_text _ _ _ (finish_newHeader areLines remarks)
    (Node.endsWithNewline_newHeader lines) fun comments last =>
      closes comments (Option.some.inj last)]
  rfl

theorem Document.read_below (options : ReadOptions) {lines : List Text}
    (areLines : Text.AreLines lines) (remarks : ∀ line ∈ lines, line.IsRemark) (text : Text)
    (filled : text ≠ []) (document : Document) (reads : read options text = .ok document) :
    let above := (Node.newHeader lines).render ++ ['\n'] ++ ['\n']
    ∃ offset,
      Text.width (Text.unixLines (above ++ text)) = offset + Text.width (Text.unixLines text) ∧
      read options (above ++ text) =
        .ok ⟨closedBlock (CommentLine.remarks lines) plainDivider :: .blank [] ::
          document.nodes.map (·.shift offset), document.trailingNewline⟩ := by
  intro above
  have ends : Text.endsWithNewline above = true := by simp [above, Text.endsWithNewline]
  have isBlank : (Node.blank []).readWith options = .blank [] := by
    unfold Node.readWith
    split <;> rfl
  rw [read_eq, map_eq_ok] at reads
  obtain ⟨nodes, finished, rfl⟩ := reads
  refine ⟨Text.width (Text.unixLines above), ?_, ?_⟩
  · rw [Text.unixLines_append_newline _ _ ends, Text.width_append]
  · have whole := finish_append_text above text _ (Position.finish_newHeader_blank areLines remarks)
      ends fun comments last => by simp at last
    rw [read_eq, whole, finished, Text.endsWithNewline_append, if_neg filled]
    simp only [readFurther, Except.map, List.cons_append, List.nil_append, List.map_cons,
      Node.readWith_remarks, isBlank, List.map_map, Function.comp_def, Node.readWith_shift]

/-! ## Below the header -/

def Document.OpensWithDivider (document : Document) : Prop :=
  ∃ raw, (document.nodes.dropWhile Node.isBlank).head? = some (.divider raw)

/-- A new header is read as the divider where it has no lines, and else as a block with a comment
that says what each line does. -/
theorem CommentLine.closedBlock_remarks (lines : List Text) (divider : Text) :
    (lines = [] → closedBlock (remarks lines) divider = .divider divider) ∧
      (lines ≠ [] → ∃ comments : List Comment,
        closedBlock (remarks lines) divider = .block (comments.map .plain) (some divider) ∧
          comments.map Comment.contents = lines.map Text.trim) := by
  refine ⟨?_, fun filled => ⟨lines.map fun line => .new (Text.withoutReturn line), ?_, ?_⟩⟩
  · rintro rfl
    rfl
  · rw [List.map_map]
    cases lines with
    | nil => exact absurd rfl filled
    | cons line more => rfl
  · rw [List.map_map]
    refine List.map_congr_left fun line _ => ?_
    exact (Text.trim_space _).trans (Text.trim_withoutReturn line)

/-- A document with a new header: the header in front of it, and a blank line below the header if
there is more. -/
theorem Document.ensureHeader_new (lines : List Text) (document : Document)
    (noHeader : document.headerIndex = none) (noDivider : ¬ document.OpensWithDivider) :
    document.ensureHeader lines =
      if document.nodes = [] then ⟨[.newHeader lines], true⟩
      else ⟨.newHeader lines :: .blank [] :: document.nodes, document.trailingNewline⟩ := by
  have headed := document.headed_ensureHeader lines
  generalize document.ensureHeader lines = edited at headed ⊢
  cases headed with
  | @present blanks back own closing _ areBlank =>
    have found := findHeader_blanks (.block own (some closing) :: back) areBlank
    rw [Option.map_eq_none_iff.mp noHeader] at found
    cases found
  | @adopted blanks back raw _ areBlank _ =>
    refine absurd ⟨raw, ?_⟩ noDivider
    rw [List.dropWhile_append_of_pos areBlank]
    rfl
  | alone => rfl
  | inFront filled _ =>
    rw [if_neg filled]
    rfl

theorem Document.render_ensureHeader (lines : List Text) (document : Document)
    (noHeader : document.headerIndex = none) (noDivider : ¬ document.OpensWithDivider)
    (filled : document.nodes ≠ []) :
    (document.ensureHeader lines).render =
      (Node.newHeader lines).render ++ ['\n'] ++ ['\n'] ++ document.render := by
  rw [ensureHeader_new lines document noHeader noDivider, if_neg filled]
  obtain ⟨first, more, isNodes⟩ := List.exists_cons_of_ne_nil filled
  simp [render, isNodes, Text.join, Node.render]

theorem Document.render_eq_unixLines (options : ReadOptions) (source : Text) (document : Document)
    (reads : read options source = .ok document) : document.render = Text.unixLines source := by
  obtain ⟨written, verbatim, rfl⟩ := (read_eq_ok options source document).mp reads
  rw [render_ifExpanded]
  exact render_readVerbatim source written verbatim

theorem Document.render_eq_nil_iff (options : ReadOptions) (document : Document)
    (again : read options document.render = .ok document) :
    document.render = [] ↔ document.nodes = [] := by
  constructor
  · intro noText
    rw [noText, read_eq] at again
    cases again
    rfl
  · intro empty
    have isEnd : document.render = if document.trailingNewline then ['\n'] else [] := by
      simp [render, empty, Text.join]
    cases last : document.trailingNewline with
    | false => simpa [last] using isEnd
    | true =>
      rw [isEnd, last, read_eq] at again
      cases again
      cases empty

/-- A document with a new header is read back from its text: below a header with a plain comment for
each line, or below a divider where there are no lines, the nodes stand as they did. -/
theorem Document.newHeader_reread (options : ReadOptions) (source : Text) (document : Document)
    (lines : List Text) (reads : read options source = .ok document)
    (single : ¬ source.DoublesReturn) (noHeader : document.headerIndex = none)
    (noDivider : ¬ document.OpensWithDivider) (areLines : Text.AreLines lines)
    (remarks : ∀ line ∈ lines, line.IsRemark) :
    let edited := document.ensureHeader lines
    ∃ first offset,
      read options edited.render =
        .ok ⟨first :: edited.nodes.tail.map (·.shift offset), edited.trailingNewline⟩ ∧
      Text.width (Text.unixLines edited.render) = offset + Text.width document.render ∧
      (lines = [] → first = .divider plainDivider) ∧
      (lines ≠ [] → ∃ comments : List Comment,
        first = .block (comments.map .plain) (some plainDivider) ∧
          comments.map Comment.contents = lines.map Text.trim) := by
  intro edited
  have isEdited := document.ensureHeader_new lines noHeader noDivider
  have printed := render_eq_unixLines options source document reads
  have settled : Text.unixLines document.render = document.render := by
    rw [printed]
    exact (Text.unixLines_unixLines_iff source).mpr single
  have again : read options document.render = .ok document := by
    rw [read_congr options (settled.trans printed), reads]
  have noText := render_eq_nil_iff options document again
  have isFirst := CommentLine.closedBlock_remarks lines plainDivider
  refine ⟨closedBlock (CommentLine.remarks lines) plainDivider, ?_⟩
  by_cases empty : document.nodes = []
  · rw [if_pos empty] at isEdited
    have isText : edited.render = (Node.newHeader lines).render ++ ['\n'] := by
      rw [show edited = _ from isEdited]
      rfl
    refine ⟨Text.width (Text.unixLines edited.render), ?_, ?_, isFirst⟩
    · rw [isText, read_newHeader options areLines remarks, show edited = _ from isEdited]
      rfl
    · rw [noText.mpr empty, Text.width_nil, Nat.add_zero]
  · rw [if_neg empty] at isEdited
    have isText : edited.render = _ := render_ensureHeader lines document noHeader noDivider empty
    obtain ⟨offset, width, reread⟩ := read_below options areLines remarks document.render
      (mt noText.mp empty) document again
    refine ⟨offset, ?_, ?_, isFirst⟩
    · rw [isText, reread, show edited = _ from isEdited]
      rfl
    · rw [isText, width, settled]

/-- A header of two lines, the first with a carriage return at its end, the second empty. -/
theorem Document.newHeader_reread_return :
    let source : Text := "A=1\r\n".toList
    let lines : List Text := ["a\r".toList, []]
    ∃ document, read .standard source = .ok document ∧ ¬ source.DoublesReturn ∧
      document.headerIndex = none ∧ ¬ document.OpensWithDivider ∧ Text.AreLines lines ∧
      (∀ line ∈ lines, line.IsRemark) ∧
      let edited := document.ensureHeader lines
      ∃ first offset,
        read .standard edited.render =
          .ok ⟨first :: edited.nodes.tail.map (·.shift offset), edited.trailingNewline⟩ ∧
        Text.width (Text.unixLines edited.render) = offset + Text.width document.render ∧
        ∃ comments : List Comment, first = .block (comments.map .plain) (some plainDivider) ∧
          comments.map Comment.contents = [['a'], []] := by
  intro source lines
  have single : ¬ source.DoublesReturn := by decide +kernel
  have areLines : Text.AreLines lines := by simp [Text.AreLines, lines]
  have remarks : ∀ line ∈ lines, line.IsRemark := by decide +kernel
  refine ⟨_, rfl, single, rfl, ?_, areLines, remarks, ?_⟩
  · rintro ⟨raw, ⟨⟩⟩
  · obtain ⟨first, offset, reads, width, -, isBlock⟩ := newHeader_reread .standard source _ lines
      rfl single rfl (by rintro ⟨raw, ⟨⟩⟩) areLines remarks
    obtain ⟨comments, isFirst, contents⟩ := isBlock (List.cons_ne_nil _ _)
    exact ⟨first, offset, reads, width, comments, isFirst, contents.trans (by decide +kernel)⟩

/-- No header is read back where there are no lines, where the only line is a divider or begins with
an `@`, and below a decorator in front of doubled carriage returns. -/
theorem Document.newHeader_unread :
    let first (document : Document) (lines : List Text) : Option Node :=
      (read .standard (document.ensureHeader lines).render).toOption.bind (·.nodes.head?)
    (∃ document, read .standard "A=1\n".toList = .ok document ∧ document.headerIndex = none ∧
      ¬ document.OpensWithDivider ∧ first document [] = some (.divider plainDivider) ∧
      first document ["---".toList] = some (.divider plainDivider) ∧
      first document [['@']] = none) ∧
    ∃ document, read .standard "# @a=\r\r\n".toList = .ok document ∧
      document.headerIndex = none ∧ ¬ document.OpensWithDivider ∧
      first document [['a']] = none := by
  intro first
  have printed : ∀ source document lines, read .standard source = .ok document →
      document.headerIndex = none → ¬ document.OpensWithDivider → document.nodes ≠ [] →
      first document lines = (read .standard ((Node.newHeader lines).render ++ ['\n'] ++ ['\n'] ++
        Text.unixLines source)).toOption.bind (·.nodes.head?) := by
    intro source document lines reads noHeader noDivider filled
    rw [← render_eq_unixLines .standard source document reads,
      ← render_ensureHeader lines document noHeader noDivider filled]
  have plain := fun lines => printed "A=1\n".toList _ lines rfl rfl (by rintro ⟨raw, ⟨⟩⟩)
    (List.cons_ne_nil _ _)
  have doubled := printed "# @a=\r\r\n".toList _ [['a']] rfl rfl (by rintro ⟨raw, ⟨⟩⟩)
    (List.cons_ne_nil _ _)
  refine ⟨⟨_, rfl, rfl, by rintro ⟨raw, ⟨⟩⟩, ?_, ?_, ?_⟩, _, rfl, rfl, by rintro ⟨raw, ⟨⟩⟩, ?_⟩
  · exact (plain []).trans (by decide +kernel)
  · exact (plain ["---".toList]).trans (by decide +kernel)
  · exact (plain [['@']]).trans (by decide +kernel)
  · exact doubled.trans (by decide +kernel)

end Dotenv
