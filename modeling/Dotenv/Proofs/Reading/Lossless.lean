import Dotenv.Proofs.Reading.Scan
import Dotenv.Proofs.Reading.Steps
import Dotenv.Proofs.Text.LineEnds
/-!
# Reading loses nothing

A document that was read renders as the text that it was read from, its line ends as bare
newlines. The invariant of the reader: what it has left behind, and what it holds where it
stands, are together the lines that it has taken.
-/

set_option autoImplicit false

namespace Dotenv

theorem Document.render_eq (nodes : List Node) (text : Text)
    (same : Text.closed (nodes.map Node.render) = Text.closed (Text.lines text)) :
    (Document.mk nodes (Text.endsWithNewline text)).render = text := by
  rw [Text.closed_lines] at same
  cases nodes with
  | nil =>
    have none : text = [] := by
      cases text with
      | nil => rfl
      | cons c rest => simp [Text.closed_nil] at same
    subst none
    rfl
  | cons first rest =>
    rw [List.map_cons, ← Text.closed_join] at same
    simp only [render, List.map_cons]
    by_cases none : text = []
    · subst none
      simp at same
    · by_cases ends : Text.endsWithNewline text
      · simpa [none, ends] using same
      · simpa [none, ends] using same

/-! ## What a reader holds -/

def OpenItem.render (item : OpenItem) : Text := item.head.render ++ item.raw

def Position.held : Position → List Text
  | .between run => run.map CommentLine.render
  | .inside item => item.above.map CommentLine.render ++ [item.render]

theorem closed_looseBlock (run : List CommentLine) :
    Text.closed ((looseBlock run).map Node.render) = Text.closed (run.map CommentLine.render) := by
  cases run with
  | nil => rfl
  | cons first rest =>
    simp only [looseBlock, List.map_cons, List.map_nil, Node.render, Node.renderBlock,
      Option.toList_none, List.append_nil]
    rw [Text.closed_singleton, Text.closed_join]

theorem closed_closedBlock (run : List CommentLine) (divider : Text) :
    Text.closed ([closedBlock run divider].map Node.render) =
      Text.closed (run.map CommentLine.render ++ [divider]) := by
  cases run with
  | nil => rfl
  | cons first rest =>
    simp only [closedBlock, List.map_cons, List.map_nil, Node.render, Node.renderBlock,
      Option.toList_some, List.cons_append]
    rw [Text.closed_singleton, Text.closed_join]

theorem closed_item (item : Item) :
    Text.closed ([Node.item item].map Node.render) =
      Text.closed (item.above.map CommentLine.render ++ [item.renderOwn]) := by
  simp only [List.map_cons, List.map_nil, Node.render, Item.render, Text.closed,
    List.flatMap_cons, List.flatMap_nil, List.flatMap_append, List.flatMap_map, List.append_nil,
    List.append_assoc]

theorem readComment_written (line : Text) (read : Text ⊕ CommentLine)
    (isComment : LineClass.of line = .comment) (success : readComment line = .ok read) :
    read.elim id CommentLine.render = line := by
  simp only [readComment] at success
  split at success
  · cases success
    rfl
  · cases commentIs : Scan.comment (Text.gap line ++ ['#']) ((Text.skipGap line).drop 1) with
    | error fault =>
      rw [commentIs] at success
      cases success
    | ok comment =>
      rw [commentIs] at success
      cases success
      have whole := Scan.comment_append _ _ comment commentIs
      have gap := Text.gap_append_skipGap line
      simp only [LineClass.of] at isComment
      split at isComment
      · cases isComment
      · rename_i c rest found
        split at isComment
        · rename_i isHash
          rw [found, isHash] at gap whole
          rw [List.drop_one, List.tail_cons, List.append_assoc] at whole
          exact whole.trans gap
        · cases isComment

theorem Scan.Head.renderOwn_item (head : Scan.Head) (above : List CommentLine)
    (value : Option Term) (trailing : Option TrailingComment) (tail : Text) (span : Span)
    (rest : Text) (ends : Scan.lineEnd rest = .ok (trailing, tail)) :
    (head.item above value trailing tail span).renderOwn =
      head.render ++ ((value.map Term.render).getD [] ++ rest) := by
  rw [← Scan.lineEnd_append rest trailing tail ends]
  simp only [Scan.Head.item, Item.renderOwn, Scan.Head.render, List.append_assoc,
    List.cons_append]
  cases trailing <;> rfl

theorem readItem_written (run : List CommentLine) (line : Text) (start : Nat)
    (read : Item ⊕ OpenItem) (success : readItem run line start = .ok read) :
    match read with
    | .inl item => item.above = run ∧ item.renderOwn = line
    | .inr item => item.above = run ∧ item.render = line := by
  simp only [readItem, bind_eq_ok] at success
  obtain ⟨⟨head, fromValue⟩, headIs, beginning, beginningIs, success⟩ := success
  have whole := Scan.head_append line head fromValue headIs
  cases beginning with
  | opened quote =>
    cases success
    exact ⟨rfl, whole⟩
  | whole value rest =>
    simp only [bind_eq_ok] at success
    obtain ⟨⟨trailing, tail⟩, endIs, success⟩ := success
    cases success
    refine ⟨rfl, ?_⟩
    rw [head.renderOwn_item run value trailing tail _ rest endIs,
      Scan.beginning_append fromValue value rest beginningIs, whole]

theorem OpenItem.close_written (item : OpenItem) (line afterValue : Text) (lineEnd : Nat)
    (closed : Item) (found : Scan.closeBlock item.quote.mark line = some afterValue)
    (success : item.close line afterValue lineEnd = .ok closed) :
    closed.above = item.above ∧ closed.renderOwn = item.render ++ '\n' :: line := by
  simp only [close] at success
  cases ends : Scan.lineEnd afterValue with
  | error fault =>
    rw [ends] at success
    cases success
  | ok after =>
    rw [ends] at success
    cases success
    refine ⟨rfl, ?_⟩
    rw [item.head.renderOwn_item item.above _ after.1 after.2 _ afterValue ends]
    simp only [Option.map_some, Option.getD_some, Term.render, List.append_assoc,
      List.cons_append, OpenItem.render]
    rw [Text.before_append (Scan.closeBlock_suffix _ line afterValue found)]

namespace Position

theorem step_written (start : Nat) (line : Text) (position next : Position) (nodes : List Node)
    (success : position.step start line = .ok (nodes, next)) :
    Text.closed (nodes.map Node.render) ++ Text.closed next.held =
      Text.closed position.held ++ Text.closed [line] := by
  cases position with
  | between run =>
    simp only [step] at success
    split at success
    · cases success
      rw [List.map_append, Text.closed_append, closed_looseBlock]
      simp only [held, List.map_cons, List.map_nil, Node.render, Text.closed_nil, List.append_nil]
    · rename_i isComment
      split at success
      · cases success
      · rename_i divider read
        cases success
        have written : divider = line := readComment_written line _ isComment read
        simp only [held, List.map_nil, Text.closed_nil, List.append_nil]
        rw [closed_closedBlock, Text.closed_append, written]
      · rename_i comment read
        cases success
        have written : comment.render = line := readComment_written line _ isComment read
        simp only [held, List.map_nil, Text.closed_nil, List.nil_append, List.map_append,
          List.map_cons, Text.closed_append]
        rw [written]
    · split at success
      · cases success
      · rename_i item read
        cases success
        have written := readItem_written run line start _ read
        simp only [held, List.map_nil, Text.closed_nil, List.append_nil]
        rw [closed_item, Text.closed_append, written.1, written.2]
      · rename_i item read
        cases success
        have written := readItem_written run line start _ read
        simp only [held, List.map_nil, Text.closed_nil, List.nil_append]
        rw [Text.closed_append, written.1, written.2]
  | inside item =>
    simp only [step] at success
    split at success
    · cases success
      simp only [held, List.map_nil, Text.closed_nil, List.nil_append, Text.closed_append,
        Text.closed_singleton, OpenItem.render, List.append_assoc, List.cons_append]
    · rename_i afterValue found
      split at success
      · cases success
      · rename_i closed read
        cases success
        have written := item.close_written line afterValue _ closed found read
        rw [closed_item, written.1, written.2]
        simp only [held, List.map_nil, Text.closed_nil, List.append_nil, Text.closed_append,
          Text.closed_singleton, List.append_assoc, List.cons_append, List.nil_append]

theorem run_written (lines : List Text) (start : Nat) (position final : Position)
    (nodes : List Node) (success : position.run start lines = .ok (nodes, final)) :
    Text.closed (nodes.map Node.render) ++ Text.closed final.held =
      Text.closed position.held ++ Text.closed lines := by
  induction lines generalizing start position nodes with
  | nil =>
    cases success
    simp only [List.map_nil, Text.closed_nil, List.nil_append, List.append_nil]
  | cons line more ih =>
    simp only [run, bind_eq_ok] at success
    obtain ⟨⟨first, next⟩, stepped, ⟨others, last⟩, ran, success⟩ := success
    cases success
    have taken := step_written start line position next first stepped
    have rest := ih _ next others ran
    calc Text.closed ((first ++ others).map Node.render) ++ Text.closed last.held
        = Text.closed (first.map Node.render) ++
            (Text.closed (others.map Node.render) ++ Text.closed last.held) := by
          rw [List.map_append, Text.closed_append, List.append_assoc]
      _ = Text.closed (first.map Node.render) ++ (Text.closed next.held ++ Text.closed more) := by
          rw [rest]
      _ = Text.closed position.held ++ (Text.closed [line] ++ Text.closed more) := by
          rw [← List.append_assoc, taken, List.append_assoc]
      _ = Text.closed position.held ++ Text.closed (line :: more) := by
          rw [← Text.closed_append, List.singleton_append]

theorem leave_written (position : Position) (nodes : List Node)
    (success : position.leave = .ok nodes) :
    Text.closed (nodes.map Node.render) = Text.closed position.held := by
  cases position with
  | between run =>
    cases success
    exact closed_looseBlock run
  | inside item => cases success

theorem finish_written (lines : List Text) (start : Nat) (position : Position)
    (nodes : List Node) (success : position.finish start lines = .ok nodes) :
    Text.closed (nodes.map Node.render) = Text.closed position.held ++ Text.closed lines := by
  simp only [finish, bind_eq_ok] at success
  obtain ⟨⟨first, final⟩, ran, rest, left, success⟩ := success
  cases success
  rw [List.map_append, Text.closed_append, leave_written final rest left]
  exact run_written lines start position final first ran

end Position

/-! ## Expansion -/

namespace Term

theorem isCall_joined (quote : Quote) (parts : List Term) (hasCall : parts.any isCall) :
    (joined quote parts).isCall := by
  match parts, hasCall with
  | [part], hasCall => simpa [joined] using hasCall
  | _ :: _ :: _, _ => rfl

theorem render_withSource (source : Text) (term : Term) (call : term.isCall) :
    (term.withSource source).render = source := by
  cases term with
  | literal written => cases call
  | call name args argsSource old => simp only [withSource, render, Option.getD_some]

end Term

theorem Literal.render_expand? (bare : Bool) (literal : Literal) (term : Term)
    (expands : literal.expand? bare = some term) : term.render = literal.raw := by
  simp only [expand?] at expands
  split at expands
  · cases expands
  · split at expands
    · split at expands
      · rename_i hasCall
        cases expands
        exact Term.render_withSource _ _ (Term.isCall_joined _ _ hasCall)
      · cases expands
    · cases expands

mutual

theorem Term.render_expand (bare : Bool) : ∀ term : Term, (term.expand bare).render = term.render
  | .literal written => by
    simp only [Term.expand]
    cases expands : written.expand? bare with
    | none => rfl
    | some term =>
      simp only [Option.getD_some, Term.render]
      exact written.render_expand? bare term expands
  | .call name args argsSource source => by
    simp only [Term.expand, Term.render, Args.render, Args.renderEach_expand bare args]

theorem Args.renderEach_expand (bare : Bool) :
    ∀ args : Args, (args.expand bare).renderEach = args.renderEach
  | .nil => rfl
  | .cons key value rest => by
    simp only [Args.expand, Args.renderEach, Term.render_expand bare value,
      Args.renderEach_expand bare rest]

end

theorem Decorator.render_expand (bare : Bool) (decorator : Decorator) :
    ({ decorator with setting := decorator.setting.expand bare } : Decorator).render =
      decorator.render := by
  obtain ⟨leading, name, setting⟩ := decorator
  cases setting with
  | flag => rfl
  | assigned value =>
    simp only [Decorator.render, Setting.expand, Setting.render, Term.render_expand]
  | call args source => rfl

theorem CommentLine.render_expand (bare : Bool) (line : CommentLine) :
    (line.expand bare).render = line.render := by
  cases line with
  | plain comment => rfl
  | decorated line =>
    simp only [CommentLine.expand, CommentLine.render, DecoratorLine.render, List.flatMap_map,
      Decorator.render_expand]

theorem Item.renderOwn_expand (bare : Bool) (item : Item) :
    (item.expand bare).renderOwn = item.renderOwn := by
  obtain ⟨above, indent, exported, key, beforeEquals, afterEquals, value, trailing, tail, span⟩ :=
    item
  have sameValue : value.map (Term.render ∘ Term.expand bare) = value.map Term.render := by
    cases value with
    | none => rfl
    | some term => simp only [Option.map_some, Function.comp_apply, Term.render_expand]
  simp only [Item.expand, Item.renderOwn, Option.map_map]
  rw [sameValue]
  cases trailing with
  | none => rfl
  | some trailing => simp only [Option.map_some, CommentLine.render_expand]

theorem Item.render_expand (bare : Bool) (item : Item) :
    (item.expand bare).render = item.render := by
  simp only [Item.render, renderOwn_expand]
  simp only [Item.expand, List.flatMap_map, CommentLine.render_expand]

theorem Node.render_expand (bare : Bool) (node : Node) :
    (node.expand bare).render = node.render := by
  cases node with
  | blank raw => rfl
  | divider raw => rfl
  | block comments closing =>
    simp only [Node.expand, Node.render, Node.renderBlock, List.map_map, Function.comp_def,
      CommentLine.render_expand]
  | item definition =>
    simp only [Node.expand, Node.render, Item.render_expand]

theorem Document.render_expand (bare : Bool) (document : Document) :
    (document.expand bare).render = document.render := by
  have sameNodes : (document.nodes.map (Node.expand bare)).map Node.render =
      document.nodes.map Node.render := by
    rw [List.map_map]
    exact List.map_congr_left fun node _ => Node.render_expand bare node
  unfold Document.expand Document.render
  rw [sameNodes]

/-! ## Documents -/

theorem Document.render_readVerbatim (source : Text) (document : Document)
    (success : readVerbatim source = .ok document) : document.render = Text.unixLines source := by
  obtain ⟨finished, trailing⟩ := (readVerbatim_eq_ok source document).mp success
  have written := Position.finish_written _ _ _ _ finished
  simp only [Position.held, List.map_nil, Text.closed_nil, List.nil_append] at written
  obtain ⟨nodes, trailingNewline⟩ := document
  cases trailing
  exact render_eq nodes (Text.unixLines source) written

/-- Every document that was read renders as its text, whatever the options. -/
theorem Document.render_read (options : ReadOptions) (source : Text) (document : Document)
    (success : read options source = .ok document) :
    document.render = Text.unixLines source := by
  simp only [read] at success
  cases verbatim : readVerbatim source with
  | error fault =>
    rw [verbatim] at success
    cases success
  | ok written =>
    rw [verbatim] at success
    cases success
    have whole := render_readVerbatim source written verbatim
    split
    · rw [render_expand]
      exact whole
    · exact whole

theorem Document.render_read_two_lines :
    let source := "# @secret\r\nexport A=\"x$B\" # y\r\n".toList
    ∃ document, read .standard source = .ok document ∧
      document.render = "# @secret\nexport A=\"x$B\" # y\n".toList := by
  intro source
  exact ⟨_, rfl, (render_read .standard source _ rfl).trans rfl⟩

/-! ## Reading what was printed

A document that was read prints as its text with bare newlines, and that text is made ready for
reading once more. So the document is read back as it is where this changes nothing, and the
doubled carriage returns of the text are the only obstacle: where there are some, the document
that is read back, if there is one, prints differently. -/

namespace Document

theorem read_eq_ok (options : ReadOptions) (source : Text) (document : Document) :
    read options source = .ok document ↔
      ∃ written, readVerbatim source = .ok written ∧
        (if options.expand then written.expand options.bareNames else written) = document :=
  map_eq_ok _ _ _

theorem render_ifExpanded (options : ReadOptions) (document : Document) :
    (if options.expand then document.expand options.bareNames else document).render =
      document.render := by
  split
  · exact render_expand _ document
  · rfl

theorem read_congr (options : ReadOptions) {source other : Text}
    (same : Text.unixLines source = Text.unixLines other) :
    read options source = read options other := by
  simp only [read, readVerbatim, same]

/-- A document that was read is read back from what it prints as, exactly where its text doubles no
carriage return in front of a newline; otherwise nothing that prints alike is read back. -/
theorem reread_iff (options : ReadOptions) (source : Text) (document : Document)
    (success : read options source = .ok document) :
    (read options document.render = .ok document ↔ ¬ source.DoublesReturn) ∧
      (source.DoublesReturn → ∀ again, read options document.render = .ok again →
        again.render ≠ document.render) := by
  have printed : ∀ text read_, read options text = .ok read_ →
      read_.render = Text.unixLines text := by
    intro text read_ reads
    obtain ⟨written, verbatim, rfl⟩ := (read_eq_ok options text read_).mp reads
    rw [render_ifExpanded]
    exact render_readVerbatim text written verbatim
  have isText := printed source document success
  have differs : source.DoublesReturn → ∀ again, read options document.render = .ok again →
      again.render ≠ document.render := by
    intro doubled again reads same
    rw [printed _ again reads, isText] at same
    exact (Text.unixLines_unixLines_iff source).mp same doubled
  refine ⟨⟨fun reads doubled => differs doubled document reads rfl, fun single => ?_⟩, differs⟩
  have again := (Text.unixLines_unixLines_iff source).mpr single
  rw [isText, read_congr options again, success]

/-- Carriage returns at the ends of lines and alone in a value and in a comment. -/
theorem reread_iff_returns :
    let source : Text := "# a\rb\r\nA=\"x\r\" # y\r\n".toList
    ∃ document, read .standard source = .ok document ∧ ¬ source.DoublesReturn ∧
      read .standard document.render = .ok document := by
  intro source
  have single : ¬ source.DoublesReturn := by decide +kernel
  exact ⟨_, rfl, single, (reread_iff .standard source _ rfl).1.mpr single⟩

example :
    let source : Text := ['#', '@', 'a', '=', '\r', '\r', '\n']
    source.DoublesReturn ∧ (read .standard source).toOption.isSome ∧
      (read .standard (Text.unixLines source)).toOption = none := by
  intro source
  decide +kernel

end Document

end Dotenv
