import Dotenv.Proofs.Reading.Decorators
/-!
# Runs of comment lines

The comment lines above an item, or in a header, read again after decorators in them were changed.
A run is read again if every decorator in it ends where the next one begins. If one does not, then
the run that is read says something else there, if it can be read at all.
-/

set_option autoImplicit false

namespace Dotenv

/-! ## Lines of their own -/

def CommentLine.Formed : CommentLine → Prop
  | plain comment => LineClass.of comment.render = .comment ∧
      readComment comment.render = .ok (.inr (.plain comment))
  | decorated line => ∃ indent, Text.skipGap indent = [] ∧ line.Formed (indent ++ ['#'])

theorem LineClass.of_comment (indent rest : Text) (isGap : Text.skipGap indent = []) :
    of (indent ++ '#' :: rest) = .comment := by
  rw [of, (Scan.gap_solid_append isGap '#' rest rfl).2]
  rfl

theorem readComment_gap (indent afterHash : Text) (isGap : Text.skipGap indent = [])
    (noDivider : Scan.isDivider afterHash = false) :
    readComment (indent ++ '#' :: afterHash) =
      (Scan.comment (indent ++ ['#']) afterHash).map .inr := by
  obtain ⟨sameGap, isHash⟩ := Scan.gap_solid_append isGap '#' afterHash rfl
  simp only [readComment, sameGap, isHash, List.drop_one, List.tail_cons, noDivider,
    Bool.false_eq_true, if_false]

theorem comment_of_readComment (text : Text) (line : CommentLine)
    (read : readComment text = .ok (.inr line)) :
    Scan.comment (Text.gap text ++ ['#']) ((Text.skipGap text).drop 1) = .ok line := by
  simp only [readComment] at read
  split at read
  · cases read
  · obtain ⟨found, isLine, same⟩ := (map_eq_ok _ _ _).mp read
    cases same
    exact isLine

theorem readComment_formed (text : Text) (isComment : LineClass.of text = .comment)
    (line : CommentLine) (read : readComment text = .ok (.inr line)) :
    line.render = text ∧ line.Formed := by
  have written : line.render = text := readComment_written text _ isComment read
  refine ⟨written, ?_⟩
  cases line with
  | plain comment =>
    have same : comment.render = text := written
    rw [CommentLine.Formed, same]
    exact ⟨isComment, read⟩
  | decorated line =>
    have isLine := comment_of_readComment text _ read
    exact ⟨Text.gap text, Scan.skipGap_gap text, Scan.comment_formed _ _ line isLine⟩

/-- A comment line is read again if its decorators hold; what is read if they do not says something
else. -/
theorem CommentLine.Formed.rereads {line : CommentLine} (formed : line.Formed) :
    LineClass.of line.render = .comment ∧
      (line.Holds → readComment line.render = .ok (.inr line)) ∧
      (¬ line.Holds → ∀ found, readComment line.render = .ok found → ∃ other, found = .inr other ∧
        ∀ bare, Diverge (other.sayings bare) (line.sayings bare)) := by
  cases line with
  | plain comment => exact ⟨formed.1, fun _ => formed.2, fun lost => absurd trivial lost⟩
  | decorated line =>
    obtain ⟨indent, isGap, lineFormed⟩ := formed
    obtain ⟨afterHash, isText, noDivider, again, lost⟩ := Scan.comment_rereads lineFormed
    have isLine : (decorated line).render = indent ++ '#' :: afterHash := by
      rw [render, isText, List.append_assoc]
      rfl
    rw [isLine, readComment_gap indent afterHash isGap noDivider]
    refine ⟨LineClass.of_comment indent afterHash isGap, fun holds => ?_,
      fun loses found read => ?_⟩
    · rw [again holds]
      rfl
    · obtain ⟨other, isComment, rfl⟩ := (map_eq_ok _ _ _).mp read
      exact ⟨other, rfl, lost loses other isComment⟩

theorem readComment_holds (text : Text) (line : CommentLine)
    (read : readComment text = .ok (.inr line)) : line.Holds :=
  Scan.comment_holds _ _ line (comment_of_readComment text line read)

/-! ## Runs -/

theorem Portions.comment_first {run last : List CommentLine} {line : Text} {more : List Text}
    {nodes : List Node} (isComment : LineClass.of line = .comment)
    (portions : Portions run (line :: more) nodes last) :
    (∃ divider back, readComment line = .ok (.inl divider) ∧
        nodes = closedBlock run divider :: back ∧ Portions [] more back last) ∨
      ∃ comment, readComment line = .ok (.inr comment) ∧
        Portions (run ++ [comment]) more nodes last := by
  generalize isLines : line :: more = lines at portions
  cases portions with
  | done => cases isLines
  | more first portions =>
    cases first with
    | blank isBlank =>
      obtain ⟨rfl, -⟩ := List.cons.inj isLines
      rw [isComment] at isBlank
      cases isBlank
    | divider _ read =>
      obtain ⟨rfl, rfl⟩ := List.cons.inj isLines
      exact Or.inl ⟨_, _, read, rfl, portions⟩
    | comment _ read =>
      obtain ⟨rfl, rfl⟩ := List.cons.inj isLines
      exact Or.inr ⟨_, read, portions⟩
    | item read =>
      obtain ⟨rfl, -⟩ := List.cons.inj isLines
      obtain ⟨head, first, after, headIs, -⟩ := read
      rw [LineClass.of_head _ head first headIs] at isComment
      cases isComment

def CommentLine.IsLine (line : CommentLine) : Prop := line.Formed ∧ '\n' ∉ line.render

theorem Portion.areLines {run next : List CommentLine} {lines : List Text} {nodes : List Node}
    (portion : Portion run lines nodes next) (areLines : Text.AreLines lines)
    (above : ∀ line ∈ run, line.IsLine) :
    (∀ comments closing, Node.block comments closing ∈ nodes → ∀ line ∈ comments, line.IsLine) ∧
      ∀ line ∈ next, line.IsLine := by
  cases portion with
  | blank isBlank =>
    refine ⟨fun comments closing member => ?_, by simp⟩
    cases run with
    | nil => simp [looseBlock] at member
    | cons first rest =>
      simp only [looseBlock, List.singleton_append, List.mem_cons, Node.block.injEq, reduceCtorEq,
        List.not_mem_nil, or_false] at member
      exact member.1 ▸ above
  | divider isComment read =>
    refine ⟨fun comments closing member => ?_, by simp⟩
    cases run with
    | nil => simp [closedBlock] at member
    | cons first rest =>
      simp only [closedBlock, List.mem_singleton, Node.block.injEq] at member
      exact member.1 ▸ above
  | comment isComment read =>
    rename_i text comment
    obtain ⟨rfl, formed⟩ := readComment_formed text isComment comment read
    refine ⟨by simp, fun line member => ?_⟩
    rcases List.mem_append.mp member with member | isNew
    · exact above line member
    · rw [List.mem_singleton.mp isNew]
      exact ⟨formed, areLines _ (List.mem_singleton_self _)⟩
  | item read => exact ⟨by simp, by simp⟩

theorem Portions.areLines {run last : List CommentLine} {lines : List Text} {nodes : List Node}
    (portions : Portions run lines nodes last) (areLines : Text.AreLines lines)
    (above : ∀ line ∈ run, line.IsLine) :
    (∀ comments closing, Node.block comments closing ∈ nodes → ∀ line ∈ comments, line.IsLine) ∧
      ∀ line ∈ last, line.IsLine := by
  induction portions with
  | done => exact ⟨by simp, above⟩
  | more first _ ih =>
    obtain ⟨firstLines, otherLines⟩ := (Text.areLines_append _ _).mp areLines
    obtain ⟨inFirst, next⟩ := first.areLines firstLines above
    obtain ⟨inRest, inLast⟩ := ih otherLines next
    refine ⟨fun comments closing member => ?_, inLast⟩
    rcases List.mem_append.mp member with member | member
    · exact inFirst comments closing member
    · exact inRest comments closing member

theorem Portions.above_from {start run : List CommentLine} {lines : List Text} {nodes : List Node}
    (portions : Portions start lines nodes run) :
    (∃ comments, nodes = [] ∧ run = start ++ comments ∧
        lines = comments.map CommentLine.render ∧
        ∀ line ∈ comments, line.Formed ∧ line.Holds) ∨
      ∃ upper, lines = upper ++ run.map CommentLine.render ∧ Portions start upper nodes [] ∧
        ∀ line ∈ run, line.Formed ∧ line.Holds := by
  induction portions with
  | done => exact Or.inl ⟨[], rfl, by simp, rfl, by simp⟩
  | @more start middle run lines others nodes rest first portions ih =>
    -- A portion that is no comment line leaves nothing above the lines that follow it.
    have leaves : middle = [] → ∃ upper, lines ++ others = upper ++ run.map CommentLine.render ∧
        Portions start upper (nodes ++ rest) [] ∧ ∀ line ∈ run, line.Formed ∧ line.Holds := by
      rintro rfl
      rcases ih with ⟨comments, rfl, rfl, rfl, formed⟩ | ⟨upper, rfl, upperPortions, formed⟩
      · have whole := Portions.more first .done
        rw [List.append_nil] at whole
        exact ⟨lines, rfl, whole, formed⟩
      · exact ⟨lines ++ upper, by rw [List.append_assoc], .more first upperPortions, formed⟩
    cases first with
    | blank isBlank => exact Or.inr (leaves rfl)
    | divider isComment read => exact Or.inr (leaves rfl)
    | item read => exact Or.inr (leaves rfl)
    | comment isComment read =>
      rename_i line comment
      have holds := readComment_holds line comment read
      obtain ⟨rfl, isFormed⟩ := readComment_formed line isComment comment read
      rcases ih with ⟨comments, rfl, rfl, rfl, formed⟩ | ⟨upper, rfl, upperPortions, formed⟩
      · exact Or.inl ⟨comment :: comments, rfl, by simp, rfl,
          List.forall_mem_cons.mpr ⟨⟨isFormed, holds⟩, formed⟩⟩
      · exact Or.inr ⟨_, by rw [← List.append_assoc], .more (.comment isComment read) upperPortions,
          formed⟩

theorem Portions.above {run : List CommentLine} {lines : List Text} {nodes : List Node}
    (portions : Portions [] lines nodes run) :
    ∃ upper, lines = upper ++ run.map CommentLine.render ∧ Portions [] upper nodes [] ∧
      ∀ line ∈ run, line.Formed ∧ line.Holds := by
  rcases portions.above_from with ⟨comments, rfl, rfl, rfl, formed⟩ | split
  · exact ⟨[], rfl, .done, formed⟩
  · exact split

theorem Portions.run_again (start comments : List CommentLine)
    (formed : ∀ line ∈ comments, line.Formed) (holds : ∀ line ∈ comments, line.Holds) :
    Portions start (comments.map CommentLine.render) [] (start ++ comments) := by
  induction comments generalizing start with
  | nil =>
    rw [List.append_nil]
    exact .done
  | cons line rest ih =>
    obtain ⟨isFormed, othersFormed⟩ := List.forall_mem_cons.mp formed
    obtain ⟨lineHolds, othersHold⟩ := List.forall_mem_cons.mp holds
    obtain ⟨isComment, again, -⟩ := isFormed.rereads
    have back := ih (start ++ [line]) othersFormed othersHold
    rw [List.append_assoc] at back
    exact .more (.comment isComment (again lineHolds)) back

theorem Portions.run_read {start comments last : List CommentLine} {more : List Text}
    {nodes : List Node} (formed : ∀ line ∈ comments, line.Formed)
    (portions : Portions start (comments.map CommentLine.render ++ more) nodes last) :
    ∃ found, Portions (start ++ found) more nodes last ∧
      ((∀ line ∈ comments, line.Holds) ∧ found = comments ∨ ∀ bare,
        Diverge (found.flatMap (CommentLine.sayings bare))
          (comments.flatMap (CommentLine.sayings bare))) := by
  induction comments generalizing start with
  | nil => exact ⟨[], by simpa using portions, Or.inl ⟨by simp, rfl⟩⟩
  | cons line rest ih =>
    obtain ⟨isFormed, othersFormed⟩ := List.forall_mem_cons.mp formed
    obtain ⟨isComment, again, lost⟩ := isFormed.rereads
    by_cases holds : line.Holds
    · rcases portions.comment_first isComment with ⟨divider, _, read, -⟩ | ⟨comment, read, portions⟩
      · cases read.symm.trans (again holds)
      · cases read.symm.trans (again holds)
        obtain ⟨found, back, same⟩ := ih othersFormed portions
        refine ⟨line :: found, by simpa using back, ?_⟩
        rcases same with ⟨restHolds, rfl⟩ | differs
        · exact Or.inl ⟨List.forall_mem_cons.mpr ⟨holds, restHolds⟩, rfl⟩
        · exact Or.inr fun bare => (differs bare).prepend _
    · rcases portions.comment_first isComment with ⟨divider, _, read, -⟩ | ⟨comment, read, portions⟩
      · obtain ⟨other, same, -⟩ := lost holds _ read
        cases same
      · obtain ⟨other, same, diverge⟩ := lost holds _ read
        cases same
        obtain ⟨found, back, -⟩ := ih othersFormed portions
        exact ⟨comment :: found, by simpa using back,
          Or.inr fun bare => (diverge bare).append _ _⟩

end Dotenv
