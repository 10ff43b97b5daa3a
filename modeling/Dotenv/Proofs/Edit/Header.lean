import Dotenv.Proofs.Edit.Reread
import Dotenv.Proofs.Reading.Runs
/-!
# Other comments in a header

An edit of the header finds the divider that closes it: the first node below blank lines that is
one or ends with one, or a new divider in front of everything else. The lines above that divider are
read again just when their decorators hold.
-/

set_option autoImplicit false

namespace Dotenv

/-! ## Below blank lines -/

section
variable (change : List CommentLine → List CommentLine) {blanks : List Node} (rest : List Node)

theorem Node.updateHeader_blanks (areBlank : ∀ node ∈ blanks, node.isBlank = true) :
    updateHeader change (blanks ++ rest) = blanks ++ updateHeader change rest := by
  induction blanks with
  | nil => rfl
  | cons node more ih =>
    have others := ih fun other member => areBlank other (List.mem_cons_of_mem node member)
    cases node with
    | blank raw => simp only [List.cons_append, updateHeader, others]
    | _ => cases areBlank _ List.mem_cons_self

theorem Node.adoptDivider_blanks (areBlank : ∀ node ∈ blanks, node.isBlank = true) :
    adoptDivider (blanks ++ rest) = (adoptDivider rest).map (blanks ++ ·) := by
  induction blanks with
  | nil => simp
  | cons node more ih =>
    have others := ih fun other member => areBlank other (List.mem_cons_of_mem node member)
    cases node with
    | blank raw =>
      simp only [List.cons_append, adoptDivider, others, Option.map_map]
      rfl
    | _ => cases areBlank _ List.mem_cons_self

theorem Document.findHeader_blanks (areBlank : ∀ node ∈ blanks, node.isBlank = true) :
    (findHeader (blanks ++ rest)).map Prod.snd = (findHeader rest).map Prod.snd := by
  induction blanks with
  | nil => rfl
  | cons node more ih =>
    have others := ih fun other member => areBlank other (List.mem_cons_of_mem node member)
    cases node with
    | blank raw =>
      simp only [List.cons_append, findHeader, Option.map_map]
      exact others
    | _ => cases areBlank _ List.mem_cons_self

theorem Node.isBlank_expand (bare : Bool) (areBlank : ∀ node ∈ blanks, node.isBlank = true) :
    ∀ node ∈ blanks.map (expand bare), node.isBlank = true := by
  intro node member
  obtain ⟨raw, inBlanks, rfl⟩ := List.mem_map.mp member
  have isBlank := areBlank raw inBlanks
  cases raw with
  | blank text => rfl
  | _ => cases isBlank

end

section
variable (bare : Bool) {blanks : List Node} (areBlank : ∀ node ∈ blanks, node.isBlank = true)
  (comments : List CommentLine) (closing : Text) (rest : List Node) (trailingNewline : Bool)
include areBlank

theorem Document.headerComments_expand :
    (expand bare ⟨blanks ++ .block comments (some closing) :: rest,
      trailingNewline⟩).headerComments = comments.map (CommentLine.expand bare) := by
  have found : (findHeader ((blanks ++ Node.block comments (some closing) :: rest).map
      (Node.expand bare))).map Prod.snd =
        some (comments.map (CommentLine.expand bare), closing) := by
    rw [List.map_append, findHeader_blanks _ (Node.isBlank_expand bare areBlank)]
    rfl
  obtain ⟨⟨place, parts⟩, isFound, isParts⟩ := Option.map_eq_some_iff.mp found
  obtain rfl : parts = _ := isParts
  simp only [headerComments, expand, isFound]

theorem Document.contents_header :
    (expand bare ⟨blanks ++ .block comments (some closing) :: rest,
      trailingNewline⟩).contents.header = comments.flatMap (CommentLine.sayings bare) := by
  simp only [contents, decorators, headerComments_expand bare areBlank, List.flatMap_map,
    List.map_flatMap, CommentLine.decorators_expand, List.map_map]
  rfl

end

/-! ## The header of an edit -/

/-- A document that has a header: it had one, or the divider at its start has become one that prints
the same, or it has one of the given comments in front, a blank line below it if there is more. -/
inductive Document.Headed (comments : List CommentLine) : Document → Document → Prop
  | present {blanks back : List Node} {own : List CommentLine} {closing : Text}
      {trailingNewline : Bool} (areBlank : ∀ node ∈ blanks, node.isBlank = true) :
      Headed comments ⟨blanks ++ .block own (some closing) :: back, trailingNewline⟩
        ⟨blanks ++ .block own (some closing) :: back, trailingNewline⟩
  | adopted {blanks back : List Node} {raw : Text} {trailingNewline : Bool}
      (areBlank : ∀ node ∈ blanks, node.isBlank = true)
      (prints : (Document.mk (blanks ++ .block [] (some raw) :: back) trailingNewline).render =
        (Document.mk (blanks ++ .divider raw :: back) trailingNewline).render) :
      Headed comments ⟨blanks ++ .divider raw :: back, trailingNewline⟩
        ⟨blanks ++ .block [] (some raw) :: back, trailingNewline⟩
  | alone {trailingNewline : Bool} :
      Headed comments ⟨[], trailingNewline⟩ ⟨[.block comments (some plainDivider)], true⟩
  | inFront {nodes : List Node} {trailingNewline : Bool} (filled : nodes ≠ [])
      (unheaded : ∀ node ∈ (nodes.dropWhile Node.isBlank).head?, node.closed? = none) :
      Headed comments ⟨nodes, trailingNewline⟩
        ⟨.block comments (some plainDivider) :: .blank [] :: nodes, trailingNewline⟩

theorem Node.split_blanks (nodes : List Node) :
    ∃ blanks rest, nodes = blanks ++ rest ∧ (∀ node ∈ blanks, Node.isBlank node = true) ∧
      nodes.dropWhile Node.isBlank = rest ∧ ∀ node ∈ rest.head?, node.isBlank = false := by
  refine ⟨nodes.takeWhile Node.isBlank, nodes.dropWhile Node.isBlank,
    List.takeWhile_append_dropWhile.symm, fun other => List.mem_takeWhile_imp, rfl, ?_⟩
  intro node isHead
  have stops := List.head?_dropWhile_not Node.isBlank nodes
  rwa [Option.mem_def.mp isHead] at stops

theorem Document.headed_ensureHeader (lines : List Text) (document : Document) :
    document.Headed (lines.map fun line => .plain (.new line)) (document.ensureHeader lines) := by
  obtain ⟨nodes, trailingNewline⟩ := document
  obtain ⟨blanks, rest, isNodes, areBlank, isRest, stops⟩ := Node.split_blanks nodes
  have adopts := Node.adoptDivider_blanks rest areBlank
  have finds := Document.findHeader_blanks rest areBlank
  rw [← isNodes] at adopts finds
  have isNew (noDivider : Node.adoptDivider rest = none) (noHeader : findHeader rest = none)
      (unheaded : ∀ node ∈ rest.head?, node.closed? = none) :
      Headed (lines.map fun line => .plain (.new line)) ⟨nodes, trailingNewline⟩
        (ensureHeader lines ⟨nodes, trailingNewline⟩) := by
    rw [noDivider, Option.map_none] at adopts
    rw [noHeader, Option.map_none, Option.map_eq_none_iff] at finds
    simp only [ensureHeader, adopts, headerIndex, finds, Option.map_none, Option.isSome_none,
      Bool.false_eq_true, if_false]
    rw [← isRest] at unheaded
    cases nodes with
    | nil => exact .alone
    | cons first more => exact .inFront (List.cons_ne_nil first more) unheaded
  cases rest with
  | nil => exact isNew rfl rfl (by simp)
  | cons node back =>
    cases node with
    | blank raw => cases stops _ rfl
    | item definition => exact isNew rfl rfl (by simp [Node.closed?])
    | divider raw =>
      rw [ensureHeader, adopts, isNodes]
      exact .adopted areBlank (by simp [render, Node.render, Node.renderBlock, Text.join])
    | block comments closing =>
      cases closing with
      | none => exact isNew rfl rfl (by simp [Node.closed?])
      | some closing =>
        have isHeader : (findHeader nodes).isSome = true := by
          rw [← Option.isSome_map, finds]
          rfl
        rw [ensureHeader, adopts]
        simp only [Node.adoptDivider, Option.map_none, headerIndex, Option.isSome_map, isHeader,
          if_true]
        rw [isNodes]
        exact .present areBlank

theorem Document.headed (change : List CommentLine → List CommentLine) (document : Document) :
    (∃ blanks node back comments closing, (∀ other ∈ blanks, Node.isBlank other = true) ∧
        document.nodes = blanks ++ node :: back ∧ node.closed? = some (comments, closing) ∧
        (document.ensureHeader []).updateHeader change =
          ⟨blanks ++ .block (change comments) (some closing) :: back, document.trailingNewline⟩) ∨
      (document.ensureHeader []).updateHeader change =
        if document.nodes = [] then ⟨[.block (change []) (some plainDivider)], true⟩
        else ⟨.block (change []) (some plainDivider) :: .blank [] :: document.nodes,
          document.trailingNewline⟩ := by
  have isHeaded := document.headed_ensureHeader []
  generalize document.ensureHeader [] = edited at isHeaded ⊢
  cases isHeaded with
  | present areBlank =>
    refine Or.inl ⟨_, _, _, _, _, areBlank, rfl, rfl, ?_⟩
    rw [updateHeader, Node.updateHeader_blanks change _ areBlank]
    rfl
  | adopted areBlank =>
    refine Or.inl ⟨_, _, _, _, _, areBlank, rfl, rfl, ?_⟩
    rw [updateHeader, Node.updateHeader_blanks change _ areBlank]
    rfl
  | alone => exact Or.inr rfl
  | inFront filled =>
    rw [if_neg filled]
    exact Or.inr rfl

section
variable (bare : Bool)

theorem Node.adoptDivider_expand (nodes : List Node) :
    adoptDivider (nodes.map (expand bare)) = (adoptDivider nodes).map (List.map (expand bare)) := by
  induction nodes with
  | nil => rfl
  | cons node rest ih =>
    cases node with
    | blank raw =>
      simp only [List.map_cons, expand, adoptDivider, ih, Option.map_map]
      rfl
    | _ => rfl

theorem Node.updateHeader_expand (change expanded : List CommentLine → List CommentLine)
    (same : ∀ lines, expanded (lines.map (CommentLine.expand bare)) =
      (change lines).map (CommentLine.expand bare)) (nodes : List Node) :
    updateHeader expanded (nodes.map (expand bare)) =
      (updateHeader change nodes).map (expand bare) := by
  induction nodes with
  | nil => rfl
  | cons node rest ih =>
    cases node with
    | blank raw => simp only [List.map_cons, expand, updateHeader, ih]
    | block comments closing =>
      cases closing with
      | none => rfl
      | some closing => simp only [List.map_cons, expand, updateHeader, same]
    | _ => rfl

theorem Document.findHeader_expand (nodes : List Node) :
    (findHeader (nodes.map (Node.expand bare))).isSome = (findHeader nodes).isSome := by
  induction nodes with
  | nil => rfl
  | cons node rest ih =>
    cases node with
    | blank raw => simpa only [List.map_cons, Node.expand, findHeader, Option.isSome_map] using ih
    | block comments closing => cases closing <;> rfl
    | _ => rfl

theorem Document.headed_expand (change expanded : List CommentLine → List CommentLine)
    (same : ∀ lines, expanded (lines.map (CommentLine.expand bare)) =
      (change lines).map (CommentLine.expand bare)) (document : Document) :
    ((document.expand bare).ensureHeader []).updateHeader expanded =
      ((document.ensureHeader []).updateHeader change).expand bare := by
  have ensured : (document.expand bare).ensureHeader [] =
      (document.ensureHeader []).expand bare := by
    simp only [ensureHeader, expand, Node.adoptDivider_expand]
    cases Node.adoptDivider document.nodes with
    | some nodes => rfl
    | none =>
      simp only [Option.map_none, headerIndex, Option.isSome_map, findHeader_expand]
      cases (findHeader document.nodes).isSome with
      | true => rfl
      | false => cases document.nodes <;> rfl
  rw [ensured, updateHeader, expand, Node.updateHeader_expand bare change expanded same]
  rfl

end

/-- A document with other comments in its header is read back from its text just when their
decorators hold. -/
theorem Portions.header_survives {upper lower : List Text} {blanks back : List Node}
    {last : List CommentLine} (upperPortions : Portions [] upper blanks [])
    (lowerPortions : Portions [] lower back last)
    (areBlank : ∀ node ∈ blanks, node.isBlank = true) {comments : List CommentLine}
    (filled : comments ≠ []) (areFormed : ∀ line ∈ comments, line.IsLine) {closing : Text}
    (isComment : LineClass.of closing = .comment)
    (isDivider : readComment closing = .ok (.inl closing))
    (upperLines : Text.AreLines upper) (closedLines : Text.AreLines (closing :: lower))
    (trailingNewline : Bool) (ended : trailingNewline = false → lower.getLast? ≠ some [])
    (unix : Text.unixLines (Document.expand true ⟨blanks ++
        ([.block comments (some closing)] ++ (back ++ looseBlock last)), trailingNewline⟩).render =
      (Document.expand true ⟨blanks ++
        ([.block comments (some closing)] ++ (back ++ looseBlock last)), trailingNewline⟩).render) :
    (Document.expand true ⟨blanks ++
        ([.block comments (some closing)] ++ (back ++ looseBlock last)),
          trailingNewline⟩).Survives ↔
      ∀ line ∈ comments, line.Holds := by
  have isBlock : closedBlock comments closing = .block comments (some closing) := by
    cases comments with
    | nil => exact absurd rfl filled
    | cons first rest => rfl
  have formed : ∀ line ∈ comments, line.Formed := fun line member => (areFormed line member).1
  have commentLines : Text.AreLines (comments.map CommentLine.render) := by
    intro text member
    obtain ⟨line, inComments, rfl⟩ := List.mem_map.mp member
    exact (areFormed line inComments).2
  have written : Text.closed ([Node.block comments (some closing)].map Node.render) =
      Text.closed (([] : List CommentLine).map CommentLine.render) ++
        Text.closed (comments.map CommentLine.render ++ [closing]) := by
    rw [← isBlock, closed_closedBlock]
    rfl
  refine upperPortions.survives lowerPortions (List.cons_ne_nil _ _) written ?_ (by simp) ?_
    trailingNewline ended unix _ (fun holds => ?_) fun differs others final portions rest => ?_
  · rw [List.append_assoc]
    exact upperLines.append (commentLines.append closedLines)
  · rw [List.getLast?_concat]
    intro empty
    rw [Option.some.inj empty] at isComment
    cases isComment
  · have again := (Portions.run_again [] comments formed holds).append
      (.more (.divider isComment isDivider) .done)
    simp only [List.nil_append, List.append_nil, isBlock] at again
    exact ⟨_, again, fun rest => rfl⟩
  · rw [List.append_assoc] at portions
    obtain ⟨found, portions, sameRun⟩ := Portions.run_read formed portions
    rcases sameRun with ⟨holds, -⟩ | diverge
    · exact absurd holds differs
    · -- The divider closes whatever run is read above it, so the header says something else.
      rcases portions.comment_first isComment with ⟨divider, after, read, rfl, -⟩ | ⟨line, read, -⟩
      · rw [isDivider] at read
        cases read
        have foundBlock : closedBlock ([] ++ found) closing = .block found (some closing) := by
          cases found with
          | nil =>
            obtain ⟨front, x, more, -, -, none, -⟩ := diverge true
            simp at none
          | cons first rest => rfl
        intro sameContents
        have sameHeader := congrArg Document.Contents.header sameContents
        rw [foundBlock, List.cons_append, List.singleton_append,
          Document.contents_header true areBlank,
          Document.contents_header true areBlank] at sameHeader
        exact (diverge true).ne sameHeader
      · rw [isDivider] at read
        cases read

end Dotenv
