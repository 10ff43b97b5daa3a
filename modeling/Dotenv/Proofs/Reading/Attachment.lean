import Dotenv.Proofs.Reading.Rows
import Mathlib.Data.List.DropRight
/-!
# Where comments belong

The comment lines right above an item or a divider belong to it, as far up as there are no other
lines; those above anything else are a block of their own. The invariant along the portions of a
text: the run that a reader holds is the longest one at the end of the rows so far.
-/

set_option autoImplicit false

namespace Dotenv

/-! ## Runs at the end of rows -/

def Row.isRun (row : Row) : Bool := row.kind = .comment

theorem rtakeWhile_append_all {α : Type} (p : α → Bool) (front back : List α)
    (all : ∀ value ∈ back, p value = true) :
    (front ++ back).rtakeWhile p = front.rtakeWhile p ++ back := by
  have reversed : ∀ value ∈ back.reverse, p value = true := by
    intro value member
    exact all value (List.mem_reverse.mp member)
  rw [List.rtakeWhile, List.reverse_append, List.takeWhile_append_of_pos reversed,
    List.reverse_append, List.reverse_reverse, List.rtakeWhile]

theorem rtakeWhile_append_none {α : Type} (p : α → Bool) (front back : List α) (filled : back ≠ [])
    (none : ∀ value ∈ back, p value = false) : (front ++ back).rtakeWhile p = [] := by
  refine List.rtakeWhile_eq_nil_iff.mpr fun whole => ?_
  rw [List.getLast_append_of_ne_nil _ filled, none _ (List.getLast_mem filled)]
  exact Bool.false_ne_true

/-- Whether the name of a decorator is a letter or an underscore, and letters, digits and
underscores after it. -/
def Decorator.IsNamed (decorator : Decorator) : Prop :=
  Scan.startsName decorator.name = true ∧ decorator.name.all Scan.isNameChar = true

structure CommentLine.IsRead (line : CommentLine) : Prop where
  kind : (Row.outside line.render).kind = .comment
  named : ∀ decorator ∈ line.decorators, decorator.IsNamed

theorem kind_of_mem_runRows {run : List CommentLine} (areRead : ∀ line ∈ run, line.IsRead) :
    ∀ row ∈ runRows run, row.kind = .comment := by
  intro row member
  obtain ⟨line, inRun, rfl⟩ := List.mem_map.mp member
  exact (areRead line inRun).kind

theorem map_kind_runRows {run : List CommentLine} (areRead : ∀ line ∈ run, line.IsRead) :
    (runRows run).map Row.kind = run.map fun _ => .comment := by
  rw [runRows, List.map_map]
  exact List.map_congr_left fun line member => (areRead line member).kind

theorem Scan.comment_named (opening afterHash : Text) (line : CommentLine)
    (read : comment opening afterHash = .ok line) :
    ∀ decorator ∈ line.decorators, decorator.IsNamed := by
  intro decorator member
  cases line with
  | plain comment => cases member
  | decorated line =>
    obtain ⟨-, -, each, -⟩ := comment_formed opening afterHash line read
    obtain ⟨starts, goesOn⟩ := (each decorator member).1.parts
    exact ⟨starts, List.all_eq_true.mpr goesOn⟩

theorem Scan.lineEnd_named (text tail : Text) (trailing : TrailingComment)
    (read : lineEnd text = .ok (some trailing, tail)) :
    ∀ decorator ∈ trailing.comment.decorators, decorator.IsNamed := by
  simp only [lineEnd] at read
  split at read
  · cases read
  · split at read
    · obtain ⟨found, isComment, same⟩ := (map_eq_ok _ _ _).mp read
      cases same
      exact comment_named _ _ found isComment
    · cases read

/-! ## Nodes that were read -/

structure Node.IsRead (node : Node) : Prop where
  kinds : node.rows.map Row.kind = node.kinds
  breaks : ∀ item, node.item? = some item → item.BreaksInValue
  keyed : ∀ item, node.item? = some item → Scan.IsKey item.key
  named : ∀ comment ∈ node.comments, ∀ decorator ∈ comment.decorators, decorator.IsNamed

section
variable {run next : List CommentLine} {line : Text} {lines : List Text} {nodes : List Node}

theorem divider_written (isComment : LineClass.of line = .comment) {divider : Text}
    (read : readComment line = .ok (.inl divider)) : divider = line :=
  readComment_written line _ isComment read

theorem CommentLine.isRead (isComment : LineClass.of line = .comment) {comment : CommentLine}
    (read : readComment line = .ok (.inr comment)) : comment.IsRead := by
  have written : comment.render = line := readComment_written line _ isComment read
  refine ⟨?_, Scan.comment_named _ _ comment (comment_of_readComment line comment read)⟩
  rw [written]
  exact Row.kind_comment isComment read

theorem Node.isRead_of_noItem {node : Node} (noItem : node.item? = none)
    (kinds : node.rows.map Row.kind = node.kinds)
    (named : ∀ comment ∈ node.comments, ∀ decorator ∈ comment.decorators, decorator.IsNamed) :
    node.IsRead := by
  refine ⟨kinds, ?_, ?_, named⟩
  · intro item isItem
    rw [noItem] at isItem
    cases isItem
  · intro item isItem
    rw [noItem] at isItem
    cases isItem

theorem Node.block_isRead (areRead : ∀ line ∈ run, line.IsRead) (closing : Option Text)
    (closes : ∀ raw, closing = some raw → (Row.outside raw).kind = .divider) :
    (block run closing).IsRead := by
  refine isRead_of_noItem rfl ?_ fun comment member => (areRead comment member).named
  rw [rows, kinds, List.map_append, map_kind_runRows areRead]
  cases closing with
  | none => rfl
  | some raw => simp [closes raw rfl]

theorem looseBlock_isRead (areRead : ∀ line ∈ run, line.IsRead) :
    ∀ node ∈ looseBlock run, node.IsRead := by
  intro node member
  cases run with
  | nil => cases member
  | cons first rest =>
    rw [List.mem_singleton.mp member]
    exact Node.block_isRead areRead none fun raw isSome => nomatch isSome

theorem Node.blank_isRead (isBlank : LineClass.of line = .blank) : (blank line).IsRead := by
  refine isRead_of_noItem rfl ?_ fun comment member => nomatch member
  rw [rows, List.map_singleton, Row.kind_blank isBlank]
  rfl

theorem Node.closedBlock_isRead (areRead : ∀ line ∈ run, line.IsRead)
    (divides : (Row.outside line).kind = .divider) : (closedBlock run line).IsRead := by
  cases run with
  | nil =>
    refine isRead_of_noItem rfl ?_ fun comment member => nomatch member
    rw [closedBlock, rows, List.map_singleton, divides]
    rfl
  | cons first rest =>
    refine block_isRead areRead (some line) fun raw isLine => ?_
    cases isLine
    exact divides

theorem Item.ReadFrom.isRead {item : Item} {own : List Text} (read : item.ReadFrom line own)
    (areLines : Text.AreLines (line :: own)) (areRead : ∀ line ∈ item.above, line.IsRead) :
    (Node.item item).IsRead := by
  have ownRows := read.ownRows areLines
  have count := read.count_renderOwn areLines
  have breaks := read.breaksInValue areLines
  obtain ⟨head, first, after, headIs, -, ends, isItem⟩ := read
  have itemLine := Row.kind_item (LineClass.of_head line head first headIs)
  refine ⟨?_, ?_, ?_, ?_⟩
  · have below : (own.map Row.inside).map Row.kind = List.replicate own.length .value := by
      rw [List.map_map, ← List.map_const']
      rfl
    rw [Node.rows, Node.kinds, Item.lineCount, count, ownRows, List.map_append,
      map_kind_runRows areRead, List.map_cons, itemLine, below, Nat.add_sub_cancel]
  · rintro _ ⟨⟩
    exact breaks
  · rintro _ ⟨⟩
    rw [isItem]
    exact Scan.head_isKey line head first headIs
  · intro comment member
    rcases List.mem_append.mp member with isAbove | isTrailing
    · exact (areRead comment isAbove).named
    · cases trailing : item.trailing with
      | none =>
        rw [trailing] at isTrailing
        cases isTrailing
      | some found =>
        rw [trailing] at isTrailing ends
        rw [List.mem_singleton.mp isTrailing]
        exact Scan.lineEnd_named after item.tail found ends

/-! ## Rows of portions -/

theorem rows_looseBlock (run : List CommentLine) :
    (looseBlock run).flatMap Node.rows = runRows run := by
  cases run with
  | nil => rfl
  | cons first rest => simp only [looseBlock, List.flatMap_singleton, Node.rows,
      Option.toList_none, List.map_nil, List.append_nil]

theorem rows_closedBlock (run : List CommentLine) (divider : Text) :
    (closedBlock run divider).rows = runRows run ++ [.outside divider] := by
  cases run with
  | nil => rfl
  | cons first rest => rfl

theorem map_text_runRows (run : List CommentLine) :
    (runRows run).map Row.text = run.map CommentLine.render := by
  rw [runRows, List.map_map]
  rfl

theorem Portion.isRead (portion : Portion run lines nodes next) (areLines : Text.AreLines lines)
    (areRead : ∀ line ∈ run, line.IsRead) :
    (∀ node ∈ nodes, node.IsRead) ∧ ∀ line ∈ next, line.IsRead := by
  cases portion with
  | blank isBlank =>
    refine ⟨fun node member => ?_, fun line member => nomatch member⟩
    rcases List.mem_append.mp member with inLoose | isLine
    · exact looseBlock_isRead areRead node inLoose
    · rw [List.mem_singleton.mp isLine]
      exact Node.blank_isRead isBlank
  | divider isComment read =>
    refine ⟨fun node member => ?_, fun line member => nomatch member⟩
    rw [List.mem_singleton.mp member, divider_written isComment read]
    exact Node.closedBlock_isRead areRead (Row.kind_comment isComment read)
  | comment isComment read =>
    refine ⟨fun node member => (nomatch member), fun line member => ?_⟩
    rcases List.mem_append.mp member with inRun | isNew
    · exact areRead line inRun
    · rw [List.mem_singleton.mp isNew]
      exact CommentLine.isRead isComment read
  | item read =>
    refine ⟨fun node member => ?_, fun line member => nomatch member⟩
    rw [List.mem_singleton.mp member]
    exact read.isRead areLines areRead

theorem Portion.text_rows (portion : Portion run lines nodes next)
    (areLines : Text.AreLines lines) :
    (nodes.flatMap Node.rows).map Row.text ++ next.map CommentLine.render =
      run.map CommentLine.render ++ lines := by
  cases portion with
  | blank isBlank =>
    rw [List.flatMap_append, rows_looseBlock, List.flatMap_singleton, List.map_append,
      map_text_runRows, List.map_nil, List.append_nil]
    rfl
  | divider isComment read =>
    rw [divider_written isComment read, List.flatMap_singleton, rows_closedBlock, List.map_append,
      map_text_runRows, List.map_nil, List.append_nil]
    rfl
  | comment isComment read =>
    have written : CommentLine.render _ = _ := readComment_written _ _ isComment read
    rw [List.map_append, List.map_singleton, written]
    rfl
  | item read =>
    have below : ∀ own : List Text, (own.map Row.inside).map Row.text = own := by
      intro own
      rw [List.map_map]
      exact List.map_id own
    rw [List.flatMap_singleton, Node.rows, read.ownRows areLines, List.map_append,
      map_text_runRows, List.map_cons, below, List.map_nil, List.append_nil]
    rfl

theorem Portions.isRead {last : List CommentLine} (portions : Portions run lines nodes last)
    (areLines : Text.AreLines lines) (areRead : ∀ line ∈ run, line.IsRead) :
    ∀ node ∈ nodes ++ looseBlock last, node.IsRead := by
  induction portions with
  | done => exact looseBlock_isRead areRead
  | more first _ ih =>
    obtain ⟨firstLines, otherLines⟩ := (Text.areLines_append _ _).mp areLines
    obtain ⟨inFirst, nextRead⟩ := first.isRead firstLines areRead
    intro node member
    rw [List.append_assoc] at member
    rcases List.mem_append.mp member with isFirst | isLater
    · exact inFirst node isFirst
    · exact ih otherLines nextRead node isLater

theorem Portions.text_rows {last : List CommentLine} (portions : Portions run lines nodes last)
    (areLines : Text.AreLines lines) :
    ((nodes ++ looseBlock last).flatMap Node.rows).map Row.text =
      run.map CommentLine.render ++ lines := by
  induction portions with
  | done => rw [List.nil_append, rows_looseBlock, map_text_runRows, List.append_nil]
  | more first _ ih =>
    obtain ⟨firstLines, otherLines⟩ := (Text.areLines_append _ _).mp areLines
    rw [List.append_assoc, List.flatMap_append, List.map_append, ih otherLines,
      ← List.append_assoc, first.text_rows firstLines, List.append_assoc]

end

/-! ## Nodes among rows -/

def Node.Attached (above below : List Row) : Node → Prop
  | blank _ => True
  | divider _ => above.rtakeWhile Row.isRun = []
  | block comments closing =>
    comments ≠ [] ∧ (above ++ runRows comments).rtakeWhile Row.isRun = runRows comments ∧
      (closing = none → ∀ row, below.head? = some row → row.kind = .blank)
  | item definition =>
    (above ++ runRows definition.above).rtakeWhile Row.isRun = runRows definition.above

def AllAttached (above : List Row) : List Node → Prop
  | [] => True
  | node :: rest =>
    node.Attached above (rest.flatMap Node.rows) ∧ AllAttached (above ++ node.rows) rest

theorem AllAttached.split {above : List Row} {nodes : List Node}
    (attached : AllAttached above nodes) (front : List Node) (node : Node) (back : List Node)
    (isNodes : nodes = front ++ node :: back) :
    node.Attached (above ++ front.flatMap Node.rows) (back.flatMap Node.rows) := by
  induction front generalizing above nodes with
  | nil =>
    subst isNodes
    rw [List.flatMap_nil, List.append_nil]
    exact attached.1
  | cons first rest ih =>
    subst isNodes
    rw [List.flatMap_cons, ← List.append_assoc]
    exact ih attached.2 rfl

section
variable {run next : List CommentLine} {lines : List Text} {nodes rest : List Node}
  {above : List Row}

theorem longest_run (settled : above.rtakeWhile Row.isRun = [])
    (areRead : ∀ line ∈ run, line.IsRead) :
    (above ++ runRows run).rtakeWhile Row.isRun = runRows run := by
  have isRun : ∀ row ∈ runRows run, row.isRun = true := by
    intro row member
    exact decide_eq_true (kind_of_mem_runRows areRead row member)
  rw [rtakeWhile_append_all _ _ _ isRun, settled, List.nil_append]

theorem looseBlock_attached (settled : above.rtakeWhile Row.isRun = [])
    (areRead : ∀ line ∈ run, line.IsRead)
    (ends : ∀ row, (rest.flatMap Node.rows).head? = some row → row.kind = .blank)
    (later : AllAttached (above ++ runRows run) rest) :
    AllAttached above (looseBlock run ++ rest) := by
  have longest := longest_run settled areRead
  cases run with
  | nil =>
    rw [runRows, List.map_nil, List.append_nil] at later
    exact later
  | cons first others =>
    refine ⟨⟨List.cons_ne_nil first others, longest, fun _ => ends⟩, ?_⟩
    have rows : (Node.block (first :: others) none).rows = runRows (first :: others) :=
      List.append_nil _
    rw [rows]
    exact later

theorem closedBlock_attached (settled : above.rtakeWhile Row.isRun = [])
    (areRead : ∀ line ∈ run, line.IsRead) (divider : Text) (below : List Row) :
    (closedBlock run divider).Attached above below := by
  have longest := longest_run settled areRead
  cases run with
  | nil => exact settled
  | cons first others =>
    exact ⟨List.cons_ne_nil first others, longest, fun open_ => nomatch open_⟩

theorem Portion.settled (portion : Portion run lines nodes next) (areLines : Text.AreLines lines)
    (settled : above.rtakeWhile Row.isRun = []) :
    (above ++ nodes.flatMap Node.rows).rtakeWhile Row.isRun = [] := by
  have afterLine : ∀ (front : List Row) (line : Text), (Row.outside line).kind ≠ .comment →
      (front ++ [Row.outside line]).rtakeWhile Row.isRun = [] := by
    intro front line noRun
    refine rtakeWhile_append_none _ _ _ (List.cons_ne_nil _ _) fun row member => ?_
    rw [List.mem_singleton.mp member]
    exact decide_eq_false noRun
  cases portion with
  | blank isBlank =>
    rw [List.flatMap_append, List.flatMap_singleton, ← List.append_assoc]
    refine afterLine _ _ ?_
    rw [Row.kind_blank isBlank]
    exact fun same => nomatch same
  | divider isComment read =>
    rw [divider_written isComment read, List.flatMap_singleton, rows_closedBlock,
      ← List.append_assoc]
    refine afterLine _ _ ?_
    rw [Row.kind_comment isComment read]
    exact fun same => nomatch same
  | comment isComment read =>
    rw [List.flatMap_nil, List.append_nil]
    exact settled
  | item read =>
    have ownRows := read.ownRows areLines
    obtain ⟨head, first, after, headIs, -⟩ := read
    have itemLine := Row.kind_item (LineClass.of_head _ head first headIs)
    rw [List.flatMap_singleton, Node.rows, ownRows, ← List.append_assoc]
    refine rtakeWhile_append_none _ _ _ (List.cons_ne_nil _ _) fun row member => ?_
    rcases List.mem_cons.mp member with rfl | inValue
    · rw [Row.isRun, itemLine]
      rfl
    · obtain ⟨line, -, rfl⟩ := List.mem_map.mp inValue
      rfl

theorem Portion.attached (portion : Portion run lines nodes next)
    (settled : above.rtakeWhile Row.isRun = []) (areRead : ∀ line ∈ run, line.IsRead)
    (later : AllAttached (above ++ nodes.flatMap Node.rows) rest) :
    AllAttached above (nodes ++ rest) := by
  cases portion with
  | blank isBlank =>
    rename_i line
    rw [List.flatMap_append, rows_looseBlock, List.flatMap_singleton, ← List.append_assoc] at later
    rw [List.append_assoc]
    refine looseBlock_attached settled areRead ?_ ⟨trivial, later⟩
    rintro row ⟨⟩
    exact Row.kind_blank isBlank
  | divider isComment read =>
    rw [List.flatMap_singleton] at later
    exact ⟨closedBlock_attached settled areRead _ _, later⟩
  | comment isComment read =>
    rw [List.flatMap_nil, List.append_nil] at later
    exact later
  | item read =>
    rw [List.flatMap_singleton] at later
    exact ⟨longest_run settled areRead, later⟩

theorem Portions.attached {last : List CommentLine} (portions : Portions run lines nodes last)
    (areLines : Text.AreLines lines) (settled : above.rtakeWhile Row.isRun = [])
    (areRead : ∀ line ∈ run, line.IsRead) : AllAttached above (nodes ++ looseBlock last) := by
  induction portions generalizing above with
  | done =>
    have ends : ∀ row, (([] : List Node).flatMap Node.rows).head? = some row → row.kind = .blank :=
      fun row none => nomatch none
    have atEnd := looseBlock_attached settled areRead ends trivial
    rwa [List.append_nil] at atEnd
  | more first _ ih =>
    obtain ⟨firstLines, otherLines⟩ := (Text.areLines_append _ _).mp areLines
    obtain ⟨-, nextRead⟩ := first.isRead firstLines areRead
    rw [List.append_assoc]
    refine first.attached settled areRead ?_
    exact ih otherLines (first.settled firstLines settled) nextRead

end

/-! ## Documents -/

structure Document.Attaches (document : Document) (source : Text) : Prop where
  /-- Each line belongs to one node, in order. -/
  whole : document.rows.map Row.text = Text.lines (Text.unixLines source)
  isRead : ∀ node ∈ document.nodes, node.IsRead
  attached : ∀ front node back, document.nodes = front ++ node :: back →
    node.Attached (front.flatMap Node.rows) (back.flatMap Node.rows)

theorem Document.attaches_of_readVerbatim (source : Text) (document : Document)
    (success : readVerbatim source = .ok document) : document.Attaches source := by
  obtain ⟨body, last, portions, isNodes⟩ := portions_of_read source document success
  have areLines := Text.areLines_lines (Text.unixLines source)
  have noRun : ∀ line ∈ ([] : List CommentLine), line.IsRead := fun line member => nomatch member
  refine ⟨?_, ?_, ?_⟩
  · rw [rows, isNodes, portions.text_rows areLines]
    rfl
  · rw [isNodes]
    exact portions.isRead areLines noRun
  · intro front node back split
    have settled : ([] : List Row).rtakeWhile Row.isRun = [] := rfl
    have all := portions.attached areLines settled noRun
    have placed := all.split front node back (isNodes.symm.trans split)
    rwa [List.nil_append] at placed

namespace Node

theorem item?_expand (bare : Bool) (node : Node) :
    (node.expand bare).item? = node.item?.map (Item.expand bare) := by
  cases node <;> rfl

theorem IsRead.expand {node : Node} (isRead : node.IsRead) (bare : Bool) :
    (node.expand bare).IsRead where
  kinds := by
    rw [rows_expand, kinds_expand]
    exact isRead.kinds
  breaks := by
    intro item isItem
    rw [item?_expand] at isItem
    obtain ⟨written, isWritten, rfl⟩ := Option.map_eq_some_iff.mp isItem
    exact written.breaksInValue_expand bare (isRead.breaks written isWritten)
  keyed := by
    intro item isItem
    rw [item?_expand] at isItem
    obtain ⟨written, isWritten, rfl⟩ := Option.map_eq_some_iff.mp isItem
    exact isRead.keyed written isWritten
  named := by
    intro comment member decorator inComment
    rw [comments_expand] at member
    obtain ⟨written, isComment, rfl⟩ := List.mem_map.mp member
    rw [CommentLine.decorators_expand] at inComment
    obtain ⟨named, isDecorator, rfl⟩ := List.mem_map.mp inComment
    exact isRead.named written isComment named isDecorator

theorem Attached.expand {above below : List Row} {node : Node}
    (attached : node.Attached above below) (bare : Bool) :
    (node.expand bare).Attached above below := by
  cases node with
  | blank raw => trivial
  | divider raw => exact attached
  | block comments closing =>
    obtain ⟨filled, longest, ends⟩ := attached
    refine ⟨fun none => filled (List.map_eq_nil_iff.mp none), ?_, ends⟩
    rw [runRows_expand]
    exact longest
  | item definition =>
    have same : (definition.expand bare).above =
        definition.above.map (CommentLine.expand bare) := rfl
    change (above ++ runRows (definition.expand bare).above).rtakeWhile Row.isRun = _
    rw [same, runRows_expand]
    exact attached

end Node

namespace Document

theorem Attaches.expand {document : Document} {source : Text} (attaches : document.Attaches source)
    (bare : Bool) : (document.expand bare).Attaches source := by
  have sameRows : ∀ nodes : List Node,
      (nodes.map (Node.expand bare)).flatMap Node.rows = nodes.flatMap Node.rows := by
    intro nodes
    simp only [List.flatMap_map, Node.rows_expand]
  refine ⟨?_, ?_, ?_⟩
  · rw [rows, Document.expand, sameRows]
    exact attaches.whole
  · intro node member
    obtain ⟨written, isNode, rfl⟩ := List.mem_map.mp member
    exact (attaches.isRead written isNode).expand bare
  · intro front node back split
    obtain ⟨upper, lower, isNodes, rfl, isLower⟩ := List.map_eq_append_iff.mp split
    obtain ⟨written, below, rfl, rfl, rfl⟩ := List.map_eq_cons_iff.mp isLower
    rw [sameRows, sameRows]
    exact (attaches.attached upper written below isNodes).expand bare

/-- Whatever the options, a document that was read has the lines of its text in order, each node
the lines of its form, and each comment line where it belongs. -/
theorem attaches_of_read (options : ReadOptions) (source : Text) (document : Document)
    (success : read options source = .ok document) : document.Attaches source := by
  obtain ⟨written, isWritten, rfl⟩ := (read_eq_ok options source document).mp success
  have attaches := attaches_of_readVerbatim source written isWritten
  split
  · exact attaches.expand options.bareNames
  · exact attaches

/-- A block that a divider closes, one that a blank line ends, an item with a comment above it and
a line like a comment in its value, a divider of its own, and a block at the end. -/
theorem attaches_of_read_forms :
    let source :=
      "# a\n# ---\n# b\n\n# @c\nA=\"\"\"\n# d\"\"\" # e\n# ===\n# f".toList
    ∃ document, read .standard source = .ok document ∧ document.Attaches source ∧
      document.rows.length = 9 ∧
      document.nodes.map (fun node => (node.isBlank, node.comments.length)) =
        [(false, 1), (false, 1), (true, 0), (false, 2), (false, 0), (false, 1)] := by
  intro source
  have attaches := attaches_of_read .standard source _ rfl
  have length := congrArg List.length attaches.whole
  rw [List.length_map] at length
  exact ⟨_, rfl, attaches, length, rfl⟩

end Document

end Dotenv
