import Dotenv.Proofs.Reading.Lossless
import Dotenv.Proofs.Text.Slices
/-!
# Where items stand

The span of an item is over its own lines. A reader counts the bytes of the lines that it takes, and
what it has left behind and what it holds are these lines; so where an item is closed, its span
starts behind the comments that are held for it, at the line that opened it, and stops where the
line that closes it does. What the options do to values moves nothing.
-/

set_option autoImplicit false

namespace Dotenv

/-- An item whose text, the comments above it first, starts at an offset: its span is over its own
lines. -/
def Item.PlacedAt (item : Item) (offset : Nat) : Prop :=
  item.span.start = offset + Text.width (Text.closed (item.above.map CommentLine.render)) ∧
    item.span.stop = item.span.start + Text.width item.renderOwn

/-- Nodes, one in each line below another, the first of which starts at an offset: each item is at
its place. -/
def AllPlaced : Nat → List Node → Prop
  | _, [] => True
  | offset, node :: more =>
    (∀ item, node.item? = some item → item.PlacedAt offset) ∧
      AllPlaced (offset + Text.width node.render + 1) more

theorem Item.render_eq (item : Item) :
    item.render = Text.closed (item.above.map CommentLine.render) ++ item.renderOwn := by
  simp only [render, Text.closed, List.flatMap_map]

theorem Item.renderOwn_ne_nil (item : Item) : item.renderOwn ≠ [] := by
  simp [renderOwn]

namespace AllPlaced

theorem append (offset : Nat) (nodes more : List Node) :
    AllPlaced offset (nodes ++ more) ↔
      AllPlaced offset nodes ∧
        AllPlaced (offset + Text.width (Text.closed (nodes.map Node.render))) more := by
  induction nodes generalizing offset with
  | nil => simp only [List.nil_append, AllPlaced, true_and]; rfl
  | cons node rest ih =>
    have below : offset + Text.width (Text.closed ((node :: rest).map Node.render)) =
        offset + Text.width node.render + 1 +
          Text.width (Text.closed (rest.map Node.render)) := by
      rw [List.map_cons, Text.width_closed_cons]
      omega
    rw [List.cons_append, AllPlaced, AllPlaced, ih, below, and_assoc]

theorem of_noItem (offset : Nat) {nodes : List Node} (noItem : ∀ node ∈ nodes, node.item? = none) :
    AllPlaced offset nodes := by
  induction nodes generalizing offset with
  | nil => trivial
  | cons node rest ih =>
    obtain ⟨first, others⟩ := List.forall_mem_cons.mp noItem
    refine ⟨fun item isItem => ?_, ih _ others⟩
    rw [first] at isItem
    cases isItem

theorem singleton {offset : Nat} {item : Item} (placed : item.PlacedAt offset) :
    AllPlaced offset [.item item] := by
  refine ⟨fun other same => ?_, trivial⟩
  cases same
  exact placed

end AllPlaced

/-! ## The reader -/

/-- Where a reader stands that has left everything behind up to one offset and taken all lines up to
another: it holds the lines between them, and the first line of an open item is below the comments
above it. -/
structure Position.StandsAt (position : Position) (base offset : Nat) : Prop where
  held : offset = base + Text.width (Text.closed position.held)
  opened : ∀ item, position = .inside item →
    item.start = base + Text.width (Text.closed (item.above.map CommentLine.render))

theorem readItem_span (run : List CommentLine) (line : Text) (start : Nat)
    (read : Item ⊕ OpenItem) (success : readItem run line start = .ok read) :
    match read with
    | .inl item => item.span = ⟨start, start + Text.width line⟩
    | .inr item => item.start = start := by
  simp only [readItem, bind_eq_ok] at success
  obtain ⟨⟨head, fromValue⟩, -, beginning, -, success⟩ := success
  cases beginning with
  | opened quote =>
    cases success
    rfl
  | whole value rest =>
    simp only [bind_eq_ok] at success
    obtain ⟨_, -, success⟩ := success
    cases success
    rfl

theorem OpenItem.close_span (item : OpenItem) (line afterValue : Text) (lineEnd : Nat)
    (closed : Item) (success : item.close line afterValue lineEnd = .ok closed) :
    closed.span = ⟨item.start, lineEnd⟩ := by
  obtain ⟨_, -, rfl⟩ := (map_eq_ok _ _ _).mp success
  rfl

theorem noItem_looseBlock (run : List CommentLine) :
    ∀ node ∈ looseBlock run, node.item? = none := by
  cases run <;> simp [looseBlock, Node.item?]

theorem noItem_closedBlock (run : List CommentLine) (divider : Text) :
    (closedBlock run divider).item? = none := by
  cases run <;> rfl

namespace Position

section
variable {base start : Nat} {line : Text} {position next : Position} {nodes : List Node}

theorem step_placed (stands : position.StandsAt base start)
    (success : position.step start line = .ok (nodes, next)) : AllPlaced base nodes := by
  have held := stands.held
  cases position with
  | between run =>
    simp only [Position.held] at held
    simp only [step] at success
    split at success
    · cases success
      refine AllPlaced.of_noItem base fun node member => ?_
      rcases List.mem_append.mp member with inRun | isBlank
      · exact noItem_looseBlock run node inRun
      · cases List.mem_singleton.mp isBlank
        rfl
    · split at success
      · cases success
      · rename_i divider _
        cases success
        refine AllPlaced.of_noItem base fun node member => ?_
        cases List.mem_singleton.mp member
        exact noItem_closedBlock run divider
      · cases success
        trivial
    · split at success
      · cases success
      · rename_i item read
        cases success
        have written := readItem_written run line start _ read
        have span := readItem_span run line start _ read
        dsimp only at written span
        exact AllPlaced.singleton ⟨by rw [span, written.1, held], by rw [span, written.2]⟩
      · cases success
        trivial
  | inside item =>
    simp only [Position.held, Text.closed_append, Text.closed_singleton, Text.width_append,
      Text.width_newline] at held
    simp only [step] at success
    split at success
    · cases success
      trivial
    · rename_i afterValue found
      split at success
      · cases success
      · rename_i closed isClosed
        cases success
        have opened := stands.opened item rfl
        have written := item.close_written line afterValue _ closed found isClosed
        have span := item.close_span line afterValue _ closed isClosed
        refine AllPlaced.singleton ⟨by rw [span, written.1, opened], ?_⟩
        rw [span, written.2, Text.width_append, Text.width_cons, show '\n'.utf8Size = 1 from rfl]
        dsimp only
        omega

theorem step_standsAt (stands : position.StandsAt base start)
    (success : position.step start line = .ok (nodes, next)) :
    next.StandsAt (base + Text.width (Text.closed (nodes.map Node.render)))
      (start + Text.width line + 1) where
  held := by
    have written := congrArg Text.width (step_written start line position next nodes success)
    have held := stands.held
    simp only [Text.width_append, Text.closed_singleton, Text.width_newline] at written
    omega
  opened := by
    rintro item rfl
    cases position with
    | between run =>
      have held := stands.held
      simp only [step] at success
      split at success
      · cases success
      · split at success <;> cases success
      · split at success
        · cases success
        · cases success
        · rename_i read
          cases success
          have written := readItem_written run line start _ read
          have span := readItem_span run line start _ read
          dsimp only at written span
          rw [span, written.1, held]
          rfl
    | inside old =>
      have opened := stands.opened old rfl
      simp only [step] at success
      split at success
      · cases success
        exact opened
      · split at success <;> cases success

end

theorem run_placed (lines : List Text) (base start : Nat) (position final : Position)
    (nodes : List Node) (stands : position.StandsAt base start)
    (success : position.run start lines = .ok (nodes, final)) : AllPlaced base nodes := by
  induction lines generalizing base start position nodes with
  | nil =>
    cases success
    trivial
  | cons line more ih =>
    simp only [run, bind_eq_ok] at success
    obtain ⟨⟨first, next⟩, stepped, ⟨others, last⟩, ran, success⟩ := success
    cases success
    exact (AllPlaced.append base first others).mpr
      ⟨step_placed stands stepped, ih _ _ next others (step_standsAt stands stepped) ran⟩

theorem finish_placed (lines : List Text) (base start : Nat) (position : Position)
    (nodes : List Node) (stands : position.StandsAt base start)
    (success : position.finish start lines = .ok nodes) : AllPlaced base nodes := by
  simp only [finish, bind_eq_ok] at success
  obtain ⟨⟨taken, final⟩, ran, rest, left, success⟩ := success
  cases success
  refine (AllPlaced.append base taken rest).mpr
    ⟨run_placed lines base start position final taken stands ran, AllPlaced.of_noItem _ ?_⟩
  cases final with
  | between run =>
    cases left
    exact noItem_looseBlock run
  | inside item => cases left

theorem standsAt_start : (between []).StandsAt 0 0 where
  held := rfl
  opened := fun _ same => nomatch same

end Position

/-! ## Expansion -/

theorem Item.PlacedAt.expand {item : Item} {offset : Nat} (placed : item.PlacedAt offset)
    (bare : Bool) : (item.expand bare).PlacedAt offset := by
  have above : (item.expand bare).above.map CommentLine.render =
      item.above.map CommentLine.render := by
    simp only [Item.expand, List.map_map, Function.comp_def, CommentLine.render_expand]
  obtain ⟨start, stop⟩ := placed
  refine ⟨?_, ?_⟩
  · rw [above]
    exact start
  · rw [Item.renderOwn_expand]
    exact stop

theorem AllPlaced.expand {nodes : List Node} {offset : Nat} (placed : AllPlaced offset nodes)
    (bare : Bool) : AllPlaced offset (nodes.map (Node.expand bare)) := by
  induction nodes generalizing offset with
  | nil => trivial
  | cons node rest ih =>
    obtain ⟨first, others⟩ := placed
    refine ⟨fun item isItem => ?_, ?_⟩
    · cases node with
      | item definition =>
        cases isItem
        exact (first definition rfl).expand bare
      | _ => cases isItem
    · rw [Node.render_expand]
      exact ih others

/-! ## Documents -/

namespace AllPlaced

variable {nodes : List Node} {offset : Nat}

theorem pairwise (placed : AllPlaced offset nodes) :
    (∀ item ∈ nodes.filterMap Node.item?, offset ≤ item.span.start) ∧
      (nodes.filterMap Node.item?).Pairwise fun upper lower =>
        upper.span.stop < lower.span.start := by
  induction nodes generalizing offset with
  | nil => exact ⟨fun item member => (nomatch member), List.Pairwise.nil⟩
  | cons node rest ih =>
    obtain ⟨first, others⟩ := placed
    obtain ⟨below, ordered⟩ := ih others
    have later : ∀ item ∈ rest.filterMap Node.item?, offset ≤ item.span.start := by
      intro item member
      have far := below item member
      omega
    cases isItem : node.item? with
    | none =>
      rw [List.filterMap_cons_none isItem]
      exact ⟨later, ordered⟩
    | some item =>
      obtain ⟨start, stop⟩ := first item isItem
      have whole : node.render = item.render := by
        cases node with
        | item definition =>
          cases isItem
          rfl
        | _ => cases isItem
      have width := congrArg Text.width item.render_eq
      rw [Text.width_append] at width
      rw [List.filterMap_cons_some isItem]
      refine ⟨List.forall_mem_cons.mpr ⟨by omega, later⟩, .cons (fun lower member => ?_) ordered⟩
      have far := below lower member
      rw [whole] at far
      omega

theorem split (placed : AllPlaced 0 nodes) (item : Item)
    (member : item ∈ nodes.filterMap Node.item?) :
    ∃ front back, Text.closed (nodes.map Node.render) =
        Text.closed front ++ (item.renderOwn ++ '\n' :: back) ∧
      item.span = ⟨Text.width (Text.closed front),
        Text.width (Text.closed front) + Text.width item.renderOwn⟩ := by
  obtain ⟨node, inNodes, isItem⟩ := List.mem_filterMap.mp member
  obtain ⟨upper, lower, rfl⟩ := List.append_of_mem inNodes
  obtain ⟨start, stop⟩ := ((append 0 upper (node :: lower)).mp placed).2.1 item isItem
  cases node with
  | item definition =>
    cases isItem
    refine ⟨upper.map Node.render ++ item.above.map CommentLine.render,
      Text.closed (lower.map Node.render), ?_, ?_⟩
    · rw [List.map_append, List.map_cons, Text.closed_append, Text.closed_cons, Text.closed_append,
        Node.render, item.render_eq]
      simp only [List.append_assoc]
    · rw [Text.closed_append, Text.width_append]
      rw [Nat.zero_add] at start
      rw [← start, ← stop]
  | _ => cases isItem

end AllPlaced

namespace Document

theorem placed_of_read (options : ReadOptions) (source : Text) (document : Document)
    (success : read options source = .ok document) :
    AllPlaced 0 document.nodes ∧
      Text.closed (document.nodes.map Node.render) =
        Text.closed (Text.lines (Text.unixLines source)) := by
  obtain ⟨written, isWritten, rfl⟩ := (read_eq_ok options source document).mp success
  obtain ⟨finished, -⟩ := (readVerbatim_eq_ok source written).mp isWritten
  have placed := Position.finish_placed _ 0 0 _ _ Position.standsAt_start finished
  have whole := Position.finish_written _ _ _ _ finished
  split
  · refine ⟨placed.expand options.bareNames, ?_⟩
    simp only [expand, List.map_map, Function.comp_def, Node.render_expand]
    exact whole
  · exact ⟨placed, whole⟩

/-- The spans of the items are apart and in order; each starts where a line of the text does, stops
where one ends, and is over the item's own lines, as they print. -/
theorem spans_exact (options : ReadOptions) (source : Text) (document : Document)
    (success : read options source = .ok document) :
    let text := Text.unixLines source
    document.items.Pairwise (fun upper lower => upper.span.stop < lower.span.start) ∧
      ∀ item ∈ document.items,
        item.span.start < item.span.stop ∧ text.StartsLine item.span.start ∧
          text.EndsLine item.span.stop ∧ item.span.slice text = item.renderOwn := by
  intro text
  obtain ⟨placed, whole⟩ := placed_of_read options source document success
  refine ⟨placed.pairwise.2, fun item member => ?_⟩
  obtain ⟨front, back, isText, span⟩ := placed.split item member
  obtain ⟨after, same, ends⟩ :=
    Text.part_of_closed text (Text.closed front) item.renderOwn back (whole.symm.trans isText)
  have covers : item.span.Covers text item.renderOwn := ⟨_, after, same, span⟩
  have filled := Text.width_pos item.renderOwn_ne_nil
  refine ⟨?_, ⟨_, _, same, ?_, Text.endsWithNewline_closed front⟩,
    ⟨Text.closed front ++ item.renderOwn, after, ?_, ?_, ends⟩, covers.slice⟩
  · rw [span]
    exact Nat.lt_add_of_pos_right filled
  · rw [span]
  · rw [List.append_assoc]
    exact same
  · rw [span, Text.width_append]

/-- Letters of two bytes, a comment above an item, a value over three lines that names another, and
an item that no newline closes. -/
theorem spans_exact_block :
    let source := "# é\nA='ö'\r\n\n# b\nB=\"\"\"\né ${A}\n\"\"\" # ß\nC='2'".toList
    ∃ document, read .standard source = .ok document ∧
      document.items.map Item.span = [⟨5, 11⟩, ⟨17, 39⟩, ⟨40, 45⟩] ∧
      (document.items.Pairwise fun upper lower => upper.span.stop < lower.span.start) ∧
      ∀ item ∈ document.items, item.span.slice (Text.unixLines source) = item.renderOwn := by
  intro source
  obtain ⟨ordered, each⟩ := spans_exact .standard source _ rfl
  exact ⟨_, rfl, by decide +kernel, ordered, fun item member => (each item member).2.2.2⟩

end Document

end Dotenv
