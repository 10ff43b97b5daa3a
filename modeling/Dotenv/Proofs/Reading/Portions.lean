import Dotenv.Proofs.Reading.Lossless
import Dotenv.Proofs.Reading.Stable
/-!
# Portions

A document read in portions: the lines that a reader takes from a place between two nodes to
the next such place. A portion is a line, or all lines of an item whose value spans lines. What
a portion yields depends on the run of comments above it and on nothing else, but for the
offsets of items.
-/

set_option autoImplicit false

namespace Dotenv

/-! ## Offsets put aside -/

def Item.unplaced (item : Item) : Item := { item with span := ⟨0, 0⟩ }

def Node.unplaced : Node → Node
  | item definition => item definition.unplaced
  | node => node

theorem Node.render_unplaced (node : Node) : node.unplaced.render = node.render := by
  cases node <;> rfl

/-! ## Values and items -/

/-- A value is read from the rest of a line and, where it spans lines, from the lines below; the
rest of the last line is left. -/
inductive ReadsValue : Text → List Text → Option Term → Text → Prop
  | whole {first : Text} {value : Option Term} {after : Text}
      (read : Scan.beginning first = .ok (.whole value after)) : ReadsValue first [] value after
  | block {first : Text} {quote : Quote} {inner : List Text} {last after : Text}
      (opens : Scan.beginning first = .ok (.opened quote))
      (inside : ∀ line ∈ inner, Scan.closeBlock quote.mark line = none)
      (closes : Scan.closeBlock quote.mark last = some after) :
      ReadsValue first (inner ++ [last])
        (some (.literal ⟨first ++ inner.flatMap ('\n' :: ·) ++ '\n' :: Text.before after last,
          some quote⟩)) after

def Item.ReadFrom (item : Item) (line : Text) (more : List Text) : Prop :=
  ∃ head first after, Scan.head line = .ok (head, first) ∧
    ReadsValue first more item.value after ∧
    Scan.lineEnd after = .ok (item.trailing, item.tail) ∧
    item = head.item item.above item.value item.trailing item.tail item.span

theorem LineClass.of_head (line : Text) (head : Scan.Head) (rest : Text)
    (read : Scan.head line = .ok (head, rest)) : LineClass.of line = .item := by
  have noHead : ∀ text, Scan.exportWord (Text.skipGap line) = (none, text) →
      Scan.key text = [] → False := by
    intro text word unnamed
    simp [Scan.head, word, unnamed] at read
  unfold LineClass.of
  split
  · rename_i none
    exact (noHead [] (by rw [none]; rfl) rfl).elim
  · rename_i c more some
    split
    · rename_i hash
      subst hash
      exact (noHead ('#' :: more) (by rw [some]; rfl) rfl).elim
    · rfl

/-! ## Portions -/

/-- Lines that a reader takes from one place between nodes to the next: under a run of comments
they yield nodes and leave a run. -/
inductive Portion : List CommentLine → List Text → List Node → List CommentLine → Prop
  | blank {run : List CommentLine} {line : Text} (isBlank : LineClass.of line = .blank) :
      Portion run [line] (looseBlock run ++ [.blank line]) []
  | divider {run : List CommentLine} {line divider : Text}
      (isComment : LineClass.of line = .comment) (read : readComment line = .ok (.inl divider)) :
      Portion run [line] [closedBlock run divider] []
  | comment {run : List CommentLine} {line : Text} {comment : CommentLine}
      (isComment : LineClass.of line = .comment) (read : readComment line = .ok (.inr comment)) :
      Portion run [line] [] (run ++ [comment])
  | item {item : Item} {line : Text} {own : List Text} (read : item.ReadFrom line own) :
      Portion item.above (line :: own) [.item item] []

inductive Portions : List CommentLine → List Text → List Node → List CommentLine → Prop
  | done {run : List CommentLine} : Portions run [] [] run
  | more {run middle last : List CommentLine} {lines others : List Text} {nodes rest : List Node}
      (first : Portion run lines nodes middle) (back : Portions middle others rest last) :
      Portions run (lines ++ others) (nodes ++ rest) last

theorem Portions.append {run middle last : List CommentLine} {lines others : List Text}
    {nodes rest : List Node} (front : Portions run lines nodes middle)
    (back : Portions middle others rest last) :
    Portions run (lines ++ others) (nodes ++ rest) last := by
  induction front with
  | done => exact back
  | more first _ ih =>
    rw [List.append_assoc, List.append_assoc]
    exact .more first (ih back)

/-! ## The reader takes portions -/

namespace Position

def below (start : Nat) : List Text → Nat
  | [] => start
  | line :: more => below (start + Text.width line + 1) more

theorem run_append (start : Nat) (lines more : List Text) (position : Position) :
    position.run start (lines ++ more) =
      (position.run start lines >>= fun taken =>
        taken.2.run (below start lines) more >>= fun others =>
          .ok (taken.1 ++ others.1, others.2)) := by
  induction lines generalizing start position with
  | nil =>
    simp only [List.nil_append, run, below, bind, Except.bind]
    cases position.run start more <;> rfl
  | cons line rest ih =>
    simp only [List.cons_append, run, below]
    cases position.step start line with
    | error fault => rfl
    | ok stepped =>
      simp only [bind, Except.bind, ih]
      cases stepped.2.run (start + Text.width line + 1) rest with
      | error fault => rfl
      | ok ran =>
        simp only
        cases ran.2.run (below (start + Text.width line + 1) rest) more with
        | error fault => rfl
        | ok others => simp only [List.append_assoc]

theorem run_singleton (start : Nat) (line : Text) (position : Position) :
    position.run start [line] = position.step start line := by
  simp only [run]
  cases position.step start line with
  | error fault => rfl
  | ok stepped => simp only [bind, Except.bind, List.append_nil]

theorem finish_append (start : Nat) (lines more : List Text) (position : Position) :
    position.finish start (lines ++ more) =
      (position.run start lines >>= fun taken =>
        taken.2.finish (below start lines) more >>= fun others => .ok (taken.1 ++ others)) := by
  simp only [finish, run_append]
  cases position.run start lines with
  | error fault => rfl
  | ok taken =>
    simp only [bind, Except.bind]
    cases taken.2.run (below start lines) more with
    | error fault => rfl
    | ok others =>
      simp only
      cases others.2.leave with
      | error fault => rfl
      | ok rest => simp only [List.append_assoc]

theorem run_inside (start : Nat) (inner : List Text) (item : OpenItem)
    (inside : ∀ line ∈ inner, Scan.closeBlock item.quote.mark line = none) :
    (Position.inside item).run start inner =
      .ok ([], .inside { item with raw := item.raw ++ inner.flatMap ('\n' :: ·) }) := by
  induction inner generalizing start item with
  | nil => simp [run]
  | cons line more ih =>
    have first := inside line List.mem_cons_self
    have rest := ih (start + Text.width line + 1) { item with raw := item.raw ++ '\n' :: line }
      fun other member => inside other (List.mem_cons_of_mem line member)
    simp only [run, step, first, bind, Except.bind, rest]
    simp

end Position

theorem Item.ReadFrom.run {item : Item} {line : Text} {own : List Text}
    (read : item.ReadFrom line own) (start : Nat) :
    ∃ placed, (Position.between item.above).run start (line :: own) =
        .ok ([.item placed], .between []) ∧ placed.unplaced = item.unplaced := by
  obtain ⟨head, first, after, headIs, value, ends, isItem⟩ := read
  have isItemLine := LineClass.of_head line head first headIs
  generalize item.value = term at value isItem
  cases value with
  | whole beginning =>
    refine ⟨head.item item.above term item.trailing item.tail ⟨start, start + Text.width line⟩, ?_,
      by rw [isItem]; rfl⟩
    have read : readItem item.above line start = .ok (.inl (head.item item.above term item.trailing
        item.tail ⟨start, start + Text.width line⟩)) := by
      simp only [readItem, headIs, beginning, ends, bind, Except.bind]
      rfl
    rw [Position.run_singleton]
    simp only [Position.step, isItemLine, read]
  | block opens inside closes =>
    rename_i quote inner last
    let opened : OpenItem := ⟨item.above, head, quote, start,
      start + Text.width line - Text.width first, first⟩
    have read : readItem item.above line start = .ok (.inr opened) := by
      simp only [readItem, headIs, opens, bind, Except.bind]
      rfl
    have firstStep : (Position.between item.above).step start line = .ok ([], .inside opened) := by
      simp only [Position.step, isItemLine, read]
    have innerRun := Position.run_inside (start + Text.width line + 1) inner opened inside
    let lastStart := Position.below (start + Text.width line + 1) inner
    let placed := head.item item.above (some (.literal ⟨first ++ inner.flatMap ('\n' :: ·) ++
      '\n' :: Text.before after last, some quote⟩)) item.trailing item.tail
      ⟨start, lastStart + Text.width last⟩
    have lastStep : (Position.inside
          { opened with raw := opened.raw ++ inner.flatMap ('\n' :: ·) }).step lastStart last =
        .ok ([.item placed], .between []) := by
      simp only [Position.step, opened, closes, OpenItem.close, ends, Except.map]
      rfl
    refine ⟨placed, ?_, by rw [isItem]; rfl⟩
    simp only [Position.run, firstStep, bind, Except.bind, Position.run_append, innerRun, lastStep,
      lastStart]
    rfl

theorem Portion.run {above next : List CommentLine} {lines : List Text} {nodes : List Node}
    (portion : Portion above lines nodes next) (start : Nat) :
    ∃ placed, (Position.between above).run start lines = .ok (placed, .between next) ∧
      placed.map Node.unplaced = nodes.map Node.unplaced := by
  cases portion with
  | blank isBlank =>
    refine ⟨_, ?_, rfl⟩
    rw [Position.run_singleton]
    simp only [Position.step, isBlank]
  | divider isComment read =>
    refine ⟨_, ?_, rfl⟩
    rw [Position.run_singleton]
    simp only [Position.step, isComment, read]
  | comment isComment read =>
    refine ⟨_, ?_, rfl⟩
    rw [Position.run_singleton]
    simp only [Position.step, isComment, read]
  | item read =>
    obtain ⟨placed, ran, same⟩ := read.run start
    refine ⟨_, ran, ?_⟩
    simp only [List.map_cons, List.map_nil, Node.unplaced, same]

theorem Portions.run {above last : List CommentLine} {lines : List Text} {nodes : List Node}
    (portions : Portions above lines nodes last) (start : Nat) :
    ∃ placed, (Position.between above).run start lines = .ok (placed, .between last) ∧
      placed.map Node.unplaced = nodes.map Node.unplaced := by
  induction portions generalizing start with
  | done => exact ⟨[], rfl, rfl⟩
  | @more _ _ _ lines _ _ _ first _ ih =>
    obtain ⟨placed, ran, same⟩ := first.run start
    obtain ⟨others, ranOthers, sameOthers⟩ := ih (Position.below start lines)
    refine ⟨placed ++ others, ?_, by rw [List.map_append, List.map_append, same, sameOthers]⟩
    simp only [Position.run_append, ran, bind, Except.bind, ranOthers]

theorem Portions.finish {above last : List CommentLine} {lines : List Text} {nodes : List Node}
    (portions : Portions above lines nodes last) (start : Nat) :
    ∃ placed, (Position.between above).finish start lines = .ok placed ∧
      placed.map Node.unplaced = (nodes ++ looseBlock last).map Node.unplaced := by
  obtain ⟨placed, ran, same⟩ := portions.run start
  refine ⟨placed ++ looseBlock last, ?_, by rw [List.map_append, List.map_append, same]⟩
  simp only [Position.finish, ran, bind, Except.bind, Position.leave]

theorem Position.inside_finish (start : Nat) (lines : List Text) (item : OpenItem)
    (nodes : List Node) (finished : (Position.inside item).finish start lines = .ok nodes) :
    ∃ inner last after more closed rest stop below,
      lines = inner ++ last :: more ∧
      (∀ line ∈ inner, Scan.closeBlock item.quote.mark line = none) ∧
      Scan.closeBlock item.quote.mark last = some after ∧
      OpenItem.close { item with raw := item.raw ++ inner.flatMap ('\n' :: ·) } last after stop =
        .ok closed ∧
      nodes = .item closed :: rest ∧ (Position.between []).finish below more = .ok rest := by
  induction lines generalizing start item nodes with
  | nil => cases finished
  | cons line lines ih =>
    rw [finish_cons, bind_eq_ok] at finished
    obtain ⟨⟨first, next⟩, stepped, finished⟩ := finished
    rw [bind_eq_ok] at finished
    obtain ⟨others, finishedOthers, same⟩ := finished
    cases same
    simp only [step] at stepped
    cases closing : Scan.closeBlock item.quote.mark line with
    | none =>
      rw [closing] at stepped
      cases stepped
      obtain ⟨inner, last, after, more, closed, rest, stop, below, rfl, inside, closes, isClosed,
        isNodes, finishedRest⟩ := ih _ _ _ finishedOthers
      refine ⟨line :: inner, last, after, more, closed, rest, stop, below, rfl, ?_, closes, ?_,
        isNodes, finishedRest⟩
      · intro other member
        rcases List.mem_cons.mp member with rfl | member
        · exact closing
        · exact inside other member
      · rw [← isClosed]
        simp
    | some after =>
      rw [closing] at stepped
      dsimp only at stepped
      split at stepped
      · cases stepped
      · rename_i closed isClosed
        cases stepped
        refine ⟨[], line, after, lines, closed, others, start + Text.width line,
          start + Text.width line + 1, rfl, ?_, closing, ?_, rfl, finishedOthers⟩
        · intro other member
          cases member
        · simpa using isClosed

theorem readItem_whole (above : List CommentLine) (line : Text) (start : Nat) (item : Item)
    (read : readItem above line start = .ok (.inl item)) :
    item.above = above ∧ item.ReadFrom line [] := by
  simp only [readItem, bind_eq_ok] at read
  obtain ⟨⟨head, first⟩, headIs, beginning, beginningIs, read⟩ := read
  cases beginning with
  | opened quote => cases read
  | whole value after =>
    simp only [bind_eq_ok] at read
    obtain ⟨⟨trailing, tail⟩, ends, read⟩ := read
    cases read
    exact ⟨rfl, head, first, after, headIs, .whole beginningIs, ends, rfl⟩

theorem readItem_opened (above : List CommentLine) (line : Text) (start : Nat) (item : OpenItem)
    (read : readItem above line start = .ok (.inr item)) :
    item.above = above ∧ Scan.head line = .ok (item.head, item.raw) ∧
      Scan.beginning item.raw = .ok (.opened item.quote) := by
  simp only [readItem, bind_eq_ok] at read
  obtain ⟨⟨head, first⟩, headIs, beginning, beginningIs, read⟩ := read
  cases beginning with
  | opened quote =>
    cases read
    exact ⟨rfl, headIs, beginningIs⟩
  | whole value after =>
    simp only [bind_eq_ok] at read
    obtain ⟨_, _, read⟩ := read
    cases read

theorem OpenItem.close_readFrom (item : OpenItem) (line last after : Text) (inner : List Text)
    (stop : Nat) (closed : Item) (headIs : Scan.head line = .ok (item.head, item.raw))
    (opens : Scan.beginning item.raw = .ok (.opened item.quote))
    (inside : ∀ line ∈ inner, Scan.closeBlock item.quote.mark line = none)
    (closes : Scan.closeBlock item.quote.mark last = some after)
    (isClosed : close { item with raw := item.raw ++ inner.flatMap ('\n' :: ·) } last after stop =
      .ok closed) :
    closed.above = item.above ∧ closed.ReadFrom line (inner ++ [last]) := by
  simp only [close] at isClosed
  cases ends : Scan.lineEnd after with
  | error fault =>
    rw [ends] at isClosed
    cases isClosed
  | ok found =>
    rw [ends] at isClosed
    cases isClosed
    exact ⟨rfl, item.head, item.raw, after, headIs, .block opens inside closes, ends, rfl⟩

theorem Portions.of_finish (start : Nat) (lines : List Text) (above : List CommentLine)
    (nodes : List Node) (finished : (Position.between above).finish start lines = .ok nodes) :
    ∃ body last, Portions above lines body last ∧ nodes = body ++ looseBlock last := by
  induction count : lines.length using Nat.strongRecOn generalizing start lines above nodes with
  | _ size ih =>
    cases lines with
    | nil =>
      cases finished
      exact ⟨[], above, .done, rfl⟩
    | cons line more =>
      simp only [List.length_cons] at count
      have oneLine : ∀ first next others, Portion above [line] first next →
          (∃ below, (Position.between next).finish below more = .ok others) →
            ∃ body last, Portions above (line :: more) body last ∧
              first ++ others = body ++ looseBlock last := by
        intro first next others portion ⟨below, finishedOthers⟩
        obtain ⟨body, last, portions, rfl⟩ := ih more.length (by omega) below more next others
          finishedOthers rfl
        exact ⟨first ++ body, last, .more portion portions, by rw [List.append_assoc]⟩
      rw [Position.finish_cons, bind_eq_ok] at finished
      obtain ⟨⟨first, next⟩, stepped, finished⟩ := finished
      rw [bind_eq_ok] at finished
      obtain ⟨others, finishedOthers, same⟩ := finished
      cases same
      simp only [Position.step] at stepped
      cases lineIs : LineClass.of line with
      | blank =>
        rw [lineIs] at stepped
        cases stepped
        exact oneLine _ [] others (.blank lineIs) ⟨_, finishedOthers⟩
      | comment =>
        rw [lineIs] at stepped
        dsimp only at stepped
        split at stepped
        · cases stepped
        · rename_i divider read
          cases stepped
          exact oneLine _ [] others (.divider lineIs read) ⟨_, finishedOthers⟩
        · rename_i comment read
          cases stepped
          exact oneLine _ _ others (.comment lineIs read) ⟨_, finishedOthers⟩
      | item =>
        rw [lineIs] at stepped
        dsimp only at stepped
        split at stepped
        · cases stepped
        · rename_i item read
          cases stepped
          obtain ⟨rfl, readFrom⟩ := readItem_whole above line start item read
          exact oneLine _ [] others (.item readFrom) ⟨_, finishedOthers⟩
        · rename_i item read
          cases stepped
          obtain ⟨rfl, headIs, opens⟩ := readItem_opened above line start item read
          obtain ⟨inner, lastLine, after, beyond, closed, rest, stop, below, rfl, inside, closes,
            isClosed, rfl, finishedRest⟩ := Position.inside_finish _ more item others finishedOthers
          obtain ⟨sameAbove, readFrom⟩ := item.close_readFrom line lastLine after inner stop closed
            headIs opens inside closes isClosed
          have shorter : beyond.length < size := by
            rw [List.length_append, List.length_cons] at count
            omega
          obtain ⟨body, last, portions, rfl⟩ := ih beyond.length shorter below beyond [] rest
            finishedRest rfl
          refine ⟨.item closed :: body, last, ?_, rfl⟩
          have whole := Portions.more (.item readFrom) portions
          rw [sameAbove] at whole
          simpa using whole

theorem Portions.of_nil {run last : List CommentLine} {nodes : List Node}
    (portions : Portions run [] nodes last) : nodes = [] ∧ last = run := by
  generalize isNil : ([] : List Text) = lines at portions
  cases portions with
  | done => exact ⟨rfl, rfl⟩
  | more first back => cases first <;> cases isNil

theorem Document.portions_of_read (source : Text) (document : Document)
    (isRead : readVerbatim source = .ok document) :
    ∃ body last, Portions [] (Text.lines (Text.unixLines source)) body last ∧
      document.nodes = body ++ looseBlock last :=
  Portions.of_finish _ _ _ _ ((readVerbatim_eq_ok source document).mp isRead).1

theorem Portions.written {above last : List CommentLine} {lines : List Text} {nodes : List Node}
    (portions : Portions above lines nodes last) :
    Text.closed (nodes.map Node.render) ++ Text.closed (last.map CommentLine.render) =
      Text.closed (above.map CommentLine.render) ++ Text.closed lines := by
  obtain ⟨placed, ran, same⟩ := portions.run 0
  have written := Position.run_written lines 0 _ _ placed ran
  have sameText : placed.map Node.render = nodes.map Node.render := by
    have rendered : ∀ list : List Node, list.map Node.render =
        (list.map Node.unplaced).map Node.render := by
      intro list
      rw [List.map_map]
      exact List.map_congr_left fun node _ => node.render_unplaced.symm
    rw [rendered placed, same, ← rendered nodes]
  rw [sameText] at written
  exact written

namespace Item.ReadFrom

variable {item : Item} {line : Text} {own : List Text}

theorem written (read : item.ReadFrom line own) :
    Text.closed (line :: own) = item.renderOwn ++ ['\n'] := by
  have whole := (Portions.more (.item read) .done).written
  simp only [List.append_nil, List.map_nil, Text.closed_nil] at whole
  rw [closed_item, Text.closed_append, List.append_cancel_left_eq, Text.closed_singleton] at whole
  exact whole.symm

theorem last_filled (read : item.ReadFrom line own) : (line :: own).getLast? ≠ some [] := by
  obtain ⟨head, first, after, headIs, value, -⟩ := read
  intro empty
  generalize item.value = found at value
  cases value with
  | whole begins =>
    rw [List.getLast?_singleton, Option.some.injEq] at empty
    rw [empty] at headIs
    cases headIs
  | block opens inside closes =>
    rw [← List.cons_append, List.getLast?_concat] at empty
    rw [Option.some.inj empty] at closes
    cases closes

theorem lines_renderOwn (read : item.ReadFrom line own) (areLines : Text.AreLines (line :: own)) :
    Text.lines item.renderOwn = line :: own :=
  Text.lines_of_closed _ _ areLines (Or.inr ⟨read.written, read.last_filled⟩)

end Item.ReadFrom

/-! ## Around a node -/

/-- Whether a node ends the run above it: an item, a divider or a block that one closes. -/
def Node.isSettled : Node → Bool
  | blank _ => false
  | block _ none => false
  | _ => true

theorem Portion.settled_of_mem {above next : List CommentLine} {lines : List Text}
    {nodes : List Node} (portion : Portion above lines nodes next) (node : Node)
    (settled : node.isSettled = true) (member : node ∈ nodes) : nodes = [node] ∧ next = [] := by
  cases portion with
  | blank isBlank =>
    rcases List.mem_append.mp member with inLoose | inBlank
    · unfold looseBlock at inLoose
      split at inLoose
      · cases inLoose
      · rw [List.mem_singleton.mp inLoose] at settled
        cases settled
    · rw [List.mem_singleton.mp inBlank] at settled
      cases settled
  | divider isComment read => exact ⟨by rw [List.mem_singleton.mp member], rfl⟩
  | comment isComment read => cases member
  | item read => exact ⟨by rw [List.mem_singleton.mp member], rfl⟩

/-- Portions around a settled node: the lines above leave a run, then come the lines of the node,
and the lines below it start anew. -/
theorem Portions.split_settled {above last : List CommentLine} {lines : List Text}
    {nodes : List Node} (portions : Portions above lines nodes last) (front : List Node)
    (node : Node) (settled : node.isSettled = true) (back : List Node)
    (isNodes : nodes = front ++ node :: back) :
    ∃ upper own lower run, lines = upper ++ (own ++ lower) ∧ Portions above upper front run ∧
      Portion run own [node] [] ∧ Portions [] lower back last := by
  induction portions generalizing front with
  | done => simp at isNodes
  | @more run middle last lines others nodes rest first portions ih =>
    rcases List.append_eq_append_iff.mp isNodes with ⟨inner, rfl, isRest⟩ | ⟨inner, rfl, isBack⟩
    · obtain ⟨upper, own, lower, left, rfl, upperPortions, portion, lowerPortions⟩ :=
        ih inner isRest
      exact ⟨lines ++ upper, own, lower, left, by rw [List.append_assoc],
        .more first upperPortions, portion, lowerPortions⟩
    · cases inner with
      | nil =>
        obtain ⟨upper, own, lower, left, rfl, upperPortions, portion, lowerPortions⟩ :=
          ih [] isBack.symm
        rw [List.append_nil] at first
        have whole := Portions.more first upperPortions
        rw [List.append_nil] at whole
        exact ⟨lines ++ upper, own, lower, left, by rw [List.append_assoc], whole, portion,
          lowerPortions⟩
      | cons other inner =>
        obtain ⟨rfl, rfl⟩ := List.cons.inj isBack
        obtain ⟨only, rfl⟩ := first.settled_of_mem node settled (by simp)
        have isSingle : front = [] ∧ inner = [] := by
          have length := congrArg List.length only
          simp only [List.length_append, List.length_cons, List.length_nil] at length
          exact ⟨List.length_eq_zero_iff.mp (by omega), List.length_eq_zero_iff.mp (by omega)⟩
        obtain ⟨rfl, rfl⟩ := isSingle
        exact ⟨[], lines, others, run, rfl, .done, first, portions⟩

theorem Portions.split {above last : List CommentLine} {lines : List Text} {nodes : List Node}
    (portions : Portions above lines nodes last) (front : List Node) (item : Item)
    (back : List Node) (isNodes : nodes = front ++ .item item :: back) :
    ∃ upper line own lower, lines = upper ++ line :: (own ++ lower) ∧
      Portions above upper front item.above ∧ item.ReadFrom line own ∧
      Portions [] lower back last := by
  obtain ⟨upper, lines, lower, run, rfl, upperPortions, portion, lowerPortions⟩ :=
    portions.split_settled front (.item item) rfl back isNodes
  generalize isNode : [Node.item item] = node, ([] : List CommentLine) = next at portion
  cases portion with
  | blank isBlank => cases run <;> cases isNode
  | divider isComment read => cases run <;> cases isNode
  | comment isComment read => cases isNode
  | item read =>
    cases isNode
    exact ⟨upper, _, _, lower, rfl, upperPortions, read, lowerPortions⟩

/-- Every item of a document that was read was read from lines of its own. -/
theorem Document.readFrom_of_mem (source : Text) (document : Document)
    (isRead : readVerbatim source = .ok document) (item : Item)
    (member : .item item ∈ document.nodes) :
    ∃ line own, item.ReadFrom line own ∧ Text.AreLines (line :: own) := by
  obtain ⟨body, last, portions, isNodes⟩ := portions_of_read source document isRead
  have inBody : .item item ∈ body := by
    rw [isNodes] at member
    rcases List.mem_append.mp member with inBody | inLoose
    · exact inBody
    · cases last <;> simp [looseBlock] at inLoose
  obtain ⟨front, back, isBody⟩ := List.append_of_mem inBody
  obtain ⟨upper, line, own, lower, isLines, -, read, -⟩ := portions.split front item back isBody
  have areLines := Text.areLines_lines (Text.unixLines source)
  rw [isLines, ← List.cons_append, Text.areLines_append, Text.areLines_append] at areLines
  exact ⟨line, own, read, areLines.2.1⟩

def Node.closed? : Node → Option (List CommentLine × Text)
  | divider raw => some ([], raw)
  | block comments (some closing) => some (comments, closing)
  | _ => none

theorem Node.settled_of_closed? (node : Node) {comments : List CommentLine} {closing : Text}
    (isClosed : node.closed? = some (comments, closing)) : node.isSettled = true := by
  cases node with
  | block lines divider => cases divider <;> first | rfl | cases isClosed
  | divider raw => rfl
  | _ => cases isClosed

theorem Portions.split_closed {above last : List CommentLine} {lines : List Text}
    {nodes : List Node} (portions : Portions above lines nodes last) (front : List Node)
    (node : Node) (comments : List CommentLine) (closing : Text)
    (isClosed : node.closed? = some (comments, closing)) (back : List Node)
    (isNodes : nodes = front ++ node :: back) :
    ∃ upper lower, lines = upper ++ closing :: lower ∧ Portions above upper front comments ∧
      LineClass.of closing = .comment ∧ readComment closing = .ok (.inl closing) ∧
      Portions [] lower back last := by
  obtain ⟨upper, lines, lower, run, rfl, upperPortions, portion, lowerPortions⟩ :=
    portions.split_settled front node (node.settled_of_closed? isClosed) back isNodes
  generalize isNode : [node] = alone, ([] : List CommentLine) = next at portion
  cases portion with
  | blank isBlank =>
    cases run <;> cases isNode
    cases isClosed
  | comment isComment read => cases isNode
  | divider isComment read =>
    cases isNode
    have written := readComment_written _ _ isComment read
    cases run <;> cases isClosed <;> cases written <;>
      exact ⟨upper, lower, rfl, upperPortions, isComment, read, lowerPortions⟩
  | item read =>
    cases isNode
    cases isClosed

theorem Portions.item_first {above last : List CommentLine} {line : Text} {more : List Text}
    {nodes : List Node} (isItem : LineClass.of line = .item)
    (portions : Portions above (line :: more) nodes last) :
    ∃ placed own lower back, more = own ++ lower ∧ placed.above = above ∧
      placed.ReadFrom line own ∧ nodes = .item placed :: back ∧ Portions [] lower back last := by
  generalize isLines : line :: more = lines at portions
  cases portions with
  | done => cases isLines
  | more first portions =>
    cases first with
    | blank isBlank =>
      obtain ⟨rfl, -⟩ := List.cons.inj isLines
      rw [isItem] at isBlank
      cases isBlank
    | divider isComment read =>
      obtain ⟨rfl, -⟩ := List.cons.inj isLines
      rw [isItem] at isComment
      cases isComment
    | comment isComment read =>
      obtain ⟨rfl, -⟩ := List.cons.inj isLines
      rw [isItem] at isComment
      cases isComment
    | item read =>
      obtain ⟨rfl, rfl⟩ := List.cons.inj isLines
      exact ⟨_, _, _, _, rfl, rfl, read, rfl, portions⟩

theorem Portions.getLast?_ne {above last : List CommentLine} {lines : List Text}
    {nodes : List Node} (portions : Portions above lines nodes last) (comments : List CommentLine) :
    nodes.getLast? ≠ some (.block comments none) := by
  induction portions with
  | done => exact fun empty => nomatch empty
  | more first _ ih =>
    rw [List.getLast?_append]
    intro found
    rcases Option.or_eq_some_iff.mp found with inRest | ⟨-, inFirst⟩
    · exact ih inRest
    · cases first with
      | blank isBlank => simp at inFirst
      | divider isComment read =>
        unfold closedBlock at inFirst
        split at inFirst <;> simp at inFirst
      | comment isComment read => cases inFirst
      | item read => simp at inFirst

end Dotenv
