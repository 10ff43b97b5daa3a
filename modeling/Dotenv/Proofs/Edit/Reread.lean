import Dotenv.Proofs.Edit.Target
import Dotenv.Proofs.Edit.Value
/-!
# Documents read back

An edit changes the lines of one node and leaves those around it. The document is read back from its
text just when the changed lines yield nodes that say the same, among the nodes in front of them.
-/

set_option autoImplicit false

namespace Dotenv

/-! ## Lines read again -/

section
variable {run last : List CommentLine} {upper middle lower : List Text}
  {front nodes others back : List Node}

def SaySame (bare : Bool) (front nodes others : List Node) : Prop :=
  ∀ rest, (Document.expand bare ⟨front ++ (others ++ rest), false⟩).contents =
    (Document.expand bare ⟨front ++ (nodes ++ rest), false⟩).contents

theorem Portions.finish_reread (upperPortions : Portions [] upper front run)
    (portions : Portions run middle others []) (lowerPortions : Portions [] lower back last)
    (bare : Bool) (same : SaySame bare front nodes others) :
    ∃ read, (Position.between []).finish 0 (upper ++ (middle ++ lower)) = .ok read ∧
      (Document.expand bare ⟨read, false⟩).contents =
        (Document.expand bare
          ⟨front ++ (nodes ++ (back ++ looseBlock last)), false⟩).contents := by
  have whole := upperPortions.append (portions.append lowerPortions)
  obtain ⟨read, finished, unplaced⟩ := whole.finish 0
  refine ⟨read, finished, ?_⟩
  rw [Document.contents_expand_of_unplaced bare read _ false false unplaced, List.append_assoc,
    List.append_assoc]
  exact same _

theorem Portions.finish_lost (upperPortions : Portions [] upper front run) (bare : Bool)
    (lost : ∀ others final, Portions run (middle ++ lower) others final →
      ∀ rest, (Document.expand bare ⟨front ++ (others ++ looseBlock final), false⟩).contents ≠
        (Document.expand bare ⟨front ++ (nodes ++ rest), false⟩).contents) (read rest : List Node)
    (finished : (Position.between []).finish 0 (upper ++ (middle ++ lower)) = .ok read) :
    (Document.expand bare ⟨read, false⟩).contents ≠
      (Document.expand bare ⟨front ++ (nodes ++ rest), false⟩).contents := by
  obtain ⟨placedFront, ran, sameFront⟩ := upperPortions.run 0
  rw [Position.finish_append, ran, bind_eq_ok] at finished
  obtain ⟨taken, sameTaken, finished⟩ := finished
  cases sameTaken
  rw [bind_eq_ok] at finished
  obtain ⟨below, finishedBelow, isRead⟩ := finished
  cases isRead
  obtain ⟨others, final, portions, rfl⟩ := Portions.of_finish _ _ _ below finishedBelow
  have unplaced : (placedFront ++ (others ++ looseBlock final)).map Node.unplaced =
      (front ++ (others ++ looseBlock final)).map Node.unplaced := by
    rw [List.map_append, sameFront, ← List.map_append]
  rw [Document.contents_expand_of_unplaced bare _ _ false false unplaced]
  exact lost others final portions rest

end

theorem Item.WrittenAs.rendered {item : Item} {line : Text} {own : List Text}
    (written : item.WrittenAs line own) :
    Text.closed ([Node.item item].map Node.render) =
      Text.closed (item.above.map CommentLine.render) ++ Text.closed (line :: own) := by
  rw [written.closed, ← Text.closed_singleton, ← Text.closed_append]
  exact closed_item item

theorem Item.RereadFrom.portions {item : Item} {line : Text} {own : List Text}
    (reread : item.RereadFrom line own) (bare : Bool) (front : List Node) :
    ∃ others, Portions item.above (line :: own) others [] ∧
      SaySame bare front [.item item] others := by
  obtain ⟨placed, read, sameAbove, key, value, comments⟩ := reread
  refine ⟨[.item placed], ?_, fun rest => ?_⟩
  · rw [← sameAbove, ← List.append_nil (line :: own), ← List.append_nil [Node.item placed]]
    exact .more (.item read) .done
  · rw [List.singleton_append, List.singleton_append, Document.contents_item,
      Document.contents_item, Item.contents_expand_congr bare placed item key value comments]

theorem Item.LostOn.portions {item : Item} {line : Text} {own lower : List Text}
    (lost : item.LostOn line own) (bare : Bool) (front : List Node) {others : List Node}
    {final : List CommentLine} (portions : Portions item.above (line :: own ++ lower) others final)
    (back rest : List Node) :
    (Document.expand bare ⟨front ++ (others ++ back), false⟩).contents ≠
      (Document.expand bare ⟨front ++ ([.item item] ++ rest), false⟩).contents := by
  obtain ⟨isItem, differs⟩ := lost
  obtain ⟨placed, taken, left, after, same, sameAbove, read, rfl, -⟩ := portions.item_first isItem
  rw [List.cons_append, List.singleton_append, Document.contents_item, Document.contents_item]
  intro sameContents
  have sameItems := congrArg Document.Contents.items sameContents
  simp only at sameItems
  exact differs placed taken left lower same.symm read sameAbove bare
    (List.cons.inj (List.append_cancel_left sameItems)).1

/-! ## Documents -/

namespace Document

theorem read_standard_eq_ok (source : Text) (document : Document) :
    read .standard source = .ok document ↔
      ∃ verbatim, readVerbatim source = .ok verbatim ∧ document = verbatim.expand true := by
  simp only [read, ReadOptions.standard, if_true, map_eq_ok]
  exact exists_congr fun verbatim => and_congr_right' eq_comm

/-- What is read back from a text says what the nodes say that its lines yield. -/
theorem read_back (text : Text) (lines : List Text) (unix : Text.unixLines text = text)
    (isLines : Text.lines text = lines) (contents : Contents) :
    (∃ again, read .standard text = .ok again ∧ again.contents = contents) ↔
      ∃ nodes, (Position.between []).finish 0 lines = .ok nodes ∧
        (expand true ⟨nodes, false⟩).contents = contents := by
  constructor
  · rintro ⟨again, success, rfl⟩
    obtain ⟨verbatim, readBack, rfl⟩ := (read_standard_eq_ok text again).mp success
    obtain ⟨finished, -⟩ := (readVerbatim_eq_ok text verbatim).mp readBack
    rw [unix, isLines] at finished
    exact ⟨verbatim.nodes, finished, rfl⟩
  · rintro ⟨nodes, finished, rfl⟩
    refine ⟨expand true ⟨nodes, Text.endsWithNewline text⟩, ?_, rfl⟩
    refine (read_standard_eq_ok text _).mpr ⟨_, (readVerbatim_eq_ok text _).mpr ⟨?_, ?_⟩, rfl⟩
    · rw [unix, isLines]
      exact finished
    · rw [unix]

theorem lines_render (nodes : List Node) (trailingNewline : Bool) (lines : List Text)
    (filled : nodes ≠ []) (areLines : Text.AreLines lines)
    (written : Text.closed (nodes.map Node.render) = Text.closed lines)
    (ended : trailingNewline = false → lines.getLast? ≠ some []) :
    Text.lines (Document.mk nodes trailingNewline).render = lines := by
  refine Text.lines_of_closed _ lines areLines ?_
  obtain ⟨first, rest, rfl⟩ := List.exists_cons_of_ne_nil filled
  rw [← written, List.map_cons, ← Text.closed_join]
  cases trailingNewline with
  | true =>
    left
    simp only [render, List.map_cons, if_true]
  | false =>
    right
    refine ⟨?_, ended rfl⟩
    simp only [render, List.map_cons, Bool.false_eq_true, if_false, List.append_nil]

/-- What the document says is read back from its text. -/
def Survives (document : Document) : Prop :=
  ∃ again, read .standard document.render = .ok again ∧ again.contents = document.contents

theorem survives_iff (nodes : List Node) (trailingNewline : Bool) (lines : List Text)
    (filled : nodes ≠ []) (areLines : Text.AreLines lines)
    (written : Text.closed (nodes.map Node.render) = Text.closed lines)
    (ended : trailingNewline = false → lines.getLast? ≠ some [])
    (unix : Text.unixLines (expand true ⟨nodes, trailingNewline⟩).render =
      (expand true ⟨nodes, trailingNewline⟩).render) :
    (expand true ⟨nodes, trailingNewline⟩).Survives ↔
      ∃ others, (Position.between []).finish 0 lines = .ok others ∧
        (expand true ⟨others, false⟩).contents = (expand true ⟨nodes, false⟩).contents := by
  refine read_back _ lines unix ?_ _
  rw [render_expand]
  exact lines_render nodes trailingNewline lines filled areLines written ended

end Document

/-- A document with other nodes in the place of some is read back from its text just when the
lines of these nodes are. -/
theorem Portions.survives {run last : List CommentLine} {upper middle lower : List Text}
    {front nodes back : List Node} (upperPortions : Portions [] upper front run)
    (lowerPortions : Portions [] lower back last) (filled : nodes ≠ [])
    (written : Text.closed (nodes.map Node.render) =
      Text.closed (run.map CommentLine.render) ++ Text.closed middle)
    (areLines : Text.AreLines (upper ++ (middle ++ lower))) (middleFilled : middle ≠ [])
    (middleEnded : middle.getLast? ≠ some []) (trailingNewline : Bool)
    (ended : trailingNewline = false → lower.getLast? ≠ some [])
    (unix : Text.unixLines (Document.expand true
        ⟨front ++ (nodes ++ (back ++ looseBlock last)), trailingNewline⟩).render =
      (Document.expand true
        ⟨front ++ (nodes ++ (back ++ looseBlock last)), trailingNewline⟩).render)
    (keeps : Prop)
    (reread : keeps → ∃ others, Portions run middle others [] ∧ SaySame true front nodes others)
    (lost : ¬ keeps → ∀ others final, Portions run (middle ++ lower) others final →
      ∀ rest, (Document.expand true ⟨front ++ (others ++ looseBlock final), false⟩).contents ≠
        (Document.expand true ⟨front ++ (nodes ++ rest), false⟩).contents) :
    (Document.expand true
      ⟨front ++ (nodes ++ (back ++ looseBlock last)), trailingNewline⟩).Survives ↔ keeps := by
  have upperWritten := upperPortions.written
  have lowerWritten := lowerPortions.written
  simp only [List.map_nil, Text.closed_nil, List.nil_append] at upperWritten lowerWritten
  have allWritten : Text.closed ((front ++ (nodes ++ (back ++ looseBlock last))).map Node.render) =
      Text.closed (upper ++ (middle ++ lower)) := by
    simp only [List.map_append, Text.closed_append, closed_looseBlock, written]
    rw [lowerWritten, ← List.append_assoc, ← List.append_assoc, upperWritten, List.append_assoc]
  have allEnded : trailingNewline = false → (upper ++ (middle ++ lower)).getLast? ≠ some [] := by
    intro isOpen
    rw [List.getLast?_append, List.getLast?_append]
    cases atEnd : lower.getLast? with
    | some final =>
      rw [← atEnd]
      simpa [atEnd] using ended isOpen
    | none =>
      cases inMiddle : middle.getLast? with
      | some final =>
        rw [← inMiddle]
        simpa [inMiddle] using middleEnded
      | none => exact absurd (List.getLast?_eq_none_iff.mp inMiddle) middleFilled
  rw [Document.survives_iff _ trailingNewline _ (by simp [filled]) areLines allWritten allEnded
    unix]
  constructor
  · rintro ⟨read, finished, same⟩
    by_contra differs
    exact upperPortions.finish_lost true (lost differs) read _ finished same
  · intro kept
    obtain ⟨others, portions, sameContents⟩ := reread kept
    exact upperPortions.finish_reread portions lowerPortions true sameContents

theorem Item.overruns_expand (bare : Bool) (item : Item) :
    (item.expand bare).Overruns ↔ item.Overruns := by
  have sameValue : (item.expand bare).writtenValue = item.writtenValue := by
    simp only [writtenValue, expand, Option.map_map]
    cases item.value with
    | none => rfl
    | some term => simp only [Option.map_some, Function.comp_apply, Term.render_expand]
  have sameAfter : (item.expand bare).afterValue = item.afterValue := by
    simp only [afterValue, expand]
    cases item.trailing with
    | none => rfl
    | some trailing => simp only [Option.map_some, CommentLine.render_expand]
  rw [Overruns, sameValue, sameAfter]
  rfl

/-! ## Around the node of an edit -/

theorem split_looseBlock (body front back : List Node) (last : List CommentLine) (node : Node)
    (settled : node.isSettled = true) (same : body ++ looseBlock last = front ++ node :: back) :
    ∃ between, body = front ++ node :: between ∧ back = between ++ looseBlock last := by
  have outside : node ∉ looseBlock last := by
    intro member
    cases last with
    | nil => cases member
    | cons first rest =>
      rw [List.mem_singleton.mp member] at settled
      cases settled
  rcases List.append_eq_append_iff.mp same with ⟨inner, -, isLoose⟩ | ⟨inner, isBody, isRest⟩
  · rw [isLoose] at outside
    exact absurd (by simp) outside
  · cases inner with
    | nil =>
      rw [List.nil_append] at isRest
      rw [← isRest] at outside
      exact absurd List.mem_cons_self outside
    | cons first between =>
      obtain ⟨rfl, rfl⟩ := List.cons.inj isRest
      exact ⟨between, isBody, rfl⟩

theorem Text.ended_below (source : Text) (upper lower : List Text)
    (isLines : Text.lines (Text.unixLines source) = upper ++ lower)
    (isOpen : Text.endsWithNewline (Text.unixLines source) = false) :
    lower.getLast? ≠ some [] := by
  intro atEnd
  refine Text.getLast?_lines _ isOpen ?_
  rw [isLines, List.getLast?_append, atEnd]
  rfl

structure Around (document : Document) (key : Text) (item : Item) (front between : List Node)
    (last : List CommentLine) (upper : List Text) (line : Text) (own lower : List Text) : Prop where
  isNodes : document.nodes = front ++ ([.item item] ++ (between ++ looseBlock last))
  isKey : item.key = key
  noLater : ∀ other, Node.item other ∈ between ++ looseBlock last → other.key ≠ key
  above : Portions [] upper front item.above
  read : item.ReadFrom line own
  below : Portions [] lower between last
  upperLines : Text.AreLines upper
  ownLines : Text.AreLines (line :: own)
  lowerLines : Text.AreLines lower
  ended : document.trailingNewline = false → lower.getLast? ≠ some []

theorem Around.item? {document : Document} {key : Text} {item changed : Item}
    {front between : List Node} {last : List CommentLine} {upper : List Text} {line : Text}
    {own lower : List Text}
    (around : Around document key item front between last upper line own lower)
    (sameKey : changed.key = item.key) (bare : Bool) (trailingNewline : Bool) :
    (Document.expand bare ⟨front ++ ([.item changed] ++ (between ++ looseBlock last)),
      trailingNewline⟩).item? key = some (changed.expand bare) := by
  rw [Document.item?_expand, List.singleton_append, Document.item?_last key front _ changed _
    (sameKey.trans around.isKey) around.noLater]
  rfl

theorem Document.around_updated (source key : Text) (change : Item → Item) (document : Document)
    (isRead : readVerbatim source = .ok document) (nodes : List Node)
    (updated : Node.updateLast key change document.nodes = some nodes) :
    ∃ item front between last upper line own lower,
      Around document key item front between last upper line own lower ∧
        nodes = front ++ ([.item (change item)] ++ (between ++ looseBlock last)) := by
  obtain ⟨-, trailing⟩ := (readVerbatim_eq_ok source document).mp isRead
  obtain ⟨body, last, portions, isBody⟩ := portions_of_read source document isRead
  obtain ⟨front, item, back, isNodes, isKey, rfl, noLater⟩ :=
    Node.updateLast_eq_some key _ document.nodes nodes updated
  obtain ⟨between, rfl, rfl⟩ :=
    split_looseBlock body front back last (.item item) rfl (isBody.symm.trans isNodes)
  obtain ⟨upper, line, own, lower, isLines, upperPortions, read, lowerPortions⟩ :=
    portions.split front item between rfl
  have areLines := Text.areLines_lines (Text.unixLines source)
  rw [isLines, ← List.cons_append, Text.areLines_append, Text.areLines_append] at areLines
  obtain ⟨upperLines, ownLines, lowerLines⟩ := areLines
  refine ⟨item, front, between, last, upper, line, own, lower, ⟨isNodes, isKey, noLater,
    upperPortions, read, lowerPortions, upperLines, ownLines, lowerLines, fun isOpen => ?_⟩, rfl⟩
  refine Text.ended_below source (upper ++ (line :: own)) lower ?_ (trailing ▸ isOpen)
  rw [isLines, List.append_assoc]
  rfl

end Dotenv
