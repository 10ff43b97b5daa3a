import Dotenv.Proofs.Edit.Reread
import Dotenv.Proofs.Reading.Runs
/-!
# Other comments around a value

An item with other comment lines, above it or behind its value, read again. The comment behind a
value is at risk twice: the value may take it in, and its decorators may not end where they should.
-/

set_option autoImplicit false

namespace Dotenv

/-! ## Lines that were read -/

namespace Scan

theorem lineEnd_gap {gap : Text} (isGap : Text.skipGap gap = []) (afterHash : Text) :
    lineEnd (gap ++ '#' :: afterHash) =
      (comment ['#'] afterHash).map fun comment => (some ⟨gap, comment⟩, []) := by
  obtain ⟨sameGap, isHash⟩ := gap_solid_append isGap '#' afterHash rfl
  simp only [lineEnd, sameGap, isHash, if_true]

theorem lineEnd_some (text tail : Text) (trailing : TrailingComment)
    (read : lineEnd text = .ok (some trailing, tail)) :
    trailing.gap = Text.gap text ∧ trailing.comment.Holds ∧
      ∀ row, trailing.comment = .decorated row → row.Formed ['#'] := by
  simp only [lineEnd] at read
  split at read
  · cases read
  · rename_i c rest _
    split at read
    · obtain ⟨found, isComment, same⟩ := (map_eq_ok _ _ _).mp read
      cases same
      refine ⟨rfl, comment_holds _ _ found isComment, fun row isRow => ?_⟩
      subst isRow
      exact comment_formed _ _ row isComment
    · cases read

theorem beginning_fits (text : Text) (value : Term) (after : Text)
    (read : beginning text = .ok (.whole (some value) after)) (solid : Text.skipGap text = text)
    (ends : EndsValue after) : ¬ Swallows value.render after := by
  intro swallows
  have whole := beginning_append text (some value) after read
  simp only [Option.map_some, Option.getD_some] at whole
  obtain ⟨c, rest, isValue, -, notGap⟩ := value_head text value after read solid ends
  have alone := beginning_alone text value after read solid ends
  have solidAlone : Text.skipGap value.render = value.render := by
    rw [isValue]
    exact Text.skipGap_cons c rest notGap
  obtain ⟨longer, more, left, again, isLonger, hash⟩ :=
    beginning_swallowed _ value [] after alone solidAlone rfl ends swallows
  rw [whole, read] at again
  cases again
  rw [List.append_right_eq_self.mp isLonger.symm] at hash
  cases hash

end Scan

namespace Item.ReadFrom

variable {item : Item} {line : Text} {own : List Text}

theorem fits (read : item.ReadFrom line own) (areLines : Text.AreLines (line :: own)) :
    ¬ item.Overruns := by
  obtain ⟨head, first, headIs, -, -, value, ends, -⟩ := read.parts areLines
  have solid := Scan.head_rest_solid line head first headIs
  have endsValue := Scan.lineEnd_endsValue _ _ ends
  rw [Overruns, writtenValue]
  generalize item.afterValue = after at value endsValue
  generalize item.value = found at value
  cases value with
  | whole begins =>
    cases found with
    | none => exact Scan.not_swallows_nil after endsValue
    | some term => exact Scan.beginning_fits first term after begins solid endsValue
  | block opens inside closes =>
    simp only [Option.map_some, Option.getD_some, Term.render]
    exact Scan.not_swallows_block _ first _ after after _ opens closes

theorem trailing (read : item.ReadFrom line own) (areLines : Text.AreLines (line :: own))
    (trailing : TrailingComment) (isTrailing : item.trailing = some trailing) :
    trailing.comment.Holds ∧ '\n' ∉ trailing.comment.render ∧
      ∀ row, trailing.comment = .decorated row → row.Formed ['#'] := by
  obtain ⟨head, first, -, -, valueLines, reads, ends, -⟩ := read.parts areLines
  have afterLine := reads.after_line valueLines
  rw [isTrailing] at ends
  obtain ⟨-, holds, formed⟩ := Scan.lineEnd_some _ item.tail trailing ends
  rw [afterValue, isTrailing, List.mem_append, not_or] at afterLine
  exact ⟨holds, afterLine.2, formed⟩

theorem noGap (read : item.ReadFrom line own) (areLines : Text.AreLines (line :: own))
    {trailing : TrailingComment} (isTrailing : item.trailing = some trailing)
    (absent : item.value = none) : trailing.gap = [] := by
  obtain ⟨head, first, headIs, -, -, reads, ends, -⟩ := read.parts areLines
  rw [isTrailing] at ends
  obtain ⟨isGap, -⟩ := Scan.lineEnd_some _ _ trailing ends
  rw [absent] at reads
  cases reads with
  | whole begins =>
    have same : item.afterValue = first := Scan.beginning_append first none _ begins
    have whole := Text.gap_append_skipGap first
    rw [Scan.head_rest_solid line head first headIs] at whole
    rw [isGap, same]
    exact List.append_left_eq_self.mp whole

theorem withAbove (read : item.ReadFrom line own) (areLines : Text.AreLines (line :: own))
    (above : List CommentLine) : ({ item with above } : Item).WrittenAs line own ∧
      ({ item with above } : Item).RereadFrom line own := by
  have written := read.written
  have filled := read.last_filled
  obtain ⟨head, first, after, headIs, value, ends, isItem⟩ := read
  refine ⟨⟨areLines, filled, written⟩, { item with above },
    ⟨head, first, after, headIs, value, ends, ?_⟩, rfl, rfl, rfl, rfl⟩
  rw [isItem]
  rfl

end Item.ReadFrom

/-! ## Another comment behind a value -/

theorem Item.contents_decorators (bare : Bool) (item : Item) :
    (item.expand bare).contents.decorators =
      item.comments.flatMap (CommentLine.sayings bare) := by
  simp only [contents, decorators, comments_expand, List.flatMap_map, List.map_flatMap,
    CommentLine.decorators_expand, List.map_map]
  rfl

theorem Item.contents_ne_of_diverge (bare : Bool) {item other : Item}
    (diverge : Diverge (other.comments.flatMap (CommentLine.sayings bare))
      (item.comments.flatMap (CommentLine.sayings bare))) :
    (other.expand bare).contents ≠ (item.expand bare).contents := by
  intro same
  have sameDecorators := congrArg Contents.decorators same
  rw [contents_decorators, contents_decorators] at sameDecorators
  exact diverge.ne sameDecorators

/-- The lines of an item with another line of decorators behind its value: the item is read from
them again if the decorators hold and the value does not take them in. -/
theorem Item.ReadFrom.withComment {item : Item} {line : Text} {own : List Text}
    (read : item.ReadFrom line own) (areLines : Text.AreLines (line :: own))
    {trailing : TrailingComment} (isTrailing : item.trailing = some trailing)
    {comment : DecoratorLine} (formed : comment.Formed ['#']) (isLine : '\n' ∉ comment.render) :
    let changed := { item with trailing := some { trailing with comment := .decorated comment } }
    ∃ line own, changed.WrittenAs line own ∧
      ((CommentLine.decorated comment).Holds ∧ ¬ changed.Overruns →
        changed.RereadFrom line own) ∧
      (¬ ((CommentLine.decorated comment).Holds ∧ ¬ changed.Overruns) →
        changed.LostOn line own) := by
  intro changed
  obtain ⟨head, first, headIs, headLine, valueLines, reads, ends, isItem⟩ := read.parts areLines
  have endsValue := Scan.lineEnd_endsValue _ _ ends
  have afterLine := reads.after_line valueLines
  rw [isTrailing] at ends
  obtain ⟨isGap, -⟩ := Scan.lineEnd_some _ _ trailing ends
  obtain ⟨afterHash, isText, -, again, loses⟩ := Scan.comment_rereads formed
  have gapOnly : Text.skipGap trailing.gap = [] := isGap ▸ Scan.skipGap_gap _
  have behind := Scan.gap_solid_append gapOnly '#' afterHash rfl
  have isAfter : changed.afterValue = trailing.gap ++ '#' :: afterHash := by
    simp only [changed, afterValue, CommentLine.render, isText, List.singleton_append]
  have newLine : '\n' ∉ changed.afterValue := by
    rw [← Text.gap_append_skipGap item.afterValue, List.mem_append, not_or, ← isGap] at afterLine
    simp only [changed, afterValue, CommentLine.render, List.mem_append, not_or]
    exact ⟨afterLine.1, isLine⟩
  have bare : item.value = none → Text.skipGap changed.afterValue = changed.afterValue := by
    intro absent
    rw [isAfter, read.noGap areLines isTrailing absent, List.nil_append]
    exact Text.skipGap_cons '#' afterHash rfl
  obtain ⟨newLine, newOwn, value⟩ := reads.before valueLines
    (Scan.head_rest_solid line head first headIs) endsValue
    (Or.inr ⟨afterHash, isAfter ▸ behind.2⟩) newLine bare
  have changedItem : changed = head.item item.above item.value
      (some { trailing with comment := .decorated comment }) item.tail item.span := by
    simp only [changed]
    rw [isItem]
    rfl
  have isOwn : changed.renderOwn = head.render ++ (changed.writtenValue ++ changed.afterValue) := by
    rw [changedItem, Scan.Head.renderOwn_item_eq]
  obtain ⟨written, reread, lost⟩ := of_value changed headIs headLine value isOwn
  have endsAgain := Scan.lineEnd_gap gapOnly afterHash
  rw [← isAfter] at endsAgain
  refine ⟨_, newOwn, written, fun kept => ?_, fun differs => ?_⟩
  · rw [again kept.1] at endsAgain
    refine ⟨_, reread kept.2 _ _ endsAgain, rfl, ?_, rfl, rfl⟩
    rw [changedItem]
    rfl
  · by_cases overruns : changed.Overruns
    · exact lost overruns
    · -- The value is read again, and what is behind it says something else.
      have headAgain := Scan.head_solid line head first newLine headIs value.solid
      refine ⟨LineClass.of_head _ head _ headAgain, ?_⟩
      intro placed taken left lower same other sameAbove bare
      obtain ⟨otherHead, otherFirst, after, headOther, readsOther, endsOther, -⟩ := other
      rw [headAgain] at headOther
      cases headOther
      obtain ⟨-, rfl⟩ := readsOther.unique (value.again overruns) same
      obtain ⟨found, isComment, isFound⟩ := (map_eq_ok _ _ _).mp (endsAgain.symm.trans endsOther)
      obtain ⟨isFound, -⟩ := Prod.mk.inj isFound
      have diverge := loses (fun holds => differs ⟨holds, overruns⟩) found isComment bare
      refine contents_ne_of_diverge bare ?_
      simp only [comments, ← isFound, sameAbove, changed, Option.map_some, Option.toList_some,
        List.flatMap_append, List.flatMap_singleton]
      exact diverge.prepend _

/-! ## Documents with an item changed -/

/-- A document with another item in the place of one is read back from its text just when the
decorators above the item hold and the item is read from its own lines. -/
theorem Portions.item_survives {upper lower : List Text} {front back : List Node}
    {last : List CommentLine} (upperPortions : Portions [] upper front [])
    (lowerPortions : Portions [] lower back last) {item : Item} {line : Text} {own : List Text}
    (written : item.WrittenAs line own) (formed : ∀ line ∈ item.above, line.Formed)
    (areLines : Text.AreLines
      (upper ++ (item.above.map CommentLine.render ++ line :: own ++ lower)))
    (trailingNewline : Bool) (ended : trailingNewline = false → lower.getLast? ≠ some [])
    (unix : Text.unixLines (Document.expand true
        ⟨front ++ ([.item item] ++ (back ++ looseBlock last)), trailingNewline⟩).render =
      (Document.expand true
        ⟨front ++ ([.item item] ++ (back ++ looseBlock last)), trailingNewline⟩).render)
    (keeps : Prop) (reread : keeps → item.RereadFrom line own)
    (lost : ¬ keeps → item.LostOn line own) :
    (Document.expand true
      ⟨front ++ ([.item item] ++ (back ++ looseBlock last)), trailingNewline⟩).Survives ↔
      (∀ line ∈ item.above, line.Holds) ∧ keeps := by
  refine upperPortions.survives lowerPortions (List.cons_ne_nil _ _) ?_ areLines (by simp) ?_
    trailingNewline ended unix _ (fun kept => ?_) fun differs others final portions rest => ?_
  · rw [written.rendered, ← Text.closed_append]
    rfl
  · rw [List.getLast?_append_of_ne_nil _ (List.cons_ne_nil _ _)]
    exact written.ended
  · obtain ⟨holds, fits⟩ := kept
    obtain ⟨others, itemPortions, same⟩ := (reread fits).portions true front
    exact ⟨others, (Portions.run_again [] item.above formed holds).append itemPortions, same⟩
  · have isItem : LineClass.of line = .item := by
      by_cases fits : keeps
      · obtain ⟨placed, ⟨head, first, _, headIs, _⟩, _⟩ := reread fits
        exact LineClass.of_head line head first headIs
      · exact (lost fits).1
    rw [List.append_assoc] at portions
    obtain ⟨found, portions, sameRun⟩ := Portions.run_read formed portions
    rcases sameRun with ⟨holds, rfl⟩ | diverge
    · exact (lost fun fits => differs ⟨holds, fits⟩).portions true front portions _ rest
    · -- Whatever item is read, another run stands above it.
      obtain ⟨placed, _, _, after, _, sameAbove, _, rfl, _⟩ := portions.item_first isItem
      rw [List.cons_append, List.singleton_append, Document.contents_item, Document.contents_item]
      intro sameContents
      have sameItems := congrArg Document.Contents.items sameContents
      simp only at sameItems
      have sameItem := (List.cons.inj (List.append_cancel_left sameItems)).1
      refine Item.contents_ne_of_diverge true ?_ sameItem
      rw [Item.comments, Item.comments, sameAbove, List.nil_append, List.flatMap_append,
        List.flatMap_append]
      exact (diverge true).append _ _

end Dotenv
