import Dotenv.Proofs.Document.Contents
import Dotenv.Proofs.Template.Signs
/-!
# Another value in the place of one

The own lines of an item with another value in it, read again. The value comes from lines of
its own; behind it stands what stood behind the old value. The item is read again unless that
is taken into the new value, and then it is read with a value of more signs.
-/

set_option autoImplicit false

namespace Dotenv

/-! ## What stands behind a value -/

namespace Item

def writtenValue (item : Item) : Text := (item.value.map Term.render).getD []

/-- What stands behind the value on its line: a comment with its gap, or the gap at the end. -/
def afterValue (item : Item) : Text :=
  match item.trailing with
  | some trailing => trailing.gap ++ trailing.comment.render
  | none => item.tail

def Overruns (item : Item) : Prop := Scan.Swallows item.writtenValue item.afterValue

end Item

namespace Scan

theorem Head.renderOwn_item_eq (head : Head) (above : List CommentLine) (value : Option Term)
    (trailing : Option TrailingComment) (tail : Text) (span : Span) :
    (head.item above value trailing tail span).renderOwn =
      head.render ++ ((head.item above value trailing tail span).writtenValue ++
        (head.item above value trailing tail span).afterValue) := by
  cases trailing <;> simp only [Head.item, Item.renderOwn, Head.render, Item.writtenValue,
    Item.afterValue, List.append_assoc, List.cons_append]

theorem Head.render_wider (head : Head) (gap : Text) :
    ({ head with afterEquals := head.afterEquals ++ gap } : Head).render = head.render ++ gap := by
  simp [Head.render]

theorem lineEnd_endsValue (text : Text) (found : Option TrailingComment × Text)
    (read : lineEnd text = .ok found) : EndsValue text := by
  simp only [lineEnd] at read
  split at read
  · rename_i none
    exact Or.inl none
  · rename_i c rest some
    split at read
    · rename_i hash
      subst hash
      exact Or.inr ⟨rest, some⟩
    · cases read

theorem lineEnd_none (text tail : Text) (read : lineEnd text = .ok (none, tail)) :
    Text.skipGap text = [] := by
  simp only [lineEnd] at read
  split at read
  · rename_i none
    exact none
  · rename_i c rest some
    split at read
    · cases comment : Scan.comment ['#'] rest with
      | error fault =>
        rw [comment] at read
        cases read
      | ok line =>
        rw [comment] at read
        cases read
    · cases read

theorem lineEnd_skipGap (text : Text) (trailing : Option TrailingComment) (tail : Text)
    (read : lineEnd text = .ok (trailing, tail)) :
    ∃ again left, lineEnd (Text.skipGap text) = .ok (again, left) ∧
      again.map TrailingComment.comment = trailing.map TrailingComment.comment := by
  have bare := Text.skipGap_skipGap text
  simp only [lineEnd, bare] at read ⊢
  split at read
  · rename_i none
    cases read
    exact ⟨_, _, rfl, rfl⟩
  · rename_i c rest some
    split at read
    · rename_i hash
      rw [if_pos hash]
      cases comment : Scan.comment ['#'] rest with
      | error fault =>
        rw [comment] at read
        cases read
      | ok line =>
        rw [comment] at read
        cases read
        exact ⟨_, _, rfl, rfl⟩
    · cases read

theorem endsValue_skipGap {text : Text} (ends : EndsValue text) :
    EndsValue (Text.skipGap text) := by
  rwa [EndsValue, Text.skipGap_skipGap]

theorem not_swallows_nil (after : Text) (ends : EndsValue after) : ¬ Swallows [] after := by
  rintro (⟨slash, -⟩ | ⟨call, left, isCall, -⟩)
  · cases slash
  · have noName : startsName ([] ++ after) = false := by
      cases after with
      | nil => rfl
      | cons c rest =>
        rcases ends.head c rfl with isGap | rfl
        · simp only [Text.isGap, Bool.or_eq_true, beq_iff_eq] at isGap
          rcases isGap with rfl | rfl <;> rfl
        · rfl
    rw [call?_of_noName _ noName] at isCall
    cases isCall

theorem not_swallows_end (value : Text) : ¬ Swallows value [] := by
  rintro (⟨-, hash⟩ | ⟨-, left, -, shorter, -⟩)
  · cases hash
  · exact Nat.not_lt_zero _ shorter

theorem closeBlock_closes (mark : Char) (text rest : Text)
    (closed : closeBlock mark text = some rest) : ∃ front, text = front ++ mark :: rest := by
  fun_induction closeBlock mark text with
  | case1 => cases closed
  | case2 more ih =>
    obtain ⟨front, rfl⟩ := ih closed
    exact ⟨'\\' :: mark :: front, rfl⟩
  | case3 c more differs ih =>
    obtain ⟨front, whole⟩ := ih closed
    exact ⟨'\\' :: front, by rw [whole]; rfl⟩
  | case4 c more other after dropped =>
    cases closed
    exact ⟨[mark, mark], (dropStart?_append _ _ _ dropped).symm⟩
  | case5 c more other kept ih =>
    obtain ⟨front, rfl⟩ := ih closed
    exact ⟨c :: front, rfl⟩

theorem beginning_opened (text : Text) (quote : Quote)
    (read : beginning text = .ok (.opened quote)) :
    ∃ rest, text = quote.mark :: rest := by
  obtain ⟨-, rest, rfl, -⟩ := opened_of_beginning text quote read
  cases quote <;> exact ⟨_, rfl⟩

theorem not_swallows_block (quote : Quote) (first last after other : Text) (inner : Text)
    (opens : beginning first = .ok (.opened quote))
    (closes : closeBlock quote.mark last = some after) :
    ¬ Swallows (first ++ inner ++ '\n' :: Text.before after last) other := by
  obtain ⟨rest, rfl⟩ := beginning_opened first quote opens
  obtain ⟨front, rfl⟩ := closeBlock_closes quote.mark last after closes
  have ends : Text.before after (front ++ quote.mark :: after) = front ++ [quote.mark] := by
    have split := Text.before_append_right (front ++ [quote.mark]) after
    rwa [List.append_assoc] at split
  rw [ends]
  rintro (⟨slash, -⟩ | ⟨call, left, isCall, -⟩)
  · rw [← List.cons_append, ← List.append_assoc, List.getLast?_concat, Option.some.injEq] at slash
    exact quote.mark_ne_slash slash
  · have noName : startsName (quote.mark :: rest ++ inner ++ '\n' :: (front ++ [quote.mark]) ++
        other) = false := by
      cases quote <;> rfl
    rw [call?_of_noName _ noName] at isCall
    cases isCall

end Scan

/-! ## Lines with another value -/

theorem Scan.head_rest_solid (line : Text) (head : Head) (rest : Text)
    (read : Scan.head line = .ok (head, rest)) : Text.skipGap rest = rest := by
  have again := head_front line head rest read rest
  rw [head_append line head rest read, read] at again
  exact (Prod.mk.inj (Except.ok.inj again)).2.symm

theorem ReadsValue.after_line {first : Text} {more : List Text} {value : Option Term} {after : Text}
    (read : ReadsValue first more value after) (areLines : Text.AreLines (first :: more)) :
    '\n' ∉ after := by
  cases read with
  | whole beginning =>
    have whole := Scan.beginning_append first value after beginning
    intro member
    refine areLines first List.mem_cons_self ?_
    rw [← whole]
    exact List.mem_append_right _ member
  | block opens inside closes =>
    rename_i quote inner last
    have atEnd := Scan.closeBlock_suffix quote.mark last after closes
    intro member
    exact areLines last (by simp) (atEnd.subset member)

/-! ## Values in front of other text -/

theorem lines_unique {p : Text → Bool} {inner others left lower : List Text} {last final : Text}
    (inside : ∀ line ∈ inner, p line = true) (closes : p last = false)
    (insideAgain : ∀ line ∈ others, p line = true) (closesAgain : p final = false)
    (same : inner ++ last :: left = others ++ final :: lower) : inner = others ∧ last = final := by
  have takes : ∀ (front : List Text) (next : Text) (rest : List Text),
      (∀ line ∈ front, p line = true) → p next = false →
        (front ++ next :: rest).takeWhile p = front := by
    intro front next rest inFront stops
    rw [List.takeWhile_append_of_pos inFront, List.takeWhile_cons_of_neg (by simp [stops]),
      List.append_nil]
  have sameFront : inner = others := by
    rw [← takes inner last left inside closes, same,
      takes others final lower insideAgain closesAgain]
  subst sameFront
  exact ⟨rfl, (List.cons.inj (List.append_cancel_left same)).1⟩

theorem ReadsValue.unique {first : Text} {more others left lower : List Text}
    {value again : Option Term} {after rest : Text} (read : ReadsValue first more value after)
    (readAgain : ReadsValue first others again rest) (same : more ++ left = others ++ lower) :
    value = again ∧ after = rest := by
  cases read with
  | whole begins =>
    cases readAgain with
    | whole beginsAgain =>
      rw [begins] at beginsAgain
      cases beginsAgain
      exact ⟨rfl, rfl⟩
    | block opens =>
      rw [begins] at opens
      cases opens
  | block opens inside closes =>
    cases readAgain with
    | whole begins =>
      rw [opens] at begins
      cases begins
    | block opensAgain insideAgain closesAgain =>
      rw [opens] at opensAgain
      cases opensAgain
      rename_i quote inner last _ final
      rw [List.append_assoc, List.append_assoc] at same
      obtain ⟨rfl, rfl⟩ := lines_unique (p := fun line => (Scan.closeBlock quote.mark line).isNone)
        (by simpa using inside) (by simp [closes]) (by simpa using insideAgain)
        (by simp [closesAgain]) same
      rw [closes] at closesAgain
      cases closesAgain
      exact ⟨rfl, rfl⟩

/-- Lines that a value with given text behind it is written as. The value is read from them again
unless it takes in what is behind it, and then another value is read. -/
structure ReadsBefore (value : Option Term) (other : Text) (line : Text) (own : List Text) :
    Prop where
  areLines : Text.AreLines (line :: own)
  closed : Text.closed (line :: own) = (value.map Term.render).getD [] ++ other ++ ['\n']
  ended : ∀ front, front ≠ [] → ((front ++ line) :: own).getLast? ≠ some []
  solid : Text.skipGap line = line
  again : ¬ Scan.Swallows ((value.map Term.render).getD []) other → ReadsValue line own value other
  lost : Scan.Swallows ((value.map Term.render).getD []) other →
    ∃ longer left, Scan.beginning line = .ok (.whole longer left) ∧
      ∀ bare : Bool, longer.map (fun term => (term.expand bare).canonical) ≠
        value.map fun term => (term.expand bare).canonical

theorem ReadsBefore.absent {other : Text} (ends : Scan.EndsValue other) (isLine : '\n' ∉ other)
    (solid : Text.skipGap other = other) : ReadsBefore none other other [] := by
  refine ⟨?_, Text.closed_singleton other, ?_, solid, fun _ => .whole ?_, fun swallows => ?_⟩
  · intro line member
    rwa [List.mem_singleton.mp member]
  · intro front filled
    simp [filled]
  · rw [Scan.EndsValue, solid] at ends
    rcases ends with rfl | ⟨comment, rfl⟩ <;> rfl
  · exact absurd swallows (Scan.not_swallows_nil other ends)

theorem ReadsBefore.single {first after other : Text} {term : Term} (isLine : '\n' ∉ first)
    (begins : Scan.beginning first = .ok (.whole (some term) after))
    (solid : Text.skipGap first = first) (ends : Scan.EndsValue after)
    (endsOther : Scan.EndsValue other) (otherLine : '\n' ∉ other) :
    ReadsBefore (some term) other (term.render ++ other) [] := by
  have written := Scan.beginning_append first (some term) after begins
  simp only [Option.map_some, Option.getD_some] at written
  obtain ⟨c, rest, isTerm, -, notGap⟩ := Scan.value_head first term after begins solid ends
  have alone := Scan.beginning_alone first term after begins solid ends
  have solidAlone : Text.skipGap term.render = term.render := by
    rw [isTerm]
    exact Text.skipGap_cons c rest notGap
  refine ⟨?_, Text.closed_singleton _, ?_, ?_, fun kept => .whole ?_, fun swallows => ?_⟩
  · intro line member
    rw [List.mem_singleton.mp member, List.mem_append, not_or]
    exact ⟨fun inTerm => isLine (written ▸ List.mem_append_left after inTerm), otherLine⟩
  · intro front filled
    simp [filled]
  · rw [isTerm]
    exact Text.skipGap_cons c _ notGap
  · exact Scan.beginning_again _ term [] other alone solidAlone rfl endsOther kept
  · obtain ⟨longer, more, left, beginsAgain, isLonger, hash⟩ :=
      Scan.beginning_swallowed _ term [] other alone solidAlone rfl endsOther swallows
    refine ⟨some longer, left, beginsAgain, fun bare same => ?_⟩
    have longerSigns := Scan.beginning_signs bare _ longer _ beginsAgain
    have termSigns := Scan.beginning_signs bare _ term _ begins
    have sameSigns : (longer.expand bare).signs = (term.expand bare).signs :=
      congrArg Text.signs (Option.some.inj same)
    have some := Text.signs_pos more '#' hash rfl
    rw [longerSigns, termSigns, isLonger, Text.signs_append] at sameSigns
    omega

theorem ReadsBefore.block {first last after other : Text} {inner : List Text} {quote : Quote}
    (areLines : Text.AreLines (first :: (inner ++ [last]))) (solid : Text.skipGap first = first)
    (opens : Scan.beginning first = .ok (.opened quote))
    (inside : ∀ line ∈ inner, Scan.closeBlock quote.mark line = none)
    (closes : Scan.closeBlock quote.mark last = some after) (otherLine : '\n' ∉ other) :
    ReadsBefore (some (.literal ⟨first ++ inner.flatMap ('\n' :: ·) ++
        '\n' :: Text.before after last, some quote⟩)) other first
      (inner ++ [Text.before after last ++ other]) := by
  have keeps := Scan.not_swallows_block quote first last after other (inner.flatMap ('\n' :: ·))
    opens closes
  obtain ⟨front, rfl, long, reads⟩ :=
    Scan.closeBlock_front quote.mark quote.mark_ne_slash last after closes
  rw [Text.before_append_right] at keeps ⊢
  obtain ⟨firstLine, restLines⟩ := (Text.areLines_cons _ _).mp areLines
  obtain ⟨innerLines, lastLine⟩ := (Text.areLines_append _ _).mp restLines
  have frontLine : '\n' ∉ front := fun member =>
    lastLine _ (List.mem_singleton_self _) (List.mem_append_left after member)
  refine ⟨?_, ?_, fun start _ => ?_, solid, fun _ => ?_, fun swallows => ?_⟩
  · refine (Text.areLines_cons _ _).mpr ⟨firstLine, innerLines.append fun line member => ?_⟩
    rw [List.mem_singleton.mp member, List.mem_append, not_or]
    exact ⟨frontLine, otherLine⟩
  · rw [← List.cons_append, Text.closed_append, Text.closed_singleton, Text.closed_flatMap]
    simp [Term.render]
  · rw [← List.cons_append, List.getLast?_concat]
    intro empty
    rw [Option.some.injEq, List.append_eq_nil_iff] at empty
    rw [empty.1] at long
    cases long
  · have again := ReadsValue.block opens inside (reads other)
    rwa [Text.before_append_right] at again
  · simp only [Option.map_some, Option.getD_some, Term.render] at swallows
    exact absurd swallows keeps

theorem ReadsValue.before {first after other : Text} {more : List Text} {value : Option Term}
    (read : ReadsValue first more value after) (areLines : Text.AreLines (first :: more))
    (solid : Text.skipGap first = first) (ends : Scan.EndsValue after)
    (endsOther : Scan.EndsValue other) (otherLine : '\n' ∉ other)
    (bare : value = none → Text.skipGap other = other) :
    ∃ line own, ReadsBefore value other line own := by
  cases read with
  | whole begins =>
    cases value with
    | none => exact ⟨other, [], .absent endsOther otherLine (bare rfl)⟩
    | some term =>
      have isLine := ((Text.areLines_cons first []).mp areLines).1
      exact ⟨_, [], .single isLine begins solid ends endsOther otherLine⟩
  | block opens inside closes => exact ⟨_, _, .block areLines solid opens inside closes otherLine⟩

/-! ## Items with other lines -/

structure Item.WrittenAs (item : Item) (line : Text) (own : List Text) : Prop where
  areLines : Text.AreLines (line :: own)
  ended : (line :: own).getLast? ≠ some []
  closed : Text.closed (line :: own) = item.renderOwn ++ ['\n']

def Item.RereadFrom (item : Item) (line : Text) (own : List Text) : Prop :=
  ∃ placed : Item, placed.ReadFrom line own ∧ placed.above = item.above ∧ placed.key = item.key ∧
    placed.value = item.value ∧ placed.comments = item.comments

/-- Whatever item is read from the lines of one and those below, under the same comments, it says
something else. -/
def Item.LostOn (item : Item) (line : Text) (own : List Text) : Prop :=
  LineClass.of line = .item ∧
    ∀ (placed : Item) (taken left lower : List Text), taken ++ left = own ++ lower →
      placed.ReadFrom line taken → placed.above = item.above →
        ∀ bare, (placed.expand bare).contents ≠ (item.expand bare).contents

namespace Item.ReadFrom

variable {item : Item} {line : Text} {own : List Text}

/-- What is known of an item that was read: the head of its line, its value, and what stands behind
the value. -/
theorem parts (read : item.ReadFrom line own) (areLines : Text.AreLines (line :: own)) :
    ∃ head first, Scan.head line = .ok (head, first) ∧ '\n' ∉ head.render ∧
      Text.AreLines (first :: own) ∧ ReadsValue first own item.value item.afterValue ∧
      Scan.lineEnd item.afterValue = .ok (item.trailing, item.tail) ∧
      item = head.item item.above item.value item.trailing item.tail item.span := by
  obtain ⟨head, first, after, headIs, value, ends, isItem⟩ := read
  have isAfter : item.afterValue = after := by
    unfold afterValue
    generalize item.trailing = trailing at ends
    cases trailing with
    | none => exact Scan.lineEnd_append after none _ ends
    | some trailing => exact Scan.lineEnd_append after (some trailing) _ ends
  have whole := Scan.head_append line head first headIs
  obtain ⟨isLine, ownLines⟩ := (Text.areLines_cons line own).mp areLines
  rw [← whole, List.mem_append, not_or] at isLine
  exact ⟨head, first, headIs, isLine.1, (Text.areLines_cons first own).mpr ⟨isLine.2, ownLines⟩,
    isAfter ▸ value, isAfter ▸ ends, isItem⟩

theorem value_of_begins (read : item.ReadFrom line own) {head : Scan.Head}
    {first left : Text} {value : Option Term} (headIs : Scan.head line = .ok (head, first))
    (begins : Scan.beginning first = .ok (.whole value left)) : item.value = value := by
  obtain ⟨otherHead, otherFirst, after, headOther, reads, -, -⟩ := read
  rw [headIs] at headOther
  cases headOther
  generalize item.value = found at reads
  cases reads with
  | whole begun =>
    rw [begins] at begun
    cases begun
    rfl
  | block opens inside closes =>
    rw [begins] at opens
    cases opens

/-- An item is written as a head and the lines of its value; it is lost on them if another value is
read there. -/
theorem of_value (item : Item) {line other rest given : Text} {own : List Text} {head : Scan.Head}
    (headIs : Scan.head given = .ok (head, rest)) (headLine : '\n' ∉ head.render)
    (value : ReadsBefore item.value other line own)
    (isText : item.renderOwn = head.render ++ (item.writtenValue ++ other)) :
    item.WrittenAs (head.render ++ line) own ∧
      (¬ Scan.Swallows item.writtenValue other → ∀ trailing tail,
        Scan.lineEnd other = .ok (trailing, tail) →
          (head.item item.above item.value trailing tail item.span).ReadFrom
            (head.render ++ line) own) ∧
      (Scan.Swallows item.writtenValue other → item.LostOn (head.render ++ line) own) := by
  have headAgain := Scan.head_solid given head rest line headIs value.solid
  obtain ⟨isLine, ownLines⟩ := (Text.areLines_cons line own).mp value.areLines
  refine ⟨⟨?_, ?_, ?_⟩, fun fits trailing tail ends => ?_,
    fun swallows => ⟨LineClass.of_head _ head _ headAgain, ?_⟩⟩
  · refine (Text.areLines_cons _ _).mpr ⟨?_, ownLines⟩
    rw [List.mem_append, not_or]
    exact ⟨headLine, isLine⟩
  · exact value.ended _ (by simp [Scan.Head.render])
  · have whole := value.closed
    rw [Text.closed_cons] at whole ⊢
    rw [List.append_assoc, whole, isText]
    simp only [writtenValue, List.append_assoc]
  · exact ⟨head, line, other, headAgain, value.again fits, ends, rfl⟩
  · intro placed taken left lower _ again _ bare same
    obtain ⟨longer, rest, begins, differs⟩ := value.lost swallows
    have placedValue := again.value_of_begins headAgain begins
    have sameValue := congrArg Contents.value same
    simp only [contents, expand, placedValue, Option.map_map] at sameValue
    exact differs bare sameValue

/-- The lines of an item with another value: the item is read from them again unless what
stands behind the value is taken into it, and then it is lost. -/
theorem withValue (read : item.ReadFrom line own) (areLines : Text.AreLines (line :: own))
    {first after : Text} {more : List Text} {value : Option Term}
    (fresh : ReadsValue first more value after) (freshLines : Text.AreLines (first :: more))
    (solid : Text.skipGap first = first) (gap : Text.skipGap after = []) :
    ∃ line own, ({ item with value } : Item).WrittenAs line own ∧
      (¬ ({ item with value } : Item).Overruns → ({ item with value } : Item).RereadFrom line own) ∧
      (({ item with value } : Item).Overruns → ({ item with value } : Item).LostOn line own) := by
  obtain ⟨head, _, headIs, headLine, valueLines, reads, ends, isItem⟩ := read.parts areLines
  have afterLine := reads.after_line valueLines
  have endsValue := Scan.lineEnd_endsValue _ _ ends
  have changed : ({ item with value } : Item) =
      head.item item.above value item.trailing item.tail item.span := by
    rw [isItem]
    rfl
  have isText : ({ item with value } : Item).renderOwn =
      head.render ++ (({ item with value } : Item).writtenValue ++ item.afterValue) := by
    rw [changed, Scan.Head.renderOwn_item_eq, ← changed]
    rfl
  cases value with
  | none =>
    -- The gap that is left in front of a comment is read as one behind the equals sign.
    obtain ⟨trailing, tail, endsAgain, sameComment⟩ := Scan.lineEnd_skipGap _ _ _ ends
    have headAgain := Scan.head_front line head _ headIs item.afterValue
    have whole := Text.gap_append_skipGap item.afterValue
    have newLine : '\n' ∉ Text.gap item.afterValue ∧ '\n' ∉ Text.skipGap item.afterValue := by
      rwa [← not_or, ← List.mem_append, whole]
    have wider := head.render_wider (Text.gap item.afterValue)
    obtain ⟨written, reread, -⟩ := of_value { item with value := none } headAgain
      (by rw [wider, List.mem_append, not_or]; exact ⟨headLine, newLine.1⟩)
      (.absent (Scan.endsValue_skipGap endsValue) newLine.2 (Text.skipGap_skipGap _))
      (by rw [isText, wider]; simp [writtenValue, whole])
    refine ⟨_, [], written, fun _ => ⟨_, reread (Scan.not_swallows_nil _ ?_) _ _ endsAgain, rfl, ?_,
      rfl, ?_⟩, ?_⟩
    · exact Scan.endsValue_skipGap endsValue
    · rw [changed]
      rfl
    · simp only [comments, Scan.Head.item, sameComment]
    · intro overruns
      exact absurd overruns (Scan.not_swallows_nil _ endsValue)
  | some term =>
    obtain ⟨line, own, value⟩ := fresh.before freshLines solid (Or.inl gap) endsValue afterLine
      (by intro absent; cases absent)
    obtain ⟨written, reread, lost⟩ := of_value { item with value := some term } headIs
      headLine value isText
    refine ⟨_, own, written, fun fits => ⟨_, reread fits _ _ ends, rfl, ?_, rfl, rfl⟩, lost⟩
    rw [changed]
    rfl

end Item.ReadFrom

end Dotenv
