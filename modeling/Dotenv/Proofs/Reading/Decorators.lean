import Dotenv.Proofs.Reading.Settings
/-!
# Decorators in a row

The decorators of a line are read again if each of them ends where the next one begins. If one
does not, then other decorators are read, or none at all.
-/

set_option autoImplicit false

namespace Dotenv

def Diverge {α : Type} (left right : List α) : Prop :=
  ∃ front x back y other, left = front ++ x :: back ∧ right = front ++ y :: other ∧ x ≠ y

namespace Diverge

variable {α : Type} {left right : List α}

theorem ne (diverge : Diverge left right) : left ≠ right := by
  rintro rfl
  obtain ⟨front, x, back, y, other, rfl, same, differ⟩ := diverge
  exact differ (List.cons.inj (List.append_cancel_left same)).1

theorem append (diverge : Diverge left right) (more others : List α) :
    Diverge (left ++ more) (right ++ others) := by
  obtain ⟨front, x, back, y, other, rfl, rfl, differ⟩ := diverge
  exact ⟨front, x, back ++ more, y, other ++ others, by simp, by simp, differ⟩

theorem prepend (diverge : Diverge left right) (start : List α) :
    Diverge (start ++ left) (start ++ right) := by
  obtain ⟨front, x, back, y, other, rfl, rfl, differ⟩ := diverge
  exact ⟨start ++ front, x, back, y, other, by simp, by simp, differ⟩

end Diverge

namespace Decorator

def expand (bare : Bool) (decorator : Decorator) : Decorator :=
  { decorator with setting := decorator.setting.expand bare }

/-- Whether every decorator of a row ends where the next one begins, the last one in front of a
given text. -/
def AllEnd (last : Text) : List Decorator → Prop
  | [] => True
  | first :: rest =>
    first.setting.EndsBefore (rest.flatMap render ++ last) ∧ AllEnd last rest

def Formed (decorator : Decorator) : Prop :=
  Scan.IsName decorator.name ∧ decorator.setting.Written

def Apart (decorator : Decorator) : Prop :=
  decorator.leading ≠ [] ∧ Text.skipGap decorator.leading = []

end Decorator

def DecoratorLine.expand (bare : Bool) (line : DecoratorLine) : DecoratorLine :=
  { line with decorators := line.decorators.map (Decorator.expand bare) }

theorem CommentLine.decorators_expand (bare : Bool) (line : CommentLine) :
    (line.expand bare).decorators = line.decorators.map (Decorator.expand bare) := by
  cases line <;> rfl

namespace Scan

inductive Decorates : Text → Text → List Decorator → Option Comment → Text → Prop
  | last {leading text after : Text} {first : Decorator}
      (read : decorator leading text = .ok (first, after)) (ends : Text.skipGap after = []) :
      Decorates leading text [first] none (Text.gap after)
  | commented {leading text after rest : Text} {first : Decorator}
      (read : decorator leading text = .ok (first, after))
      (hash : Text.skipGap after = '#' :: rest) :
      Decorates leading text [first] (some ⟨Text.gap after ++ ['#'], rest⟩) []
  | more {leading text after rest tail : Text} {first : Decorator} {list : List Decorator}
      {trailing : Option Comment} (read : decorator leading text = .ok (first, after))
      (isAt : Text.skipGap after = '@' :: rest) (apart : Text.gap after ≠ [])
      (back : Decorates (Text.gap after) rest list trailing tail) :
      Decorates leading text (first :: list) trailing tail

theorem decorator_eq_ok (leading text : Text) (found : Decorator) (rest : Text) :
    decorator leading text = .ok (found, rest) ↔
      found.leading = leading ∧ ∃ afterName, name? text = some (found.name, afterName) ∧
        Sets afterName found.setting rest := by
  unfold decorator
  cases named : name? text with
  | none => simp [refuse]
  | some pair =>
    obtain ⟨name, afterName⟩ := pair
    simp only
    constructor
    · intro read
      cases isSet : Scan.setting name afterName with
      | error fault =>
        rw [isSet] at read
        cases read
      | ok set =>
        rw [isSet] at read
        cases read
        exact ⟨rfl, afterName, rfl, (setting_eq_ok name afterName set.1 set.2).mp isSet⟩
    · rintro ⟨rfl, _, same, sets⟩
      cases same
      rw [(setting_eq_ok found.name afterName found.setting rest).mpr sets]
      rfl

theorem decorators_eq_ok (fuel : Nat) (leading text : Text) (enough : text.length < fuel)
    (list : List Decorator) (trailing : Option Comment) (tail : Text) :
    decorators fuel leading text = .ok (list, trailing, tail) ↔
      Decorates leading text list trailing tail := by
  induction fuel generalizing leading text list trailing tail with
  | zero => exact absurd enough (Nat.not_lt_zero _)
  | succ fuel ih =>
    have shorter : ∀ first after rest c, decorator leading text = .ok (first, after) →
        Text.skipGap after = c :: rest → rest.length < fuel := by
      intro first after rest c read next
      have whole := congrArg List.length (decorator_append leading text first after read)
      obtain ⟨isLeading, -⟩ := (decorator_eq_ok leading text first after).mp read
      have beyond := (Text.skipGap_suffix after).length_le
      rw [next, List.length_cons] at beyond
      simp only [Decorator.render, isLeading, List.length_append, List.length_cons] at whole
      omega
    unfold decorators
    constructor
    · intro read
      split at read
      · cases read
      · rename_i first after isFirst
        dsimp only at read
        split at read
        · rename_i none
          cases read
          exact .last isFirst none
        · rename_i c rest next
          split at read
          · rename_i isAt
            obtain ⟨rfl, apart⟩ := isAt
            split at read
            · cases read
            · rename_i more others left isMore
              cases read
              exact .more isFirst next apart
                ((ih _ rest (shorter first after rest _ isFirst next) _ _ _).mp isMore)
          · split at read
            · rename_i hash
              subst hash
              cases read
              exact .commented isFirst next
            · cases read
    · intro decorates
      cases decorates with
      | last read ends => simp only [read, ends]
      | commented read hash =>
        have notAt : '#' ≠ '@' := by decide
        simp only [read, hash, notAt, false_and, if_false, if_true]
      | more read isAt apart back =>
        have isMore := (ih _ _ (shorter _ _ _ _ read isAt) _ _ _).mpr back
        simp only [read, isAt, isMore, true_and]
        rw [if_pos apart]

/-- What ends a line of decorators: a gap, or a comment set off by one. -/
inductive Closing : Option Comment → Text → Text → Prop
  | gap {tail : Text} (isGap : Text.skipGap tail = []) : Closing none tail tail
  | comment {gap text : Text} (isGap : Text.skipGap gap = []) :
      Closing (some ⟨gap ++ ['#'], text⟩) [] (gap ++ '#' :: text)

theorem gap_eq_self {gap : Text} (isGap : Text.skipGap gap = []) : Text.gap gap = gap := by
  have whole := Text.gap_append_skipGap gap
  rwa [isGap, List.append_nil] at whole

theorem gap_solid_append {gap : Text} (isGap : Text.skipGap gap = []) (c : Char) (rest : Text)
    (solid : Text.isGap c = false) :
    Text.gap (gap ++ c :: rest) = gap ∧ Text.skipGap (gap ++ c :: rest) = c :: rest :=
  Text.gap_append_solid gap (c :: rest) isGap (Text.skipGap_cons c rest solid)

theorem Closing.continues {trailing : Option Comment} {tail last : Text}
    (closing : Closing trailing tail last) : Continues last := by
  cases closing with
  | gap isGap => exact Or.inl isGap
  | comment isGap => exact Or.inr ⟨'#', _, (gap_solid_append isGap '#' _ rfl).2, rfl⟩

theorem Decorates.formed {leading text : Text} {list : List Decorator} {trailing : Option Comment}
    {tail : Text} (decorates : Decorates leading text list trailing tail) :
    (∃ first rest, list = first :: rest ∧ first.leading = leading ∧ ∀ next ∈ rest, next.Apart) ∧
      (∀ decorator ∈ list, decorator.Formed) ∧ ∃ last, Closing trailing tail last := by
  have one : ∀ {leading text : Text} {first : Decorator} {after : Text},
      decorator leading text = .ok (first, after) → first.leading = leading ∧ first.Formed := by
    intro leading text first after read
    obtain ⟨isLeading, afterName, named, sets⟩ := (decorator_eq_ok _ _ _ _).mp read
    exact ⟨isLeading, name?_isName _ _ _ named, sets.written⟩
  induction decorates with
  | last read ends =>
    obtain ⟨isLeading, formed⟩ := one read
    refine ⟨⟨_, [], rfl, isLeading, by simp⟩, by simpa using formed, _, .gap ?_⟩
    rw [← List.append_nil (Text.gap _), Text.skipGap_gap_append]
    rfl
  | commented read hash =>
    obtain ⟨isLeading, formed⟩ := one read
    refine ⟨⟨_, [], rfl, isLeading, by simp⟩, by simpa using formed, _, .comment ?_⟩
    rw [← List.append_nil (Text.gap _), Text.skipGap_gap_append]
    rfl
  | @more leading text after rest tail first list trailing read isAt apart back ih =>
    obtain ⟨isLeading, formed⟩ := one read
    obtain ⟨⟨next, others, rfl, nextLeading, othersApart⟩, allFormed, closing⟩ := ih
    have isGap : Text.skipGap (Text.gap after) = [] := by
      rw [← List.append_nil (Text.gap _), Text.skipGap_gap_append]
      rfl
    refine ⟨⟨first, next :: others, rfl, isLeading, ?_⟩, ?_, closing⟩
    · intro decorator member
      rcases List.mem_cons.mp member with rfl | member
      · exact ⟨nextLeading ▸ apart, nextLeading ▸ isGap⟩
      · exact othersApart decorator member
    · intro decorator member
      rcases List.mem_cons.mp member with rfl | member
      · exact formed
      · exact allFormed decorator member

section
variable {first : Decorator} {rest : List Decorator} {trailing : Option Comment} {tail last : Text}

def rowText (first : Decorator) (rest : List Decorator) (last : Text) : Text :=
  first.name ++ (first.setting.render ++ (rest.flatMap Decorator.render ++ last))

theorem render_row (first : Decorator) (rest : List Decorator) (last : Text) :
    (first :: rest).flatMap Decorator.render ++ last =
      first.leading ++ '@' :: rowText first rest last := by
  simp only [List.flatMap_cons, Decorator.render, rowText, List.append_assoc, List.cons_append]

theorem gap_next {next : Decorator} (apart : next.Apart) (others : List Decorator) (last : Text) :
    let after := (next :: others).flatMap Decorator.render ++ last
    Text.gap after = next.leading ∧ Text.skipGap after = '@' :: rowText next others last := by
  dsimp only
  rw [render_row]
  exact gap_solid_append apart.2 '@' _ rfl

theorem continues_row (apart : ∀ next ∈ rest, next.Apart) (closing : Closing trailing tail last) :
    Continues (rest.flatMap Decorator.render ++ last) := by
  cases rest with
  | nil => exact closing.continues
  | cons next others =>
    exact Or.inr ⟨'@', _, (gap_next (apart next List.mem_cons_self) others last).2, rfl⟩

theorem decorator_again (formed : first.Formed) {after : Text}
    (ends : first.setting.EndsBefore after) :
    decorator first.leading (first.name ++ (first.setting.render ++ after)) =
      .ok (first, after) := by
  have sets := Sets.again formed.2 ends
  exact (decorator_eq_ok _ _ _ _).mpr ⟨rfl, _, formed.1.again _ sets.head, sets⟩

theorem decorates_again (apart : ∀ next ∈ rest, next.Apart)
    (formed : ∀ decorator ∈ first :: rest, decorator.Formed)
    (closing : Closing trailing tail last) (ends : Decorator.AllEnd last (first :: rest)) :
    Decorates first.leading (rowText first rest last) (first :: rest) trailing tail := by
  induction rest generalizing first with
  | nil =>
    have read := decorator_again (formed first List.mem_cons_self) ends.1
    cases closing with
    | gap isGap =>
      have whole := Decorates.last read isGap
      rwa [List.flatMap_nil, List.nil_append, gap_eq_self isGap] at whole
    | comment isGap =>
      have after := gap_solid_append isGap '#'
      have whole := Decorates.commented read (after _ rfl).2
      rwa [List.flatMap_nil, List.nil_append, (after _ rfl).1] at whole
  | cons next others ih =>
    have read := decorator_again (formed first List.mem_cons_self) ends.1
    have nextApart := apart next List.mem_cons_self
    obtain ⟨isLeading, isAt⟩ := gap_next nextApart others last
    have back := ih (fun other member => apart other (List.mem_cons_of_mem next member))
      (fun other member => formed other (List.mem_cons_of_mem first member)) ends.2
    refine .more read isAt (isLeading ▸ nextApart.1) ?_
    rw [isLeading]
    exact back

theorem setting_stops {setting : Setting} (written : setting.Written) {other : Text}
    (continues : Continues other) (c : Char) (isHead : (setting.render ++ other).head? = some c) :
    isNameChar c = false := by
  obtain ⟨after, sets⟩ := written
  cases rendered : setting.render with
  | nil =>
    rw [rendered, List.nil_append] at isHead
    rcases continues.head c isHead with isGap | sign
    · simp only [Text.isGap, Bool.or_eq_true, beq_iff_eq] at isGap
      rcases isGap with rfl | rfl <;> rfl
    · rcases Text.eq_of_isSign c sign with rfl | rfl <;> rfl
  | cons d more =>
    rw [rendered] at isHead sets
    exact sets.head c isHead

theorem Decorates.head {leading text : Text} {list : List Decorator}
    (decorates : Decorates leading text list trailing tail) :
    ∃ found after others, list = found :: others ∧ decorator leading text = .ok (found, after) ∧
      Continues after ∧ ∀ rest, Text.skipGap after = '@' :: rest →
        Decorates (Text.gap after) rest others trailing tail := by
  cases decorates with
  | last read ends =>
    refine ⟨_, _, [], rfl, read, Or.inl ends, fun rest isAt => ?_⟩
    rw [ends] at isAt
    cases isAt
  | commented read hash =>
    refine ⟨_, _, [], rfl, read, Or.inr ⟨'#', _, hash, rfl⟩, fun rest isAt => ?_⟩
    rw [hash] at isAt
    cases isAt
  | more read isAt apart back =>
    refine ⟨_, _, _, rfl, read, Or.inr ⟨'@', _, isAt, rfl⟩, fun rest again => ?_⟩
    rw [isAt] at again
    cases again
    exact back

theorem decorator_lost (formed : first.Formed) {after : Text} (continues : Continues after)
    {found : Decorator} {left : Text}
    (read : decorator first.leading (first.name ++ (first.setting.render ++ after)) =
      .ok (found, left)) (goesOn : Continues left) :
    first.setting.EndsBefore after ∧ found = first ∧ left = after ∨
      ∀ bare, (found.expand bare).contents ≠ (first.expand bare).contents := by
  by_cases ends : first.setting.EndsBefore after
  · rw [decorator_again formed ends] at read
    cases read
    exact Or.inl ⟨ends, rfl, rfl⟩
  · obtain ⟨-, afterName, named, sets⟩ := (decorator_eq_ok _ _ _ _).mp read
    rw [formed.1.again _ (setting_stops formed.2 continues)] at named
    obtain ⟨-, rfl⟩ := Prod.mk.inj (Option.some.inj named)
    refine Or.inr fun bare same => ?_
    exact Sets.lost formed.2 continues ends sets goesOn bare (congrArg Prod.snd same)

theorem decorates_lost (apart : ∀ next ∈ rest, next.Apart)
    (formed : ∀ decorator ∈ first :: rest, decorator.Formed)
    (closing : Closing trailing tail last) (lost : ¬ Decorator.AllEnd last (first :: rest))
    {list : List Decorator} {otherTrailing : Option Comment} {otherTail : Text}
    (again : Decorates first.leading (rowText first rest last) list otherTrailing otherTail)
    (bare : Bool) :
    Diverge (list.map fun decorator => (decorator.expand bare).contents)
      ((first :: rest).map fun decorator => (decorator.expand bare).contents) := by
  induction rest generalizing first list with
  | nil =>
    obtain ⟨found, after, others, rfl, read, goesOn, -⟩ := again.head
    rcases decorator_lost (formed first List.mem_cons_self) (continues_row apart closing) read
      goesOn with ⟨ends, -⟩ | differs
    · exact absurd ⟨ends, trivial⟩ lost
    · exact ⟨[], _, _, _, _, rfl, rfl, differs bare⟩
  | cons next others ih =>
    obtain ⟨found, after, more, rfl, read, goesOn, back⟩ := again.head
    rcases decorator_lost (formed first List.mem_cons_self) (continues_row apart closing) read
      goesOn with ⟨ends, rfl, rfl⟩ | differs
    · obtain ⟨isLeading, isAt⟩ := gap_next (apart next List.mem_cons_self) others last
      have later := back _ isAt
      rw [isLeading] at later
      have diverge := ih (fun other member => apart other (List.mem_cons_of_mem next member))
        (fun other member => formed other (List.mem_cons_of_mem _ member))
        (fun allEnd => lost ⟨ends, allEnd⟩) later
      exact diverge.prepend [_]
    · exact ⟨[], _, _, _, _, rfl, rfl, differs bare⟩

end

end Scan

/-! ## Lines -/

namespace DecoratorLine

def last (line : DecoratorLine) : Text :=
  match line.trailing with
  | some comment => comment.render
  | none => line.tail

theorem render_last (row : DecoratorLine) :
    row.render = row.opening ++ (row.decorators.flatMap Decorator.render ++ row.last) := by
  obtain ⟨opening, decorators, trailing, tail⟩ := row
  cases trailing <;> simp only [render, last, List.append_assoc]

theorem not_mem_render (row : DecoratorLine) (c : Char) : c ∉ row.render ↔
    c ∉ row.opening ∧ (∀ decorator ∈ row.decorators, c ∉ decorator.render) ∧ c ∉ row.last := by
  simp only [render_last, List.mem_append, List.mem_flatMap, not_or, not_exists, not_and]

structure Formed (opening : Text) (line : DecoratorLine) : Prop where
  indent : ∃ gap, line.opening = opening ++ gap ∧ Text.skipGap gap = []
  row : ∃ first rest, line.decorators = first :: rest ∧ first.leading = [] ∧
    ∀ next ∈ rest, next.Apart
  each : ∀ decorator ∈ line.decorators, decorator.Formed
  closing : Scan.Closing line.trailing line.tail line.last

theorem Formed.text {opening : Text} {line : DecoratorLine} (formed : line.Formed opening) :
    ∃ gap first rest, line.opening = opening ++ gap ∧ Text.skipGap gap = [] ∧
      line.decorators = first :: rest ∧ first.leading = [] ∧ (∀ next ∈ rest, next.Apart) ∧
      line.render = opening ++ (gap ++ '@' :: Scan.rowText first rest line.last) := by
  obtain ⟨gap, isOpening, isGap⟩ := formed.indent
  obtain ⟨first, rest, isRow, noLeading, apart⟩ := formed.row
  refine ⟨gap, first, rest, isOpening, isGap, isRow, noLeading, apart, ?_⟩
  rw [line.render_last, isRow, Scan.render_row, noLeading, isOpening, List.append_assoc]
  rfl

end DecoratorLine

/-- Whether every decorator of a line ends where the next one begins. -/
def CommentLine.Holds : CommentLine → Prop
  | plain _ => True
  | decorated line => Decorator.AllEnd line.last line.decorators

/-- What the decorators of a comment line say once they are expanded. -/
def CommentLine.sayings (bare : Bool) (line : CommentLine) : List (Text × Text) :=
  line.decorators.map fun decorator => (decorator.expand bare).contents

namespace Scan

theorem skipGap_gap (text : Text) : Text.skipGap (Text.gap text) = [] := by
  rw [← List.append_nil (Text.gap text), Text.skipGap_gap_append]
  rfl

theorem comment_eq_decorated (opening gap text : Text) (isGap : Text.skipGap gap = [])
    (line : CommentLine) :
    comment opening (gap ++ '@' :: text) = .ok line ↔
      ∃ list trailing tail, Decorates [] text list trailing tail ∧
        line = .decorated ⟨opening ++ gap, list, trailing, tail⟩ := by
  obtain ⟨sameGap, isAt⟩ := gap_solid_append isGap '@' text rfl
  simp only [comment, isAt, sameGap]
  constructor
  · intro read
    split at read
    · cases read
    · rename_i list trailing tail found
      cases read
      exact ⟨list, trailing, tail,
        (decorators_eq_ok _ [] text (Nat.lt_succ_self _) list trailing tail).mp found, rfl⟩
  · rintro ⟨list, trailing, tail, decorates, rfl⟩
    rw [(decorators_eq_ok _ [] text (Nat.lt_succ_self _) list trailing tail).mpr decorates]

theorem comment_formed (opening afterHash : Text) (line : DecoratorLine)
    (read : comment opening afterHash = .ok (.decorated line)) : line.Formed opening := by
  have isGap := skipGap_gap afterHash
  have whole := Text.gap_append_skipGap afterHash
  cases next : Text.skipGap afterHash with
  | nil =>
    simp only [comment, next] at read
    cases read
  | cons c rest =>
    by_cases isAt : c = '@'
    · subst isAt
      rw [← whole, next] at read
      obtain ⟨list, trailing, tail, decorates, isLine⟩ :=
        (comment_eq_decorated opening _ rest isGap _).mp read
      cases isLine
      obtain ⟨row, each, last, closing⟩ := decorates.formed
      refine ⟨⟨_, rfl, isGap⟩, row, each, ?_⟩
      cases closing with
      | gap isTail => exact .gap isTail
      | @comment gap text isTail =>
        have made := @Closing.comment gap text isTail
        simpa only [DecoratorLine.last, Comment.render, List.append_assoc, List.singleton_append]
          using made
    · exfalso
      simp only [comment, next] at read
      split at read
      · rename_i same
        exact isAt (List.cons.inj same).1
      · cases read

theorem isDivider_decorated (gap text : Text) (isGap : Text.skipGap gap = [])
    (starts : startsName text = true) : isDivider (gap ++ '@' :: text) = false := by
  have inGap : ∀ c ∈ gap, Text.isBlank c = true := by
    intro c member
    rw [← gap_eq_self isGap] at member
    exact Text.isBlank_of_isGap c (Text.gap_of_mem_gap gap c member)
  have front : Text.trimStart (gap ++ '@' :: text) = '@' :: text := by
    rw [Text.trimStart, List.dropWhile_append_of_pos inGap]
    rfl
  have trimmed : Text.trim (gap ++ '@' :: text) <+: '@' :: text := by
    rw [Text.trim, front]
    exact Text.dropEndWhile_prefix _ _
  unfold isDivider
  split
  · rfl
  · rename_i c rest isTrim
    rw [isTrim] at trimmed
    obtain ⟨rfl, inText⟩ := List.cons_prefix_cons.mp trimmed
    cases rest with
    | nil => simp
    | cons d more =>
      obtain ⟨others, rfl⟩ := inText
      have notAt : d ≠ '@' := by
        rintro rfl
        cases starts
      simp [notAt]

/-- A line of decorators is read again if each of them ends where the next one begins; what is
read if one does not says something else. -/
theorem comment_rereads {opening : Text} {line : DecoratorLine} (formed : line.Formed opening) :
    ∃ afterHash, line.render = opening ++ afterHash ∧ isDivider afterHash = false ∧
      ((CommentLine.decorated line).Holds → comment opening afterHash = .ok (.decorated line)) ∧
      (¬ (CommentLine.decorated line).Holds → ∀ found, comment opening afterHash = .ok found →
        ∀ bare, Diverge (found.sayings bare) ((CommentLine.decorated line).sayings bare)) := by
  obtain ⟨gap, first, rest, isOpening, isGap, isRow, noLeading, apart, isText⟩ := formed.text
  have each := formed.each
  rw [isRow] at each
  have named := (each first List.mem_cons_self).1
  have starts : startsName (rowText first rest line.last) = true := by
    rw [rowText, startsName_append _ _ named.ne_nil]
    exact named.parts.1
  refine ⟨_, isText, isDivider_decorated gap _ isGap starts, fun holds => ?_,
    fun lost found read bare => ?_⟩
  · rw [CommentLine.Holds, isRow] at holds
    have again := decorates_again apart each formed.closing holds
    rw [noLeading] at again
    refine (comment_eq_decorated opening gap _ isGap _).mpr ⟨_, _, _, again, ?_⟩
    rw [← isOpening, ← isRow]
  · rw [CommentLine.Holds, isRow] at lost
    obtain ⟨list, trailing, tail, again, rfl⟩ :=
      (comment_eq_decorated opening gap _ isGap _).mp read
    rw [← noLeading] at again
    have diverge := decorates_lost apart each formed.closing lost again bare
    rwa [← isRow] at diverge

theorem comment_holds (opening afterHash : Text) (line : CommentLine)
    (read : comment opening afterHash = .ok line) : line.Holds := by
  cases line with
  | plain comment => trivial
  | decorated line =>
    obtain ⟨again, isText, -, -, lost⟩ :=
      comment_rereads (comment_formed opening afterHash line read)
    have written : line.render = opening ++ afterHash := comment_append opening afterHash _ read
    obtain rfl : again = afterHash := List.append_cancel_left (isText.symm.trans written)
    by_contra differs
    exact (lost differs _ read true).ne rfl

end Scan

end Dotenv
