import Dotenv.Proofs.Edit.Target
import Dotenv.Proofs.Reading.Runs
/-!
# Decorators set among comment lines

A decorator is set in the place of the last one of its name, at the end of a line, or on a line of
its own. Each way leaves comment lines that have the form of lines that are read; whether their
decorators hold is another matter.
-/

set_option autoImplicit false

namespace Dotenv

/-! ## Where a decorator is set -/

theorem Decorator.replaceLast_eq_some (name : Text) (setting : Setting)
    (list changed : List Decorator) (replaced : replaceLast name setting list = some changed) :
    ∃ front first back, list = front ++ first :: back ∧
      changed = front ++ { first with setting } :: back := by
  induction list generalizing changed with
  | nil => cases replaced
  | cons decorator rest ih =>
    simp only [replaceLast] at replaced
    split at replaced
    · rename_i later found
      cases replaced
      obtain ⟨front, first, back, rfl, rfl⟩ := ih later found
      exact ⟨decorator :: front, first, back, rfl, rfl⟩
    · split at replaced
      · cases replaced
        exact ⟨[], decorator, rest, rfl, rfl⟩
      · cases replaced

namespace CommentLine

theorem replaceSetting_eq_some (name : Text) (setting : Setting) (line changed : CommentLine)
    (replaced : line.replaceSetting name setting = some changed) :
    ∃ row front first back, line = decorated row ∧ row.decorators = front ++ first :: back ∧
      changed = decorated { row with decorators := front ++ { first with setting } :: back } := by
  cases line with
  | plain comment => cases replaced
  | decorated row =>
    obtain ⟨decorators, found, rfl⟩ := Option.map_eq_some_iff.mp replaced
    obtain ⟨front, first, back, isRow, rfl⟩ :=
      Decorator.replaceLast_eq_some name setting row.decorators decorators found
    exact ⟨row, front, first, back, rfl, isRow, rfl⟩

theorem replaceLast_eq_some (name : Text) (setting : Setting) (lines changed : List CommentLine)
    (replaced : replaceLast name setting lines = some changed) :
    ∃ front line other back, lines = front ++ line :: back ∧
      line.replaceSetting name setting = some other ∧ changed = front ++ other :: back := by
  induction lines generalizing changed with
  | nil => cases replaced
  | cons first rest ih =>
    simp only [replaceLast] at replaced
    split at replaced
    · rename_i later found
      cases replaced
      obtain ⟨front, line, other, back, rfl, isOther, rfl⟩ := ih later found
      exact ⟨first :: front, line, other, back, rfl, isOther, rfl⟩
    · obtain ⟨other, isOther, rfl⟩ := Option.map_eq_some_iff.mp replaced
      exact ⟨[], first, other, rest, rfl, isOther, rfl⟩

theorem lastOpen?_eq_some (lines front back : List CommentLine) (row : DecoratorLine)
    (found : lastOpen? lines = some (front, row, back)) :
    lines = front ++ decorated row :: back ∧ row.trailing = none := by
  induction lines generalizing front back row with
  | nil => cases found
  | cons first rest ih =>
    simp only [lastOpen?] at found
    split at found
    · rename_i laterFront laterRow laterBack later
      cases found
      obtain ⟨rfl, isOpen⟩ := ih _ _ _ later
      exact ⟨rfl, isOpen⟩
    · cases first with
      | plain comment => cases found
      | decorated line =>
        simp only at found
        split at found
        · rename_i isOpen
          cases found
          exact ⟨rfl, Option.isNone_iff_eq_none.mp isOpen⟩
        · cases found

theorem addDecorator_cases (decorator : Decorator) (lines : List CommentLine) :
    (∃ front row back, lines = front ++ decorated row :: back ∧ row.trailing = none ∧
        row.render.length + (Decorator.render { decorator with leading := [' '] }).length ≤
          widthLimit ∧
        addDecorator decorator lines = front ++ decorated { row with
          decorators := row.decorators ++ [{ decorator with leading := [' '] }] } :: back) ∨
      addDecorator decorator lines =
        lines ++ [decorated (.new [{ decorator with leading := [] }])] := by
  simp only [addDecorator]
  split
  · exact Or.inr rfl
  · rename_i front row back isOpen
    obtain ⟨isLines, noTrailing⟩ := lastOpen?_eq_some lines front back row isOpen
    split
    · rename_i narrow
      exact Or.inl ⟨front, row, back, isLines, noTrailing, narrow, rfl⟩
    · exact Or.inr rfl

theorem setDecorator_cases (name : Text) (decorator : Decorator) (lines : List CommentLine) :
    (∃ front line changed back, lines = front ++ line :: back ∧
        line.replaceSetting name decorator.setting = some changed ∧
        setDecorator name decorator lines = front ++ changed :: back) ∨
      (∃ front row back, lines = front ++ decorated row :: back ∧ row.trailing = none ∧
        row.render.length + (Decorator.render { decorator with leading := [' '] }).length ≤
          widthLimit ∧
        setDecorator name decorator lines = front ++ decorated { row with
          decorators := row.decorators ++ [{ decorator with leading := [' '] }] } :: back) ∨
      setDecorator name decorator lines =
        lines ++ [decorated (.new [{ decorator with leading := [] }])] := by
  unfold setDecorator
  cases found : replaceLast name decorator.setting lines with
  | some changed =>
    obtain ⟨front, line, other, back, isLines, isOther, isChanged⟩ :=
      replaceLast_eq_some name decorator.setting lines changed found
    exact Or.inl ⟨front, line, other, back, isLines, isOther, isChanged⟩
  | none => exact Or.inr (addDecorator_cases decorator lines)

theorem setDecorator_ne_nil (name : Text) (decorator : Decorator) (lines : List CommentLine) :
    setDecorator name decorator lines ≠ [] := by
  rcases setDecorator_cases name decorator lines with ⟨_, _, _, _, -, -, same⟩ |
    ⟨_, _, _, -, -, -, same⟩ | same <;> simp [same]

end CommentLine

/-! ## Expanded lines -/

section
variable (bare : Bool) (name : Text) (setting : Setting) (decorator : Decorator)

theorem Decorator.replaceLast_expand (list : List Decorator) :
    replaceLast name (setting.expand bare) (list.map (expand bare)) =
      (replaceLast name setting list).map (List.map (expand bare)) := by
  induction list with
  | nil => rfl
  | cons first rest ih =>
    simp only [List.map_cons, replaceLast, ih]
    cases replaceLast name setting rest with
    | some later => rfl
    | none =>
      by_cases isName : first.name = name
      · simp only [Option.map_none, isName, expand, if_true, Option.map_some, List.map_cons]
      · simp only [Option.map_none, isName, expand, if_false]

namespace CommentLine

theorem expand_decorated (row : DecoratorLine) :
    (decorated row).expand bare = decorated (row.expand bare) := rfl

theorem replaceSetting_expand (line : CommentLine) :
    (line.expand bare).replaceSetting name (setting.expand bare) =
      (line.replaceSetting name setting).map (expand bare) := by
  cases line with
  | plain comment => rfl
  | decorated row =>
    rw [expand_decorated]
    simp only [replaceSetting, DecoratorLine.expand, Decorator.replaceLast_expand, Option.map_map]
    rfl

theorem replaceLast_expand (lines : List CommentLine) :
    replaceLast name (setting.expand bare) (lines.map (expand bare)) =
      (replaceLast name setting lines).map (List.map (expand bare)) := by
  induction lines with
  | nil => rfl
  | cons first rest ih =>
    simp only [List.map_cons, replaceLast, ih]
    cases replaceLast name setting rest with
    | some later => rfl
    | none =>
      simp only [Option.map_none, replaceSetting_expand, Option.map_map]
      rfl

theorem lastOpen?_expand (lines : List CommentLine) :
    lastOpen? (lines.map (expand bare)) = (lastOpen? lines).map fun found =>
      (found.1.map (expand bare), found.2.1.expand bare, found.2.2.map (expand bare)) := by
  induction lines with
  | nil => rfl
  | cons first rest ih =>
    simp only [List.map_cons, lastOpen?, ih]
    cases lastOpen? rest with
    | some later => rfl
    | none =>
      cases first with
      | plain comment => rfl
      | decorated row =>
        obtain ⟨opening, decorators, trailing, tail⟩ := row
        cases trailing <;> rfl

theorem setDecorator_expand (lines : List CommentLine) :
    setDecorator name (decorator.expand bare) (lines.map (expand bare)) =
      (setDecorator name decorator lines).map (expand bare) := by
  have replaced := replaceLast_expand bare name decorator.setting lines
  have alone : ∀ leading, decorated (.new [{ decorator.expand bare with leading }]) =
      (decorated (.new [{ decorator with leading }])).expand bare := fun leading => rfl
  unfold setDecorator
  rw [show (decorator.expand bare).setting = decorator.setting.expand bare from rfl, replaced]
  cases replaceLast name decorator.setting lines with
  | some changed => rfl
  | none =>
    simp only [Option.map_none, Option.getD_none, addDecorator, lastOpen?_expand, alone]
    cases lastOpen? lines with
    | none => simp only [Option.map_none, List.map_append, List.map_cons, List.map_nil]
    | some found =>
      obtain ⟨front, row, back⟩ := found
      have sameRow : (row.expand bare).render = row.render := render_expand bare (decorated row)
      have sameAdded : ({ decorator.expand bare with leading := [' '] } : Decorator).render =
          ({ decorator with leading := [' '] } : Decorator).render :=
        Decorator.render_expand bare { decorator with leading := [' '] }
      simp only [Option.map_some, sameRow, sameAdded]
      split
      · simp only [List.map_append, List.map_cons, expand_decorated, DecoratorLine.expand,
          List.map_nil, Decorator.expand]
      · simp only [List.map_append, List.map_cons, List.map_nil]

end CommentLine

end

/-! ## The form of a line -/

namespace DecoratorLine

theorem Formed.set {opening : Text} {row : DecoratorLine} (formed : row.Formed opening)
    {front back : List Decorator} {first : Decorator}
    (isRow : row.decorators = front ++ first :: back) {setting : Setting}
    (written : setting.Written) :
    ({ row with decorators := front ++ { first with setting } :: back } : DecoratorLine).Formed
      opening := by
  obtain ⟨indent, isFormed, each, closing⟩ := formed
  refine ⟨indent, ?_, ?_, closing⟩
  · obtain ⟨start, rest, same, noLeading, apart⟩ := isFormed
    rw [isRow] at same
    cases front with
    | nil =>
      obtain ⟨rfl, rfl⟩ := List.cons.inj same
      exact ⟨_, _, rfl, noLeading, apart⟩
    | cons d front =>
      rw [List.cons_append] at same
      obtain ⟨rfl, rfl⟩ := List.cons.inj same
      refine ⟨d, front ++ { first with setting } :: back, rfl, noLeading, ?_⟩
      rw [List.forall_mem_append, List.forall_mem_cons] at apart ⊢
      exact apart
  · rw [isRow, List.forall_mem_append, List.forall_mem_cons] at each
    obtain ⟨inFront, isFirst, inBack⟩ := each
    rw [List.forall_mem_append, List.forall_mem_cons]
    exact ⟨inFront, ⟨isFirst.1, written⟩, inBack⟩

theorem Formed.added {opening : Text} {row : DecoratorLine} (formed : row.Formed opening)
    {decorator : Decorator} (isFormed : decorator.Formed) :
    ({ row with decorators := row.decorators ++ [{ decorator with leading := [' '] }] } :
      DecoratorLine).Formed opening := by
  obtain ⟨indent, ⟨first, rest, isRow, noLeading, apart⟩, each, closing⟩ := formed
  refine ⟨indent, ⟨first, rest ++ [_], by rw [isRow]; rfl, noLeading, ?_⟩, ?_, closing⟩
  · rw [List.forall_mem_append, List.forall_mem_singleton]
    exact ⟨apart, List.cons_ne_nil _ _, rfl⟩
  · rw [List.forall_mem_append, List.forall_mem_singleton]
    exact ⟨each, isFormed⟩

theorem Formed.alone {decorator : Decorator} (isFormed : decorator.Formed) :
    (new [{ decorator with leading := [] }]).Formed ['#'] := by
  exact ⟨⟨[' '], rfl, rfl⟩, ⟨_, [], rfl, rfl, by simp⟩,
    List.forall_mem_singleton.mpr isFormed, .gap rfl⟩

end DecoratorLine

theorem Decorator.oneLine_iff (decorator : Decorator) : '\n' ∉ decorator.render ↔
    '\n' ∉ decorator.leading ∧ '\n' ∉ decorator.name ∧ '\n' ∉ decorator.setting.render := by
  simp only [render, List.mem_append, List.mem_cons, Char.reduceEq, false_or, not_or, and_assoc]

theorem CommentLine.replaceSetting_oneLine {line changed : CommentLine} {name : Text}
    {setting : Setting} (replaced : line.replaceSetting name setting = some changed)
    (oneLine : '\n' ∉ setting.render) (noNewline : '\n' ∉ line.render) : '\n' ∉ changed.render := by
  obtain ⟨row, front, first, back, rfl, isRow, rfl⟩ :=
    replaceSetting_eq_some name setting line changed replaced
  rw [render, DecoratorLine.not_mem_render, isRow, List.forall_mem_append,
    List.forall_mem_cons] at noNewline
  obtain ⟨inOpening, ⟨inFront, inFirst, inBack⟩, inLast⟩ := noNewline
  rw [render, DecoratorLine.not_mem_render, List.forall_mem_append, List.forall_mem_cons]
  rw [Decorator.oneLine_iff] at inFirst
  refine ⟨inOpening, ⟨inFront, ?_, inBack⟩, inLast⟩
  exact (Decorator.oneLine_iff _).mpr ⟨inFirst.1, inFirst.2.1, oneLine⟩

theorem CommentLine.setDecorator_areLines (name : Text) {decorator : Decorator}
    (formed : decorator.Formed) (oneLine : '\n' ∉ decorator.render) {lines : List CommentLine}
    (areLines : ∀ line ∈ lines, line.IsLine) :
    ∀ line ∈ setDecorator name decorator lines, line.IsLine := by
  obtain ⟨-, namedLine⟩ := (Decorator.oneLine_iff decorator).mp oneLine
  have inPlace : ∀ (front back : List CommentLine) (line changed : CommentLine),
      lines = front ++ line :: back → (line.IsLine → changed.IsLine) →
        ∀ other ∈ front ++ changed :: back, other.IsLine := by
    rintro front back line changed rfl keeps
    rw [List.forall_mem_append, List.forall_mem_cons] at areLines ⊢
    exact ⟨areLines.1, keeps areLines.2.1, areLines.2.2⟩
  rcases setDecorator_cases name decorator lines with ⟨front, line, changed, back, isLines,
    replaced, same⟩ | ⟨front, row, back, isLines, -, -, same⟩ | same
  · rw [same]
    refine inPlace front back line changed isLines fun isLine => ⟨?_, ?_⟩
    · obtain ⟨row, start, first, rest, rfl, isRow, rfl⟩ :=
        replaceSetting_eq_some name decorator.setting line changed replaced
      obtain ⟨⟨indent, isGap, rowFormed⟩, -⟩ := isLine
      exact ⟨indent, isGap, rowFormed.set isRow formed.2⟩
    · exact replaceSetting_oneLine replaced namedLine.2 isLine.2
  · rw [same]
    refine inPlace front back _ _ isLines fun isLine => ?_
    obtain ⟨⟨indent, isGap, rowFormed⟩, noNewline⟩ := isLine
    refine ⟨⟨indent, isGap, rowFormed.added formed⟩, ?_⟩
    rw [render, DecoratorLine.not_mem_render] at noNewline
    obtain ⟨inOpening, inRow, inLast⟩ := noNewline
    rw [render, DecoratorLine.not_mem_render, List.forall_mem_append, List.forall_mem_singleton]
    exact ⟨inOpening, ⟨inRow, (Decorator.oneLine_iff _).mpr ⟨by simp, namedLine⟩⟩, inLast⟩
  · rw [same, List.forall_mem_append, List.forall_mem_singleton]
    refine ⟨areLines, ⟨[], rfl, DecoratorLine.Formed.alone formed⟩, ?_⟩
    rw [render, DecoratorLine.not_mem_render, DecoratorLine.new, List.forall_mem_singleton]
    exact ⟨by simp, (Decorator.oneLine_iff _).mpr ⟨by simp, namedLine⟩, List.not_mem_nil⟩

end Dotenv
