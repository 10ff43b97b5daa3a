import Dotenv.Proofs.Edit.Decorator
import Dotenv.Proofs.Keyed
/-!
# Decorators by name, after one is set

A name stands for the last decorator that has it. A decorator is set where its name is looked up:
in the place of the last one of the name, or where none has the name. So the name stands for what
was set, every other name for what it did, and to set the same once more changes nothing.
-/

set_option autoImplicit false

namespace Dotenv

namespace Decorator

/-! ## What a name stands for -/

theorem get?_byName_concat (name : Text) (list : List Decorator) (last : Decorator) :
    (byName (list ++ [last])).get? name =
      if last.name = name then some last else (byName list).get? name := by
  rw [byName, List.map_append, List.map_singleton, Keyed.ofList_concat, Keyed.get?_set]
  rfl

theorem get?_byName_last (front back : List Decorator) (decorator : Decorator)
    (last : ∀ later ∈ back, later.name ≠ decorator.name) :
    (byName (front ++ decorator :: back)).get? decorator.name = some decorator := by
  induction back using List.reverseRecOn with
  | nil => rw [get?_byName_concat, if_pos rfl]
  | append_singleton between final ih =>
    rw [List.forall_mem_append, List.forall_mem_singleton] at last
    rw [← List.cons_append, ← List.append_assoc, get?_byName_concat, if_neg last.2]
    exact ih last.1

theorem get?_byName_other (name : Text) (front back : List Decorator) (decorator : Decorator)
    (differs : decorator.name ≠ name) :
    (byName (front ++ decorator :: back)).get? name = (byName (front ++ back)).get? name := by
  induction back using List.reverseRecOn with
  | nil => rw [get?_byName_concat, if_neg differs, List.append_nil]
  | append_singleton between final ih =>
    rw [← List.cons_append, ← List.append_assoc, get?_byName_concat, ih, ← List.append_assoc,
      get?_byName_concat]

/-! ## One decorator set -/

def Replaces (name : Text) (setting : Setting) (list changed : List Decorator) : Prop :=
  ∃ front decorator back, list = front ++ decorator :: back ∧
    changed = front ++ { decorator with setting } :: back ∧ decorator.name = name ∧
    ∀ later ∈ back, later.name ≠ name

/-- Among decorators, of which none had a name, one of that name has been put in. -/
def Adds (name : Text) (setting : Setting) (list changed : List Decorator) : Prop :=
  ∃ front decorator back, list = front ++ back ∧ changed = front ++ decorator :: back ∧
    decorator.name = name ∧ decorator.setting = setting ∧ ∀ other ∈ list, other.name ≠ name

def Sets (name : Text) (setting : Setting) (list changed : List Decorator) : Prop :=
  Replaces name setting list changed ∨ Adds name setting list changed

section
variable {name : Text} {setting : Setting} {list changed : List Decorator}

theorem Sets.get?_name (sets : Sets name setting list changed) :
    ∃ found, (byName changed).get? name = some found ∧ found.setting = setting := by
  rcases sets with ⟨front, decorator, back, -, rfl, rfl, last⟩ |
    ⟨front, decorator, back, rfl, rfl, rfl, isSetting, absent⟩
  · exact ⟨_, get?_byName_last front back { decorator with setting } last, rfl⟩
  · exact ⟨_, get?_byName_last front back decorator fun later member =>
      absent later (List.mem_append_right front member), isSetting⟩

theorem Sets.get?_other (sets : Sets name setting list changed) {other : Text}
    (differs : other ≠ name) : (byName changed).get? other = (byName list).get? other := by
  rcases sets with ⟨front, decorator, back, rfl, rfl, rfl, -⟩ |
    ⟨front, decorator, back, rfl, rfl, rfl, -, -⟩
  · rw [get?_byName_other other front back decorator differs.symm,
      get?_byName_other other front back { decorator with setting } differs.symm]
  · exact get?_byName_other other front back decorator differs.symm

theorem Replaces.prepend (replaces : Replaces name setting list changed) (front : List Decorator) :
    Replaces name setting (front ++ list) (front ++ changed) := by
  obtain ⟨upper, decorator, back, rfl, rfl, isName, last⟩ := replaces
  exact ⟨front ++ upper, decorator, back, (List.append_assoc _ _ _).symm,
    (List.append_assoc _ _ _).symm, isName, last⟩

theorem Replaces.append (replaces : Replaces name setting list changed) {back : List Decorator}
    (absent : ∀ later ∈ back, later.name ≠ name) :
    Replaces name setting (list ++ back) (changed ++ back) := by
  obtain ⟨front, decorator, between, rfl, rfl, isName, last⟩ := replaces
  refine ⟨front, decorator, between ++ back, by simp, by simp, isName, ?_⟩
  exact List.forall_mem_append.mpr ⟨last, absent⟩

theorem Sets.append (sets : Sets name setting list changed) {back : List Decorator}
    (absent : ∀ later ∈ back, later.name ≠ name) :
    Sets name setting (list ++ back) (changed ++ back) := by
  rcases sets with replaces | ⟨front, decorator, between, rfl, rfl, isName, isSetting, none⟩
  · exact .inl (replaces.append absent)
  · refine .inr ⟨front, decorator, between ++ back, by simp, by simp, isName, isSetting, ?_⟩
    exact List.forall_mem_append.mpr ⟨none, absent⟩

end

/-! ## In a list of decorators -/

section
variable (name : Text) (setting : Setting)

theorem replaceLast_eq_none (list : List Decorator) :
    replaceLast name setting list = none ↔ ∀ decorator ∈ list, decorator.name ≠ name := by
  induction list with
  | nil => simp [replaceLast]
  | cons first rest ih =>
    rw [List.forall_mem_cons, ← ih, replaceLast]
    cases replaceLast name setting rest <;> simp

theorem replaces_of_replaceLast (list changed : List Decorator)
    (replaced : replaceLast name setting list = some changed) :
    Replaces name setting list changed := by
  induction list generalizing changed with
  | nil => cases replaced
  | cons first rest ih =>
    simp only [replaceLast] at replaced
    split at replaced
    · rename_i later found
      cases replaced
      exact (ih later found).prepend [first]
    · rename_i absent
      split at replaced
      · rename_i isName
        cases replaced
        exact ⟨[], first, rest, rfl, rfl, isName, (replaceLast_eq_none name setting rest).mp absent⟩
      · cases replaced

theorem replaceLast_again (list changed : List Decorator)
    (replaced : replaceLast name setting list = some changed) :
    replaceLast name setting changed = some changed := by
  induction list generalizing changed with
  | nil => cases replaced
  | cons first rest ih =>
    simp only [replaceLast] at replaced
    split at replaced
    · rename_i later found
      cases replaced
      simp only [replaceLast, ih later found]
    · rename_i absent
      split at replaced
      · rename_i isName
        cases replaced
        simp only [replaceLast, absent, isName, if_true]
      · cases replaced

end

theorem replaceLast_concat (list : List Decorator) (decorator : Decorator) :
    replaceLast decorator.name decorator.setting (list ++ [decorator]) =
      some (list ++ [decorator]) := by
  induction list with
  | nil => simp only [List.nil_append, replaceLast, if_true]
  | cons first rest ih => simp only [List.cons_append, replaceLast, ih]

end Decorator

/-! ## In comment lines -/

namespace CommentLine

section
variable (name : Text) (setting : Setting)

theorem replaceSetting_eq_none (line : CommentLine) :
    line.replaceSetting name setting = none ↔
      ∀ decorator ∈ line.decorators, decorator.name ≠ name := by
  cases line with
  | plain comment => simp [replaceSetting, decorators]
  | decorated row =>
    rw [replaceSetting, Option.map_eq_none_iff, Decorator.replaceLast_eq_none]
    rfl

theorem replaces_of_replaceSetting (line changed : CommentLine)
    (replaced : line.replaceSetting name setting = some changed) :
    Decorator.Replaces name setting line.decorators changed.decorators := by
  cases line with
  | plain comment => cases replaced
  | decorated row =>
    obtain ⟨list, found, rfl⟩ := Option.map_eq_some_iff.mp replaced
    exact Decorator.replaces_of_replaceLast name setting row.decorators list found

theorem replaceSetting_again (line changed : CommentLine)
    (replaced : line.replaceSetting name setting = some changed) :
    changed.replaceSetting name setting = some changed := by
  cases line with
  | plain comment => cases replaced
  | decorated row =>
    obtain ⟨list, found, rfl⟩ := Option.map_eq_some_iff.mp replaced
    simp only [replaceSetting, Decorator.replaceLast_again name setting _ list found,
      Option.map_some]

theorem remark?_replaceSetting (line changed : CommentLine)
    (replaced : line.replaceSetting name setting = some changed) :
    line.remark? = none ∧ changed.remark? = none := by
  cases line with
  | plain comment => cases replaced
  | decorated row =>
    obtain ⟨list, -, rfl⟩ := Option.map_eq_some_iff.mp replaced
    exact ⟨rfl, rfl⟩

theorem replaceLast_eq_none (lines : List CommentLine) :
    replaceLast name setting lines = none ↔
      ∀ decorator ∈ lines.flatMap decorators, decorator.name ≠ name := by
  induction lines with
  | nil => simp [replaceLast]
  | cons first rest ih =>
    rw [List.flatMap_cons, List.forall_mem_append, ← ih, ← replaceSetting_eq_none name setting,
      replaceLast]
    cases replaceLast name setting rest <;> simp

theorem replaces_of_replaceLast (lines changed : List CommentLine)
    (replaced : replaceLast name setting lines = some changed) :
    Decorator.Replaces name setting (lines.flatMap decorators) (changed.flatMap decorators) := by
  induction lines generalizing changed with
  | nil => cases replaced
  | cons first rest ih =>
    simp only [replaceLast] at replaced
    split at replaced
    · rename_i later found
      cases replaced
      exact (ih later found).prepend first.decorators
    · rename_i absent
      obtain ⟨other, isOther, rfl⟩ := Option.map_eq_some_iff.mp replaced
      exact (replaces_of_replaceSetting name setting first other isOther).append
        ((replaceLast_eq_none name setting rest).mp absent)

theorem replaceLast_of_last (front back : List CommentLine) (line changed : CommentLine)
    (replaced : line.replaceSetting name setting = some changed)
    (absent : replaceLast name setting back = none) :
    replaceLast name setting (front ++ line :: back) = some (front ++ changed :: back) := by
  induction front with
  | nil => simp only [List.nil_append, replaceLast, absent, replaced, Option.map_some]
  | cons first rest ih => simp only [List.cons_append, replaceLast, ih]

theorem replaceLast_again (lines changed : List CommentLine)
    (replaced : replaceLast name setting lines = some changed) :
    replaceLast name setting changed = some changed := by
  induction lines generalizing changed with
  | nil => cases replaced
  | cons first rest ih =>
    simp only [replaceLast] at replaced
    split at replaced
    · rename_i later found
      cases replaced
      simp only [replaceLast, ih later found]
    · rename_i absent
      obtain ⟨other, isOther, rfl⟩ := Option.map_eq_some_iff.mp replaced
      exact replaceLast_of_last name setting [] rest other other
        (replaceSetting_again name setting first other isOther) absent

theorem remarks_replaceLast (lines changed : List CommentLine)
    (replaced : replaceLast name setting lines = some changed) :
    changed.filterMap remark? = lines.filterMap remark? := by
  obtain ⟨front, line, other, back, rfl, isOther, rfl⟩ :=
    replaceLast_eq_some name setting lines changed replaced
  obtain ⟨before, after⟩ := remark?_replaceSetting name setting line other isOther
  simp only [List.filterMap_append, List.filterMap_cons, before, after]

end

section
variable (decorator : Decorator) (lines : List CommentLine)

theorem adds_addDecorator
    (absent : ∀ other ∈ lines.flatMap decorators, other.name ≠ decorator.name) :
    Decorator.Adds decorator.name decorator.setting (lines.flatMap decorators)
      ((addDecorator decorator lines).flatMap decorators) := by
  rcases addDecorator_cases decorator lines with ⟨front, row, back, rfl, -, -, same⟩ | same
  · refine ⟨front.flatMap decorators ++ row.decorators, { decorator with leading := [' '] },
      back.flatMap decorators, ?_, ?_, rfl, rfl, absent⟩
    · simp [decorators]
    · simp [same, decorators]
  · refine ⟨lines.flatMap decorators, { decorator with leading := [] }, [],
      (List.append_nil _).symm, ?_, rfl, rfl, absent⟩
    rw [same, List.flatMap_append]
    rfl

theorem replaceLast_addDecorator
    (absent : ∀ other ∈ lines.flatMap decorators, other.name ≠ decorator.name) :
    replaceLast decorator.name decorator.setting (addDecorator decorator lines) =
      some (addDecorator decorator lines) := by
  rcases addDecorator_cases decorator lines with ⟨front, row, back, rfl, -, -, same⟩ | same
  · rw [List.flatMap_append, List.flatMap_cons, List.forall_mem_append,
      List.forall_mem_append] at absent
    rw [same]
    have isLast := Decorator.replaceLast_concat row.decorators { decorator with leading := [' '] }
    refine replaceLast_of_last _ _ front back _ _ ?_
      ((replaceLast_eq_none _ _ back).mpr absent.2.2)
    exact congrArg (Option.map fun list => decorated { row with decorators := list }) isLast
  · rw [same]
    have isLast := Decorator.replaceLast_concat [] { decorator with leading := [] }
    refine replaceLast_of_last _ _ lines [] _ _ ?_ rfl
    exact congrArg (Option.map fun list => decorated (.new list)) isLast

theorem remarks_addDecorator :
    (addDecorator decorator lines).filterMap remark? = lines.filterMap remark? := by
  rcases addDecorator_cases decorator lines with ⟨front, row, back, rfl, -, -, same⟩ | same
  · rw [same, List.filterMap_append, List.filterMap_append]
    rfl
  · rw [same, List.filterMap_append]
    exact List.append_nil _

theorem sets_setDecorator :
    Decorator.Sets decorator.name decorator.setting (lines.flatMap decorators)
      ((setDecorator decorator.name decorator lines).flatMap decorators) := by
  unfold setDecorator
  cases found : replaceLast decorator.name decorator.setting lines with
  | some changed => exact .inl (replaces_of_replaceLast _ _ lines changed found)
  | none =>
    exact .inr (adds_addDecorator decorator lines ((replaceLast_eq_none _ _ lines).mp found))

theorem replaceLast_setDecorator :
    replaceLast decorator.name decorator.setting (setDecorator decorator.name decorator lines) =
      some (setDecorator decorator.name decorator lines) := by
  unfold setDecorator
  cases found : replaceLast decorator.name decorator.setting lines with
  | some changed => exact replaceLast_again _ _ lines changed found
  | none =>
    exact replaceLast_addDecorator decorator lines ((replaceLast_eq_none _ _ lines).mp found)

theorem setDecorator_again :
    setDecorator decorator.name decorator (setDecorator decorator.name decorator lines) =
      setDecorator decorator.name decorator lines := by
  conv_lhs => rw [setDecorator, replaceLast_setDecorator, Option.getD_some]

theorem remarks_setDecorator (name : Text) :
    (setDecorator name decorator lines).filterMap remark? = lines.filterMap remark? := by
  unfold setDecorator
  cases found : replaceLast name decorator.setting lines with
  | some changed => exact remarks_replaceLast name decorator.setting lines changed found
  | none => exact remarks_addDecorator decorator lines

end

end CommentLine

end Dotenv
