import Dotenv.Proofs.Reading.Scan
import Dotenv.Reading.File
/-!
# Where faults stand

A fault of a line stands in it: what is left of the line from where the fault starts is an end of
the line, and what is left from where it stops is an end of that. Between the two is a part of the
line, and where the cause of the fault has a text of the line in it, the part is that text.
-/

set_option autoImplicit false

namespace Dotenv

/-- The text of the line that a decorator fault has in it, where that is all that it is about. -/
def DecoratorFault.named? : DecoratorFault → Option Text
  | missingName => none
  | malformedArguments _ => none
  | invalidCharacter found _ => some [found]
  | missingValue _ => some ['=']
  | textAfterValue found _ => some [found]
  | textAfterDecorator found => some found

/-- The text of the line that a cause has in it; of quotes it is their opening delimiter. -/
def Cause.named? : Cause → Option Text
  | unterminated quote => some quote.delimiter
  | singleLine quote => some quote.delimiter
  | invalidKey found => some found
  | missingEquals key => some key
  | invalidDecorator fault => fault.named?
  | unexpectedText found => some found

def LineFault.PointsInto (fault : LineFault) (text : Text) : Prop :=
  fault.start <:+ text ∧ ∃ part, fault.start = part ++ fault.stop ∧
    ∀ named, fault.cause.named? = some named → part = named

def LineFault.Within (fault : LineFault) (text : Text) : Prop :=
  fault.start <:+ text ∧ fault.stop <:+ text

namespace LineFault.PointsInto

variable {fault : LineFault} {text whole : Text}

theorem trans (points : fault.PointsInto text) (atEnd : text <:+ whole) : fault.PointsInto whole :=
  ⟨points.1.trans atEnd, points.2⟩

theorem within (points : fault.PointsInto text) : fault.Within text := by
  obtain ⟨start, part, parts, -⟩ := points
  exact ⟨start, List.IsSuffix.trans ⟨part, parts.symm⟩ start⟩

end LineFault.PointsInto

theorem Text.width_le_of_suffix {text whole : Text} (atEnd : text <:+ whole) :
    width text ≤ width whole := by
  obtain ⟨front, rfl⟩ := atEnd
  rw [width_append]
  exact Nat.le_add_left _ _

theorem Quote.delimiter_of_ofMark? {c : Char} {quote : Quote} (isMark : ofMark? c = some quote) :
    quote.delimiter = [c] := by
  unfold ofMark? at isMark
  split at isMark
  · rename_i same
    cases isMark
    exact same ▸ rfl
  · split at isMark
    · rename_i same
      cases isMark
      exact same ▸ rfl
    · split at isMark
      · rename_i same
        cases isMark
        exact same ▸ rfl
      · cases isMark

namespace Scan

/-! ## Comments -/

theorem points_of_refuse {α : Type} {kind : DecoratorFault} {stop text : Text} {fault : LineFault}
    (part : Text)
    (refused : (refuse kind (part ++ stop) stop : Except LineFault α) = .error fault)
    (atEnd : part ++ stop <:+ text) (isNamed : ∀ named, kind.named? = some named → part = named) :
    fault.PointsInto text := by
  cases refused
  exact ⟨atEnd, part, rfl, isNamed⟩

theorem decoratorValue_points (name text : Text) (fault : LineFault)
    (refused : decoratorValue name text = .error fault) : fault.PointsInto ('=' :: text) := by
  have value : text <:+ '=' :: text := List.suffix_cons _ _
  simp only [decoratorValue] at refused
  split at refused
  · exact points_of_refuse ['='] refused (List.suffix_refl _)
      fun named same => Option.some.inj same
  · split at refused
    · rename_i quote opens
      split at refused
      · cases refused
      · cases refused
        cases text with
        | nil => cases opens
        | cons c rest =>
          have isMark : Quote.ofMark? c = some quote := opens
          refine ⟨value, [c], rfl, fun named same => ?_⟩
          rw [← Quote.delimiter_of_ofMark? isMark]
          exact Option.some.inj same
    · split at refused <;> cases refused

theorem setting_points (name text : Text) (fault : LineFault)
    (refused : Scan.setting name text = .error fault) : fault.PointsInto text := by
  simp only [Scan.setting] at refused
  split at refused
  · cases refused
  · rename_i c rest
    have whole : c :: rest <:+ c :: rest := List.suffix_refl _
    have fromRest : rest <:+ c :: rest := List.suffix_cons _ _
    split at refused
    · cases refused
    · split at refused
      · rename_i equals
        subst equals
        split at refused
        · rename_i stopped
          cases refused
          exact decoratorValue_points name rest fault stopped
        · rename_i value after assigned
          have fromAfter : after <:+ rest :=
            ⟨_, decoratorValue_append name rest value after assigned⟩
          split at refused
          · cases refused
          · rename_i d beyond
            split at refused
            · cases refused
            · exact points_of_refuse [d] refused (fromAfter.trans fromRest)
                fun named same => Option.some.inj same
      · split at refused
        · split at refused
          · cases refused
          · cases refused
            exact ⟨whole, c :: rest, (List.append_nil _).symm, fun named same => by cases same⟩
        · exact points_of_refuse [c] refused whole fun named same => Option.some.inj same

theorem decorator_points (leading text : Text) (fault : LineFault)
    (refused : Scan.decorator leading text = .error fault) : fault.PointsInto ('@' :: text) := by
  have fromAt : text <:+ '@' :: text := List.suffix_cons _ _
  simp only [Scan.decorator] at refused
  split at refused
  · cases refused
    refine ⟨List.suffix_refl _, '@' :: text.take 1, ?_, fun named same => by cases same⟩
    rw [List.cons_append, List.take_append_drop]
  · rename_i name rest named
    rw [map_eq_error] at refused
    have fromRest : rest <:+ text := ⟨_, name?_append text name rest named⟩
    exact (setting_points name rest fault refused).trans (fromRest.trans fromAt)

theorem decorator_suffix (leading text : Text) (decorator : Decorator) (rest : Text)
    (read : Scan.decorator leading text = .ok (decorator, rest)) : rest <:+ text := by
  simp only [Scan.decorator] at read
  split at read
  · cases read
  · rename_i name afterName named
    obtain ⟨⟨setting, after⟩, set, same⟩ := (map_eq_ok _ _ _).mp read
    cases same
    exact List.IsSuffix.trans ⟨_, setting_append name afterName setting after set⟩
      ⟨_, name?_append text name afterName named⟩

theorem decorators_points (fuel : Nat) (leading text : Text) (fault : LineFault)
    (refused : decorators fuel leading text = .error fault) : fault.PointsInto ('@' :: text) := by
  induction fuel generalizing leading text with
  | zero => cases refused
  | succ fuel ih =>
    simp only [decorators] at refused
    split at refused
    · rename_i stopped
      cases refused
      exact decorator_points leading text fault stopped
    · rename_i first after one
      have fromAfter := (decorator_suffix leading text first after one).trans
        (List.suffix_cons '@' text)
      split at refused
      · cases refused
      · rename_i c rest more
        have fromRest : c :: rest <:+ '@' :: text :=
          more ▸ (Text.skipGap_suffix after).trans fromAfter
        split at refused
        · rename_i isAt
          split at refused
          · rename_i stopped
            cases refused
            exact (ih _ rest stopped).trans (isAt.1 ▸ fromRest)
          · cases refused
        · split at refused
          · cases refused
          · cases refused
            exact ⟨fromRest, _, List.takeWhile_append_dropWhile.symm,
              fun named same => Option.some.inj same⟩

theorem comment_points (opening afterHash : Text) (fault : LineFault)
    (refused : Scan.comment opening afterHash = .error fault) : fault.PointsInto afterHash := by
  simp only [Scan.comment] at refused
  split at refused
  · rename_i rest isAt
    split at refused
    · rename_i stopped
      cases refused
      have points := decorators_points _ [] rest fault stopped
      exact points.trans (isAt ▸ Text.skipGap_suffix afterHash)
    · cases refused
  · cases refused

/-! ## Items -/

theorem head_points (line : Text) (fault : LineFault) (refused : Scan.head line = .error fault) :
    fault.PointsInto line := by
  have fromKey : (exportWord (Text.skipGap line)).2 <:+ line :=
    List.IsSuffix.trans ⟨_, exportWord_append (Text.skipGap line)⟩ (Text.skipGap_suffix line)
  simp only [Scan.head] at refused
  split at refused
  · cases refused
    exact ⟨fromKey, _, List.takeWhile_append_dropWhile.symm, fun named same => Option.some.inj same⟩
  · split at refused
    · cases refused
    · cases refused
      exact ⟨fromKey, _, (key_append _).symm, fun named same => Option.some.inj same⟩

theorem beginning_points (text : Text) (fault : LineFault)
    (refused : beginning text = .error fault) : fault.PointsInto text := by
  simp only [beginning] at refused
  split at refused
  · cases refused
  · rename_i c rest
    split at refused
    · cases refused
    · split at refused
      · rename_i quote isBlock
        split at refused
        · cases refused
          obtain ⟨triple, after, isText⟩ := text_of_blockQuote? _ quote isBlock
          refine ⟨List.suffix_refl _, quote.delimiter, ?_, fun named same => Option.some.inj same⟩
          dsimp only
          rw [isText, drop_delimiter triple]
        · cases refused
      · split at refused
        · rename_i quote isMark
          split at refused
          · cases refused
          · cases refused
            refine ⟨List.suffix_refl _, [c], rfl, fun named same => ?_⟩
            rw [← Quote.delimiter_of_ofMark? isMark]
            exact Option.some.inj same
        · cases refused

theorem lineEnd_points (text : Text) (fault : LineFault) (refused : lineEnd text = .error fault) :
    fault.PointsInto text := by
  simp only [lineEnd] at refused
  split at refused
  · cases refused
  · rename_i c rest more
    have fromRest : c :: rest <:+ text := more ▸ Text.skipGap_suffix text
    split at refused
    · rw [map_eq_error] at refused
      exact (comment_points ['#'] rest fault refused).trans ((List.suffix_cons _ _).trans fromRest)
    · cases refused
      exact ⟨fromRest, c :: rest, (List.append_nil _).symm, fun named same => Option.some.inj same⟩

theorem beginning_suffix (text : Text) (value : Option Term) (rest : Text)
    (read : beginning text = .ok (.whole value rest)) : rest <:+ text :=
  ⟨_, beginning_append text value rest read⟩

theorem head_suffix (line : Text) (head : Head) (rest : Text)
    (read : Scan.head line = .ok (head, rest)) : rest <:+ line :=
  ⟨_, head_append line head rest read⟩

end Scan

/-! ## Lines -/

theorem readComment_points (line : Text) (fault : LineFault)
    (refused : readComment line = .error fault) : fault.PointsInto line := by
  simp only [readComment] at refused
  split at refused
  · cases refused
  · rw [map_eq_error] at refused
    exact (Scan.comment_points _ _ fault refused).trans
      ((List.drop_suffix 1 _).trans (Text.skipGap_suffix line))

theorem readItem_points (run : List CommentLine) (line : Text) (start : Nat) (fault : LineFault)
    (refused : readItem run line start = .error fault) : fault.PointsInto line := by
  simp only [readItem] at refused
  cases headIs : Scan.head line with
  | error first =>
    rw [headIs] at refused
    cases refused
    exact Scan.head_points line _ headIs
  | ok found =>
    obtain ⟨head, fromValue⟩ := found
    have fromHead := Scan.head_suffix line head fromValue headIs
    rw [headIs] at refused
    simp only [bind, Except.bind] at refused
    cases beginningIs : Scan.beginning fromValue with
    | error first =>
      rw [beginningIs] at refused
      cases refused
      exact (Scan.beginning_points fromValue _ beginningIs).trans fromHead
    | ok beginning =>
      rw [beginningIs] at refused
      cases beginning with
      | opened quote => cases refused
      | whole value rest =>
        have fromBeginning := Scan.beginning_suffix fromValue value rest beginningIs
        cases ends : Scan.lineEnd rest with
        | error first =>
          simp only [ends] at refused
          cases refused
          exact (Scan.lineEnd_points rest _ ends).trans (fromBeginning.trans fromHead)
        | ok found =>
          simp only [ends] at refused
          cases refused

theorem OpenItem.close_points (item : OpenItem) (line afterValue : Text) (lineEnd : Nat)
    (fault : LineFault) (atEnd : afterValue <:+ line)
    (refused : item.close line afterValue lineEnd = .error fault) : fault.PointsInto line := by
  simp only [close, map_eq_error] at refused
  exact (Scan.lineEnd_points afterValue fault refused).trans atEnd

end Dotenv
