import Dotenv.Proofs.Value.Plain
/-!
# Conversions again

What a conversion leads to is of the type, and converting it again changes nothing. The text of a
boolean is a word for it, and the text of a list of parts is cut into the same parts.
-/

set_option autoImplicit false

namespace Dotenv

theorem Text.trim_trim (text : Text) : trim (trim text) = trim text :=
  trim_eq_self _ (head?_trim text) (getLast?_trim text)

theorem Text.not_mem_trim {c : Char} {text : Text} (absent : c ∉ text) : c ∉ trim text :=
  fun member => absent ((trim_sublist text).subset member)

namespace Value

inductive HasType : ValueType → Value → Prop where
  | number (value : Double) : HasType .number (.number value)
  | boolean (value : Bool) : HasType .boolean (.boolean value)
  | list (items : List Value) : HasType .list (.list items)
  | json (value : Json) : HasType .json (.json value)

theorem hasType_of_convert? (type : ValueType) (value typed : Value)
    (defined : value ≠ .undefined) (converted : value.convert? type = some typed) :
    typed.HasType type := by
  cases type with
  | number =>
    cases value with
    | undefined => exact absurd rfl defined
    | number x =>
      cases converted
      exact .number x
    | text written =>
      obtain ⟨x, -, rfl⟩ := Option.map_eq_some_iff.mp converted
      exact .number x
    | boolean | list | json => cases converted
  | boolean =>
    cases value with
    | undefined => exact absurd rfl defined
    | boolean b =>
      cases converted
      exact .boolean b
    | number x =>
      simp only [convert?] at converted
      split at converted
      · cases converted
        exact .boolean false
      · split at converted
        · cases converted
          exact .boolean true
        · cases converted
    | text written =>
      obtain ⟨b, -, rfl⟩ := Option.map_eq_some_iff.mp converted
      exact .boolean b
    | list | json => cases converted
  | list =>
    cases value with
    | undefined => exact absurd rfl defined
    | boolean | number | text | list | json =>
      cases converted
      exact .list _
  | json =>
    cases value with
    | undefined => exact absurd rfl defined
    | text written =>
      obtain ⟨j, -, rfl⟩ := Option.map_eq_some_iff.mp converted
      exact .json j
    | boolean | number | list | json =>
      cases converted
      exact .json _

theorem HasType.convert? {type : ValueType} {value : Value} (isSo : value.HasType type) :
    value.convert? type = some value := by
  cases isSo <;> rfl

theorem HasType.given {type : ValueType} {value : Value} (isSo : value.HasType type) :
    value.isEmpty = false := by
  cases isSo <;> rfl

theorem convert?_settled (type : ValueType) (value typed : Value)
    (converted : value.convert? type = some typed) : typed.convert? type = some typed := by
  by_cases defined : value = .undefined
  · subst defined
    cases type <;> cases converted <;> rfl
  · exact (hasType_of_convert? type value typed defined converted).convert?

/-! ## Texts of converted values -/

theorem booleanOf?_word (value : Bool) : booleanOf? (Scalar.word value) = some value := by
  cases value <;> decide

theorem displayEach_parts (value : Text) :
    displayEach (parts value) = (Text.splitOn ',' value).map Text.trim := by
  unfold parts
  induction Text.splitOn ',' value with
  | nil => rfl
  | cons part more ih => rw [List.map_cons, List.map_cons, displayEach, display, ih]

theorem display_parts (value : Text) :
    (list (parts value)).display = Text.join [','] ((Text.splitOn ',' value).map Text.trim) := by
  rw [display, displayEach_parts]

theorem splitOn_display_parts (value : Text) :
    Text.splitOn ',' (list (parts value)).display = (Text.splitOn ',' value).map Text.trim := by
  rw [display_parts]
  apply Text.splitOn_join
  · exact mt List.map_eq_nil_iff.mp (Text.splitOn_ne_nil value)
  · rw [List.forall_mem_map]
    intro part member
    exact Text.not_mem_trim (Text.not_mem_of_mem_splitOn value part member)

theorem parts_display_parts (value : Text) : parts (list (parts value)).display = parts value := by
  have again := splitOn_display_parts value
  conv_lhs => rw [parts, again, List.map_map]
  refine List.map_congr_left fun part _ => ?_
  simp only [Function.comp_apply, Text.trim_trim]

theorem eq_of_convert?_nil (type : ValueType) (isWritten : type = .boolean ∨ type = .list)
    (typed : Value) (converted : (text []).convert? type = some typed) :
    typed = list [text []] := by
  rcases isWritten with rfl | rfl
  · have isNoWord : booleanOf? [] = none := by decide
    rw [convert?, isNoWord] at converted
    cases converted
  · exact (Option.some.inj converted).symm

theorem convert?_exported (type : ValueType) (isWritten : type = .boolean ∨ type = .list)
    (value typed : Value) (defined : value ≠ .undefined) (notList : ∀ items, value ≠ .list items)
    (converted : value.convert? type = some typed) :
    ∃ written, typed.exported = some written ∧ (text written).convert? type = some typed := by
  have isSo := hasType_of_convert? type value typed defined converted
  rcases isWritten with rfl | rfl
  · obtain ⟨word⟩ := isSo
    refine ⟨_, rfl, ?_⟩
    rw [display, convert?, booleanOf?_word]
    rfl
  · have isParts : typed = list (parts value.display) := by
      cases value with
      | undefined => exact absurd rfl defined
      | list items => exact absurd rfl (notList items)
      | boolean | number | text | json => exact (Option.some.inj converted).symm
    subst isParts
    refine ⟨_, rfl, ?_⟩
    rw [convert?, display, parts_display_parts]
    all_goals simp

end Value

end Dotenv
