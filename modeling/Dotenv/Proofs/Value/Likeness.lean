import Dotenv.Schema.Basic
import Mathlib.Data.List.TakeWhile
/-!
# A text and the scalar that it reads as

A text from outside stays a text, where the same text in a document may read as a boolean or as a
number. The two have the same text and convert to the same number, boolean and list. JSON, bounds on
what has no type and the truth of `0` tell a number from its text.
-/

set_option autoImplicit false

namespace Dotenv

structure Text.IsPlain (text : Text) : Prop where
  written : text ≠ []
  trimmed : Text.trim text = text
  unmarked : '#' ∉ text
  defined : text ≠ "undefined".toList

/-! ## Numerals -/

namespace Scalar

theorem toLower_of_isDigit (c : Char) (digit : c.isDigit = true) : c.toLower = c := by
  simp only [Char.isDigit, Bool.and_eq_true, decide_eq_true_eq] at digit
  unfold Char.toLower
  rw [dif_neg]
  rintro ⟨isUpper, _⟩
  have below := digit.2
  simp only [ge_iff_le, UInt32.le_iff_toNat_le, UInt32.reduceToNat, Char.reduceVal] at isUpper below
  omega

theorem lower_of_digits (digits : Text)
    (after : digits.dropWhile Char.isDigit = [] ∨ ∃ fraction,
      digits.dropWhile Char.isDigit = '.' :: fraction ∧ fraction.all Char.isDigit = true) :
    ∀ c ∈ digits, c.toLower = c := by
  intro c member
  rw [← List.takeWhile_append_dropWhile (p := Char.isDigit) (l := digits)] at member
  rcases List.mem_append.mp member with member | member
  · exact toLower_of_isDigit c (List.mem_takeWhile_imp member)
  · rcases after with none | ⟨fraction, point, areDigits⟩
    · rw [none] at member
      cases member
    · rw [point] at member
      rcases List.mem_cons.mp member with rfl | member
      · decide
      · exact toLower_of_isDigit c (List.all_eq_true.mp areDigits c member)

theorem lower_of_isNumeric (text : Text) (numeric : isNumeric text = true) :
    Text.lower text = text := by
  have each : ∀ c ∈ text, c.toLower = c := by
    unfold isNumeric at numeric
    split at numeric <;> dsimp only at numeric
    · next rest =>
      intro c member
      rcases List.mem_cons.mp member with rfl | member
      · decide
      · refine lower_of_digits rest ?_ c member
        split at numeric
        · next none => exact .inl none
        · next fraction point =>
          simp only [Bool.and_eq_true] at numeric
          exact .inr ⟨fraction, point, numeric.2⟩
        · cases numeric
    · apply lower_of_digits text
      split at numeric
      · next none => exact .inl none
      · next fraction point =>
        simp only [Bool.and_eq_true] at numeric
        exact .inr ⟨fraction, point, numeric.2⟩
      · cases numeric
  exact (List.map_congr_left each).trans (List.map_id text)

end Scalar

namespace Double

theorem compact_of_isZero (x : Double) (zero : x.isZero = true) : x.compact = ['0'] := by
  cases x with
  | nan => cases zero
  | infinite negative => cases zero
  | finite negative mantissa exponent =>
    cases mantissa with
    | succ mantissa => cases zero
    | zero =>
      have whole : toInt? (.finite negative 0 exponent) = some 0 := by
        cases exponent <;> cases negative <;> simp [toInt?, ratio]
      simp only [compact, whole]
      rfl

theorem ofNat_one : ofNat 1 = .finite false (twoPow 52) (-52) := by decide +kernel

theorem twoPow_add (m n : Nat) : twoPow (m + n) = twoPow m * twoPow n := Nat.pow_add 2 m n

theorem ratio_of_same_one (negative : Bool) (mantissa : Nat) (exponent : Int)
    (one : (finite negative mantissa exponent).same (ofNat 1) = true) :
    negative = false ∧ (ratio mantissa exponent).1 = (ratio mantissa exponent).2 := by
  rw [ofNat_one] at one
  simp only [same, lt, Bool.and_eq_true, Bool.not_eq_true', decide_eq_false_iff_not,
    Int.not_lt] at one
  rw [Int.min_comm (-52) exponent] at one
  have equal := Int.le_antisymm one.2 one.1
  generalize unitIs : min exponent (-52) = unit at equal
  have positive : 0 < twoPow 52 * twoPow (-52 - unit).toNat :=
    Nat.mul_pos (twoPow_pos _) (twoPow_pos _)
  cases negative with
  | true =>
    simp only [inUnit, if_true, Bool.false_eq_true, if_false] at equal
    omega
  | false =>
    refine ⟨rfl, ?_⟩
    simp only [inUnit, Bool.false_eq_true, if_false, Int.ofNat_inj] at equal
    cases exponent with
    | ofNat e =>
      rw [Int.ofNat_eq_natCast] at equal unitIs
      have ownUnit : ((e : Int) - unit).toNat = e + 52 := by omega
      have oneUnit : (-52 - unit).toNat = 0 := by omega
      have split : twoPow 52 * twoPow 0 = 1 * twoPow 52 := by decide +kernel
      rw [ownUnit, oneUnit, twoPow_add, ← Nat.mul_assoc, split] at equal
      exact Nat.eq_of_mul_eq_mul_right (twoPow_pos 52) equal
    | negSucc e =>
      by_cases small : e < 52
      · have ownUnit : (Int.negSucc e - unit).toNat = 51 - e := by omega
        have oneUnit : (-52 - unit).toNat = 0 := by omega
        have split : twoPow 52 * twoPow 0 = twoPow (e + 1) * twoPow (51 - e) := by
          rw [← twoPow_add, ← twoPow_add]
          congr 1
          omega
        rw [ownUnit, oneUnit, split] at equal
        exact Nat.eq_of_mul_eq_mul_right (twoPow_pos (51 - e)) equal
      · have ownUnit : (Int.negSucc e - unit).toNat = 0 := by omega
        have oneUnit : (-52 - unit).toNat = e + 1 - 52 := by omega
        have whole : 52 + (e + 1 - 52) = e + 1 := by omega
        rw [ownUnit, oneUnit, ← twoPow_add, whole] at equal
        exact (Nat.mul_one mantissa).symm.trans equal

theorem compact_of_same_one (x : Double) (one : x.same (ofNat 1) = true) : x.compact = ['1'] := by
  cases x with
  | nan => cases one
  | infinite negative =>
    rw [ofNat_one] at one
    cases negative <;> cases one
  | finite negative mantissa exponent =>
    obtain ⟨rfl, equal⟩ := ratio_of_same_one negative mantissa exponent one
    have positive : 0 < (ratio mantissa exponent).2 := by
      cases exponent with
      | ofNat e => exact Nat.one_pos
      | negSucc e => exact twoPow_pos _
    have whole : toInt? (.finite false mantissa exponent) = some 1 := by
      simp only [toInt?]
      rw [equal, Nat.mod_self, Nat.div_self positive]
      rfl
    simp only [compact, whole]
    rfl

end Double

/-! ## The scalar of a plain text -/

theorem Scalar.ofBare_cases_of_trimmed (text : Text) (written : text ≠ [])
    (trimmed : Text.trim text = text) (defined : text ≠ "undefined".toList) :
    ofBare text = .text text ∨
    (text = "true".toList ∧ ofBare text = .boolean true) ∨
    (text = "false".toList ∧ ofBare text = .boolean false) ∨
    ∃ x, ofBare text = .number x ∧ isNumeric text = true ∧ Double.read? text = some x ∧
      x.compact = text := by
  simp only [ofBare, trimmed, written, defined, false_or, if_false]
  by_cases isTrue : text = "true".toList
  · exact .inr (.inl ⟨isTrue, by rw [if_pos isTrue]⟩)
  · rw [if_neg isTrue]
    by_cases isFalse : text = "false".toList
    · exact .inr (.inr (.inl ⟨isFalse, by rw [if_pos isFalse]⟩))
    · rw [if_neg isFalse]
      by_cases numeric : isNumeric text = true
      · rw [if_pos numeric]
        cases read : Double.read? text with
        | none => exact .inl rfl
        | some x =>
          by_cases written : x.compact = text
          · exact .inr (.inr (.inr ⟨x, by simp only [if_pos written], numeric, rfl, written⟩))
          · exact .inl (by simp only [if_neg written])
      · exact .inl (if_neg numeric)

theorem Scalar.ofBare_cases (text : Text) (plain : text.IsPlain) :
    ofBare text = .text text ∨
    (text = "true".toList ∧ ofBare text = .boolean true) ∨
    (text = "false".toList ∧ ofBare text = .boolean false) ∨
    ∃ x, ofBare text = .number x ∧ isNumeric text = true ∧ Double.read? text = some x ∧
      x.compact = text :=
  ofBare_cases_of_trimmed text plain.written plain.trimmed plain.defined

namespace Value

def ofBare (text : Text) : Value := .ofScalar (.ofBare text)

/-- Values that are the same, but for a text and the value that it reads as. -/
inductive Alike (text : Text) : Value → Value → Prop where
  | same (value : Value) : Alike text value value
  | typed : Alike text (.text text) (.ofBare text)

variable {text : Text}

theorem display_ofBare (plain : text.IsPlain) : (ofBare text).display = text := by
  rcases Scalar.ofBare_cases text plain with reads | ⟨word, reads⟩ | ⟨word, reads⟩ |
    ⟨x, reads, _, _, written⟩
  · rw [ofBare, reads]
    rfl
  · rw [ofBare, reads, word]
    rfl
  · rw [ofBare, reads, word]
    rfl
  · rw [ofBare, reads]
    exact written

theorem isUndefined_ofBare (plain : text.IsPlain) : (ofBare text).isUndefined = false := by
  rcases Scalar.ofBare_cases text plain with reads | ⟨_, reads⟩ | ⟨_, reads⟩ | ⟨x, reads, _⟩ <;>
    simp only [ofBare, reads, ofScalar, isUndefined]

theorem isEmpty_ofBare (plain : text.IsPlain) : (ofBare text).isEmpty = false := by
  rcases Scalar.ofBare_cases text plain with reads | ⟨_, reads⟩ | ⟨_, reads⟩ | ⟨x, reads, _⟩ <;>
    simp [ofBare, reads, ofScalar, isEmpty, plain.written]

namespace Alike

variable {value other : Value}

theorem display (alike : Alike text value other) (plain : text.IsPlain) :
    value.display = other.display := by
  cases alike with
  | same => rfl
  | typed => exact (display_ofBare plain).symm

theorem isUndefined (alike : Alike text value other) (plain : text.IsPlain) :
    value.isUndefined = other.isUndefined := by
  cases alike with
  | same => rfl
  | typed => exact (isUndefined_ofBare plain).symm

theorem isEmpty (alike : Alike text value other) (plain : text.IsPlain) :
    value.isEmpty = other.isEmpty := by
  cases alike with
  | same => rfl
  | typed =>
    rw [isEmpty_ofBare plain]
    simp [Value.isEmpty, plain.written]

theorem exported (alike : Alike text value other) (plain : text.IsPlain) :
    value.exported = other.exported := by
  simp only [Value.exported, alike.isUndefined plain, alike.display plain]

end Alike

theorem isTruthy_ofBare (plain : text.IsPlain) (notZero : text ≠ ['0']) :
    (Value.text text).isTruthy = (ofBare text).isTruthy := by
  rcases Scalar.ofBare_cases text plain with reads | ⟨word, reads⟩ | ⟨word, reads⟩ |
    ⟨x, reads, numeric, _, written⟩
  · rw [ofBare, reads, ofScalar]
  · subst word
    rfl
  · subst word
    rfl
  · have notFalse : text ≠ "false".toList := by
      rintro rfl
      exact absurd numeric (by decide)
    have nonzero : x.isZero = false := by
      cases zero : x.isZero with
      | false => rfl
      | true => exact absurd (written.symm.trans (x.compact_of_isZero zero)) notZero
    rw [ofBare, reads, ofScalar, isTruthy, isTruthy, decide_eq_true plain.written,
      decide_eq_true notFalse, nonzero]
    rfl

/-! ## Conversions -/

theorem convert?_number_ofBare (plain : text.IsPlain) :
    convert? .number (.text text) = convert? .number (ofBare text) := by
  rcases Scalar.ofBare_cases text plain with reads | ⟨word, reads⟩ | ⟨word, reads⟩ |
    ⟨x, reads, numeric, isRead, written⟩
  · rw [ofBare, reads, ofScalar]
  · subst word
    rfl
  · subst word
    rfl
  · rw [ofBare, reads, ofScalar]
    have finite : x.isFinite = true := by
      cases x with
      | finite negative mantissa exponent => rfl
      | nan =>
        subst written
        exact absurd numeric (by decide)
      | infinite negative =>
        subst written
        cases negative <;> exact absurd numeric (by decide)
    simp only [convert?, numberOf?, plain.trimmed, isRead, finite, if_true, Option.map_some]

theorem booleanOf?_of_isNumeric (numeric : Scalar.isNumeric text = true)
    (trimmed : Text.trim text = text) (notOne : text ≠ ['1']) (notZero : text ≠ ['0']) :
    booleanOf? text = none := by
  simp only [booleanOf?, trimmed, Scalar.lower_of_isNumeric text numeric]
  have noLetters : ∀ word : Text, Scalar.isNumeric word = false → word ≠ text := by
    rintro word letters rfl
    rw [letters] at numeric
    cases numeric
  have noYes : ["true", "1", "yes", "on"].any (·.toList = text) = false := by
    simp only [List.any_cons, List.any_nil, Bool.or_false, Bool.or_eq_false_iff,
      decide_eq_false_iff_not]
    exact ⟨noLetters _ (by decide), notOne.symm, noLetters _ (by decide),
      noLetters _ (by decide)⟩
  have noNo : ["false", "0", "no", "off"].any (·.toList = text) = false := by
    simp only [List.any_cons, List.any_nil, Bool.or_false, Bool.or_eq_false_iff,
      decide_eq_false_iff_not]
    exact ⟨noLetters _ (by decide), notZero.symm, noLetters _ (by decide),
      noLetters _ (by decide)⟩
  rw [noYes, noNo]
  rfl

theorem convert?_boolean_ofBare (plain : text.IsPlain) :
    convert? .boolean (.text text) = convert? .boolean (ofBare text) := by
  rcases Scalar.ofBare_cases text plain with reads | ⟨word, reads⟩ | ⟨word, reads⟩ |
    ⟨x, reads, numeric, isRead, written⟩
  · rw [ofBare, reads, ofScalar]
  · subst word
    rfl
  · subst word
    rfl
  · rw [ofBare, reads, ofScalar]
    by_cases isOne : text = ['1']
    · subst isOne
      have one : Double.read? ['1'] = some (.ofNat 1) := by decide +kernel
      obtain rfl := Option.some.inj (isRead.symm.trans one)
      have notZero : (Double.ofNat 1).isZero = false := by decide +kernel
      have same : (Double.ofNat 1).same (.ofNat 1) = true := by decide +kernel
      simp only [convert?, notZero, same, if_true]
      rfl
    · by_cases isZero : text = ['0']
      · subst isZero
        have zero : Double.read? ['0'] = some (.ofNat 0) := by decide +kernel
        obtain rfl := Option.some.inj (isRead.symm.trans zero)
        rfl
      · have notZero : x.isZero ≠ true := by
          intro zero
          exact isZero (written.symm.trans (x.compact_of_isZero zero))
        have notOne : x.same (.ofNat 1) ≠ true := by
          intro one
          exact isOne (written.symm.trans (x.compact_of_same_one one))
        have noWord := booleanOf?_of_isNumeric numeric plain.trimmed isOne isZero
        simp only [convert?, noWord, notZero, notOne, Option.map_none]
        rfl

theorem convert?_ofBare (plain : text.IsPlain) (type : ValueType) (notJson : type ≠ .json) :
    convert? type (.text text) = convert? type (ofBare text) := by
  cases type with
  | number => exact convert?_number_ofBare plain
  | boolean => exact convert?_boolean_ofBare plain
  | json => exact absurd rfl notJson
  | list =>
    rcases Scalar.ofBare_cases text plain with reads | ⟨word, reads⟩ | ⟨word, reads⟩ |
      ⟨x, reads, _, _, written⟩
    · rw [ofBare, reads, ofScalar]
    · subst word
      rfl
    · subst word
      rfl
    · rw [ofBare, reads, ofScalar]
      simp only [convert?, display, written]

end Value

/-! ## Checks -/

namespace ItemSchema

/-- What an item asks of its value does not tell a text from the value that the text reads as. -/
structure TakesAlike (text : Text) (item : ItemSchema) : Prop where
  json : item.type = some .json →
    Value.convert? .json (.text text) = Value.convert? .json (.ofBare text)
  range : item.type = none →
    item.isInRange (measure (.text text)) = item.isInRange (measure (.ofBare text))

variable {text : Text} {item : ItemSchema} {value other : Value}

theorem constraintErrors_alike (plain : text.IsPlain)
    (takes : value = .text text → item.TakesAlike text) (untyped : item.type = none)
    (alike : value.Alike text other) :
    item.constraintErrors value = item.constraintErrors other := by
  have range : item.isInRange (measure value) = item.isInRange (measure other) := by
    cases alike with
    | same => rfl
    | typed => exact (takes rfl).range untyped
  simp only [constraintErrors, alike.display plain, range]

theorem check_alike (plain : text.IsPlain) (takes : value = .text text → item.TakesAlike text)
    (alike : value.Alike text other) (isRequired : Bool) :
    (item.check value isRequired).2 = (item.check other isRequired).2 ∧
      (item.check value isRequired).1.exported = (item.check other isRequired).1.exported := by
  have exported := alike.exported plain
  simp only [check, alike.isEmpty plain]
  by_cases empty : other.isEmpty = true
  · rw [if_pos empty, if_pos empty]
    exact ⟨rfl, exported⟩
  · rw [if_neg empty, if_neg empty]
    unfold typed?
    cases type : item.type with
    | none =>
      exact ⟨constraintErrors_alike plain takes type alike, exported⟩
    | some type' =>
      have converted : value.convert? type' = other.convert? type' := by
        cases alike with
        | same => rfl
        | typed =>
          by_cases json : type' = .json
          · subst json
            exact (takes rfl).json type
          · exact Value.convert?_ofBare plain type' json
      dsimp only
      rw [converted]
      cases other.convert? type' with
      | none => exact ⟨rfl, exported⟩
      | some typed => exact ⟨rfl, rfl⟩

theorem takesAlike_of_unbounded (notJson : item.type ≠ some .json) (least : item.least = none)
    (most : item.most = none) : item.TakesAlike text := by
  refine ⟨fun json => absurd json notJson, fun _ => ?_⟩
  rw [isInRange, isInRange, least, most]
  rfl

theorem takesAlike_of_not_number (plain : text.IsPlain)
    (notNumber : ∀ x, Scalar.ofBare text ≠ .number x) (item : ItemSchema) :
    item.TakesAlike text := by
  rcases Scalar.ofBare_cases text plain with reads | ⟨word, reads⟩ | ⟨word, reads⟩ |
    ⟨x, reads, _⟩
  · have same : Value.ofBare text = .text text := congrArg Value.ofScalar reads
    exact ⟨fun _ => by rw [same], fun _ => by rw [same]⟩
  · subst word
    exact ⟨fun _ => rfl, fun _ => rfl⟩
  · subst word
    exact ⟨fun _ => rfl, fun _ => rfl⟩
  · exact absurd reads (notNumber x)

end ItemSchema

end Dotenv
