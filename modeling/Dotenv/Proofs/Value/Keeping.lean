import Dotenv.Proofs.Value.Conversion
/-!
# Conversions that keep the text

The text of a finite number is a numeral. So a bare value that is converted keeps its text where it
is of the type already, and else only where it is written as the type writes it.
-/

set_option autoImplicit false

namespace Dotenv

/-! ## Texts of numbers -/

inductive Text.IsDecimal : Text → Prop where
  | whole (digits : Text) (filled : digits ≠ []) (areDigits : ∀ c ∈ digits, c.isDigit = true) :
    IsDecimal digits
  | pointed (digits fraction : Text) (filled : digits ≠ [])
    (areDigits : ∀ c ∈ digits, c.isDigit = true) (more : fraction ≠ [])
    (moreDigits : ∀ c ∈ fraction, c.isDigit = true) : IsDecimal (digits ++ '.' :: fraction)

namespace Text.IsDecimal

variable {text : Text}

theorem isNumeric_neg (decimal : text.IsDecimal) : Scalar.isNumeric ('-' :: text) = true := by
  cases decimal with
  | whole _ filled areDigits =>
    have all : text.takeWhile Char.isDigit = text := List.takeWhile_eq_self_iff.mpr areDigits
    have none : text.dropWhile Char.isDigit = [] := List.dropWhile_eq_nil_iff.mpr areDigits
    simp only [Scalar.isNumeric, all, none]
    exact decide_eq_true filled
  | pointed digits fraction filled areDigits more moreDigits =>
    have front : (digits ++ '.' :: fraction).takeWhile Char.isDigit = digits := by
      rw [List.takeWhile_append_of_pos areDigits, List.takeWhile_cons_of_neg (by decide),
        List.append_nil]
    have back : (digits ++ '.' :: fraction).dropWhile Char.isDigit = '.' :: fraction := by
      rw [List.dropWhile_append_of_pos areDigits, List.dropWhile_cons_of_neg (by decide)]
    have all : fraction.all Char.isDigit = true := List.all_eq_true.mpr moreDigits
    simp only [Scalar.isNumeric, front, back, all, decide_eq_true filled, decide_eq_true more,
      Bool.and_true]

theorem head_isDigit (decimal : text.IsDecimal) : ∃ c rest, text = c :: rest ∧ c.isDigit = true := by
  cases decimal with
  | whole _ filled areDigits =>
    obtain ⟨c, rest, rfl⟩ := List.exists_cons_of_ne_nil filled
    exact ⟨c, rest, rfl, areDigits c List.mem_cons_self⟩
  | pointed digits fraction filled areDigits =>
    obtain ⟨c, rest, rfl⟩ := List.exists_cons_of_ne_nil filled
    exact ⟨c, _, rfl, areDigits c List.mem_cons_self⟩

theorem isNumeric_signed (decimal : text.IsDecimal) (negative : Bool) :
    Scalar.isNumeric (Double.signed negative text) = true := by
  cases negative with
  | true => exact decimal.isNumeric_neg
  | false =>
    obtain ⟨c, rest, isText, digit⟩ := decimal.head_isDigit
    have unsigned := decimal.isNumeric_neg
    have noSign : c ≠ '-' := by
      rintro rfl
      exact absurd digit (by decide)
    rw [isText] at unsigned ⊢
    rw [← unsigned, Double.signed, if_neg Bool.false_ne_true, Scalar.isNumeric, Scalar.isNumeric]
    intro more same
    exact noSign (List.cons.inj same).1

end Text.IsDecimal

theorem Text.isDigit_of_mem_replicate (n : Nat) : ∀ c ∈ List.replicate n '0', c.isDigit = true := by
  intro c member
  obtain rfl := List.eq_of_mem_replicate member
  decide

namespace Double

theorem isDecimal_ofNat (n : Nat) : (Text.ofNat n).IsDecimal :=
  .whole _ (Text.ofNat_ne_nil n) (Text.isDigit_ofNat n)

theorem isDecimal_positional (decimal : Decimal) : decimal.positional.IsDecimal := by
  have filled := Text.ofNat_ne_nil decimal.digits
  have areDigits := Text.isDigit_ofNat decimal.digits
  unfold Decimal.positional
  generalize Text.ofNat decimal.digits = digits at filled areDigits
  cases decimal.exponent with
  | ofNat zeros =>
    refine .whole _ (List.append_ne_nil_of_left_ne_nil filled _) ?_
    exact List.forall_mem_append.mpr ⟨areDigits, Text.isDigit_of_mem_replicate zeros⟩
  | negSucc places =>
    dsimp only
    split
    · next fits =>
      refine .pointed _ _ ?_ ?_ ?_ ?_
      · simp only [ne_eq, List.take_eq_nil_iff, filled, or_false]
        omega
      · exact fun c member => areDigits c (List.mem_of_mem_take member)
      · simp only [ne_eq, List.drop_eq_nil_iff]
        omega
      · exact fun c member => areDigits c (List.mem_of_mem_drop member)
    · refine .pointed ['0'] _ (List.cons_ne_nil _ _) (List.forall_mem_singleton.mpr rfl)
        (List.append_ne_nil_of_right_ne_nil _ filled) ?_
      exact List.forall_mem_append.mpr ⟨Text.isDigit_of_mem_replicate _, areDigits⟩

theorem isNumeric_plain (x : Double) (finite : x.isFinite = true) :
    Scalar.isNumeric x.plain = true := by
  cases x with
  | nan | infinite => cases finite
  | finite negative mantissa exponent =>
    rw [plain]
    split
    · have zero := Text.IsDecimal.whole ['0'] (by decide) (List.forall_mem_singleton.mpr rfl)
      exact zero.isNumeric_signed negative
    · exact (isDecimal_positional _).isNumeric_signed negative

theorem isNumeric_ofInt (n : Int) : Scalar.isNumeric (Text.ofInt n) = true := by
  cases n with
  | ofNat n => exact (isDecimal_ofNat n).isNumeric_signed false
  | negSucc n => exact (isDecimal_ofNat (n + 1)).isNumeric_neg

theorem isNumeric_compact (x : Double) (finite : x.isFinite = true) :
    Scalar.isNumeric x.compact = true := by
  unfold compact
  split
  · split
    · exact isNumeric_ofInt _
    · exact x.isNumeric_plain finite
  · exact x.isNumeric_plain finite

end Double

/-! ## Bare values -/

namespace Scalar

/-- Whether a scalar has the same text after the conversion to a type, if it can be converted. -/
def KeepsText : Option ValueType → Scalar → Prop
  | none, _ => True
  | some .number, scalar => ∃ x, scalar = .number x
  | some .boolean, scalar => ∃ b, scalar = .boolean b
  | some .list, scalar => ∀ part ∈ Text.splitOn ',' scalar.display, Text.trim part = part
  | some .json, .text written => ∃ json, Json.read? written = some json ∧ json.write = written
  | some .json, scalar => (Value.ofScalar scalar).toJson.write = scalar.display

theorem ofBare_of_compact (text : Text) (trimmed : Text.trim text = text) (x : Double)
    (finite : x.isFinite = true) (isRead : Double.read? text = some x) (written : x.compact = text) :
    ofBare text = .number x := by
  have numeric := x.isNumeric_compact finite
  rw [written] at numeric
  have isNoWord : ∀ word : Text, isNumeric word = false → text ≠ word := by
    rintro word letters rfl
    rw [letters] at numeric
    cases numeric
  simp only [ofBare, trimmed, isNoWord [] (by decide), isNoWord "undefined".toList (by decide),
    isNoWord "true".toList (by decide), isNoWord "false".toList (by decide), or_self, if_false,
    numeric, if_true, isRead, written]

variable {text : Text}

theorem ReadsAsItself.ne_compact (itself : ReadsAsItself text) (x : Double)
    (isNumber : Value.numberOf? text = some x) : x.compact ≠ text := by
  -- A text that is written like its number would have been a number from the start.
  intro written
  simp only [Value.numberOf?, itself.trimmed] at isNumber
  split at isNumber
  · next isRead =>
    split at isNumber
    · next finite =>
      cases isNumber
      have number := ofBare_of_compact text itself.trimmed x finite isRead written
      rw [itself.reads] at number
      cases number
    · cases isNumber
  · cases isNumber

theorem ReadsAsItself.ne_word (itself : ReadsAsItself text) (b : Bool) : word b ≠ text := by
  rintro rfl
  have reads := itself.reads
  cases b <;> cases reads

theorem IsBare.given {scalar : Scalar} (isBare : scalar.IsBare) :
    (Value.ofScalar scalar).isEmpty = false := by
  cases isBare with
  | boolean | number => rfl
  | text written itself =>
    refine decide_eq_false ?_
    rintro rfl
    cases itself.reads

theorem display_number_iff (scalar : Scalar) (isBare : scalar.IsBare) (typed : Value)
    (converted : (Value.ofScalar scalar).convert? .number = some typed) :
    typed.display = scalar.display ↔ scalar.KeepsText (some .number) := by
  cases isBare with
  | boolean b => cases converted
  | number x =>
    cases converted
    exact iff_of_true rfl ⟨x, rfl⟩
  | text written itself =>
    obtain ⟨x, isNumber, rfl⟩ := Option.map_eq_some_iff.mp converted
    refine iff_of_false (itself.ne_compact x isNumber) ?_
    rintro ⟨x, ⟨⟩⟩

theorem display_boolean_iff (scalar : Scalar) (isBare : scalar.IsBare) (typed : Value)
    (converted : (Value.ofScalar scalar).convert? .boolean = some typed) :
    typed.display = scalar.display ↔ scalar.KeepsText (some .boolean) := by
  cases isBare with
  | boolean b =>
    cases converted
    exact iff_of_true rfl ⟨b, rfl⟩
  | number x =>
    refine iff_of_false ?_ (by rintro ⟨b, ⟨⟩⟩)
    rw [Value.ofScalar, Value.convert?] at converted
    split at converted
    · next zero =>
      cases converted
      rw [display, x.compact_of_isZero zero]
      decide
    · split at converted
      · next one =>
        cases converted
        rw [display, x.compact_of_same_one one]
        decide
      · cases converted
  | text written itself =>
    obtain ⟨b, isWord, rfl⟩ := Option.map_eq_some_iff.mp converted
    refine iff_of_false (itself.ne_word b) ?_
    rintro ⟨b, ⟨⟩⟩

theorem display_list_iff (scalar : Scalar) (isBare : scalar.IsBare) (typed : Value)
    (converted : (Value.ofScalar scalar).convert? .list = some typed) :
    typed.display = scalar.display ↔ scalar.KeepsText (some .list) := by
  have isParts : typed = .list (Value.parts scalar.display) := by
    cases isBare <;> exact (Option.some.inj converted).symm
  subst isParts
  constructor
  · intro same part member
    have again := Value.splitOn_display_parts scalar.display
    rw [same] at again
    have unchanged := again.symm.trans (List.map_id _).symm
    exact List.map_inj_left.mp unchanged part member
  · intro trimmed
    have unchanged := (List.map_congr_left trimmed).trans (List.map_id' _)
    rw [Value.display_parts, unchanged, Text.join_splitOn]

theorem display_json_iff (scalar : Scalar) (isBare : scalar.IsBare) (typed : Value)
    (converted : (Value.ofScalar scalar).convert? .json = some typed) :
    typed.display = scalar.display ↔ scalar.KeepsText (some .json) := by
  cases isBare with
  | boolean | number =>
    cases converted
    exact Iff.rfl
  | text written itself =>
    obtain ⟨json, isRead, rfl⟩ := Option.map_eq_some_iff.mp converted
    constructor
    · intro same
      exact ⟨json, isRead, same⟩
    · rintro ⟨other, isOther, same⟩
      obtain rfl := Option.some.inj (isOther.symm.trans isRead)
      exact same

/-- A bare value is converted to one with the same text where the type keeps its text, and nowhere
else. -/
theorem display_typed_iff (scalar : Scalar) (isBare : scalar.IsBare) (item : ItemSchema)
    (typed : Value) (converted : item.typed? (.ofScalar scalar) = some typed) :
    typed.display = scalar.display ↔ scalar.KeepsText item.type := by
  unfold ItemSchema.typed? at converted
  cases asked : item.type with
  | none =>
    rw [asked] at converted
    cases converted
    refine iff_of_true ?_ trivial
    cases isBare <;> rfl
  | some type =>
    rw [asked] at converted
    cases type with
    | number => exact display_number_iff scalar isBare typed converted
    | boolean => exact display_boolean_iff scalar isBare typed converted
    | list => exact display_list_iff scalar isBare typed converted
    | json => exact display_json_iff scalar isBare typed converted

end Scalar

theorem Literal.isEmpty_scalar_iff (literal : Literal) (bare : literal.quote = none) :
    (Value.ofScalar literal.scalar).isEmpty = true ↔ literal.scalar = .undefined := by
  rcases literal.scalar_cases bare with ⟨-, none⟩ | ⟨-, isBare, -⟩
  · rw [none]
    exact iff_of_true rfl rfl
  · exact iff_of_false (Bool.eq_false_iff.mp isBare.given) isBare.ne_undefined

theorem Literal.keepsText_list (literal : Literal) (bare : literal.quote = none)
    (absent : ',' ∉ literal.raw) : literal.scalar.KeepsText (some .list) := by
  intro part member
  rcases literal.scalar_cases bare with ⟨-, none⟩ | ⟨-, -, written⟩
  · rw [none] at member
    obtain rfl := List.mem_singleton.mp member
    rfl
  · have inContent : ',' ∉ literal.content :=
      fun member => absent (literal.content_sublist.subset member)
    rw [written, Text.splitOn_of_not_mem _ inContent] at member
    obtain rfl := List.mem_singleton.mp member
    exact literal.trim_content_of_bare bare

end Dotenv
