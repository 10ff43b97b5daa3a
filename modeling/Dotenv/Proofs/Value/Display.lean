import Dotenv.Value
/-!
# Texts of values

A number is never written as the empty text. So among values without lists and JSON, those
whose text is empty are undefined or the empty text itself.
-/

set_option autoImplicit false

namespace Dotenv

theorem Text.ofNat_ne_nil (n : Nat) : ofNat n ≠ [] := Nat.toDigits_ne_nil

theorem Text.isDigit_ofNat (n : Nat) : ∀ c ∈ ofNat n, c.isDigit = true := fun _ =>
  Nat.isDigit_of_mem_toDigits (by decide) (by decide)

theorem Text.ofInt_ne_nil (n : Int) : ofInt n ≠ [] := by
  cases n with
  | ofNat n => exact ofNat_ne_nil n
  | negSucc n => exact List.cons_ne_nil _ _

namespace Double

theorem positional_ne_nil (decimal : Decimal) : decimal.positional ≠ [] := by
  unfold Decimal.positional
  cases decimal.exponent with
  | ofNat zeros => exact List.append_ne_nil_of_left_ne_nil (Text.ofNat_ne_nil _) _
  | negSucc places =>
    dsimp only
    split
    · exact List.append_ne_nil_of_right_ne_nil _ (List.cons_ne_nil _ _)
    · exact List.append_ne_nil_of_left_ne_nil
        (List.append_ne_nil_of_left_ne_nil (List.cons_ne_nil _ _) _) _

theorem signed_ne_nil (negative : Bool) (text : Text) (written : text ≠ []) :
    signed negative text ≠ [] := by
  unfold signed
  split
  · exact List.cons_ne_nil _ _
  · exact written

theorem plain_ne_nil (x : Double) : x.plain ≠ [] := by
  unfold plain
  split
  · exact List.cons_ne_nil _ _
  · exact signed_ne_nil _ _ (List.cons_ne_nil _ _)
  · split
    · exact signed_ne_nil _ _ (List.cons_ne_nil _ _)
    · exact signed_ne_nil _ _ (positional_ne_nil _)

theorem compact_ne_nil (x : Double) : x.compact ≠ [] := by
  unfold compact
  split
  · split
    · exact Text.ofInt_ne_nil _
    · exact plain_ne_nil x
  · exact plain_ne_nil x

end Double

namespace Value

def IsScalar (value : Value) : Prop := ∃ scalar, value = ofScalar scalar

theorem display_of_isEmpty (value : Value) (empty : value.isEmpty = true) : value.display = [] := by
  cases value with
  | undefined => rw [display]
  | text written =>
    rw [display]
    exact of_decide_eq_true empty
  | boolean | number | list | json => cases empty

theorem isEmpty_of_display (value : Value) (scalar : value.IsScalar) (empty : value.display = []) :
    value.isEmpty = true := by
  obtain ⟨scalar, rfl⟩ := scalar
  cases scalar with
  | undefined => rfl
  | boolean written =>
    rw [ofScalar, display] at empty
    cases written <;> cases empty
  | number written =>
    rw [ofScalar, display] at empty
    exact absurd empty written.compact_ne_nil
  | text written =>
    rw [ofScalar, display] at empty
    subst empty
    rfl

end Value

end Dotenv
