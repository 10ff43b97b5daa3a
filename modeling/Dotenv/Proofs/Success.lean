import Mathlib.Init
/-!
# Checks that succeed

What it takes for checks that come one after the other to succeed.
-/

set_option autoImplicit false

namespace Dotenv

variable {ε α β : Type}

theorem bind_eq_ok (check : Except ε α) (next : α → Except ε β) (result : β) :
    (check >>= next) = .ok result ↔ ∃ value, check = .ok value ∧ next value = .ok result := by
  cases check with
  | error error => simp [bind, Except.bind]
  | ok value => simp [bind, Except.bind]

theorem bind_eq_error (check : Except ε α) (next : α → Except ε β) (error : ε) :
    (check >>= next) = .error error ↔
      check = .error error ∨ ∃ value, check = .ok value ∧ next value = .error error := by
  cases check with
  | error first => simp [bind, Except.bind]
  | ok value => simp [bind, Except.bind]

theorem map_eq_ok (check : Except ε α) (change : α → β) (result : β) :
    check.map change = .ok result ↔ ∃ value, check = .ok value ∧ change value = result := by
  cases check with
  | error error => simp [Except.map]
  | ok value => simp [Except.map]

theorem map_eq_error (check : Except ε α) (change : α → β) (error : ε) :
    check.map change = .error error ↔ check = .error error := by
  cases check with
  | error first => simp [Except.map]
  | ok value => simp [Except.map]

theorem toOption_map_eq_some (check : Except ε α) (change : α → β) (result : β) :
    check.toOption.map change = some result ↔ ∃ value, check = .ok value ∧ change value = result := by
  cases check with
  | error error => simp [Except.toOption]
  | ok value => simp [Except.toOption]

@[simp]
theorem pure_eq_ok (value result : α) :
    (pure value : Except ε α) = .ok result ↔ value = result := by
  simp [pure, Except.pure]

@[simp]
theorem throw_ne_ok (error : ε) (result : α) : ¬ (throw error : Except ε α) = .ok result := by
  simp [throw, throwThe, MonadExceptOf.throw]

end Dotenv
