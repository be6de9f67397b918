import Mathlib.Data.List.Basic

/-!
# Luhn check digits

A number is written with its most significant digit first.  From the right, every second digit
counts double, less nine when that takes two digits; the last digit makes the sum a multiple of ten.

* `valid_append_checkDigit` : the check digit does so.
* `not_valid_of_mistyped` : **one wrong digit is caught**.
* `valid_swap_iff` : **two swapped neighbours are caught**, unless they are equal or 0 and 9.
-/

namespace Luhn

/-- What a doubled digit counts. -/
def double (d : ℕ) : ℕ := if 9 < d * 2 then d * 2 - 9 else d * 2

/-- What a digit counts. -/
def weight : Bool → ℕ → ℕ
  | true, d => double d
  | false, d => d

/-- The sum of digits read from the right, of which every second one counts double. -/
def total : Bool → List ℕ → ℕ
  | _, [] => 0
  | doubled, d :: ds => weight doubled d + total (!doubled) ds

/-- The digit that goes after a number. -/
def checkDigit (ds : List ℕ) : ℕ := (10 - total true ds.reverse % 10) % 10

/-- A number with its check digit. -/
def Valid (ds : List ℕ) : Prop := total false ds.reverse % 10 = 0

instance (ds : List ℕ) : Decidable (Valid ds) := inferInstanceAs (Decidable (_ = 0))

/-- Whether the digit after so many others counts double. -/
def turn (doubled : Bool) (n : ℕ) : Bool := if n % 2 = 0 then doubled else !doubled

theorem turn_succ (doubled : Bool) (n : ℕ) : turn doubled (n + 1) = turn (!doubled) n := by
  rcases Nat.mod_two_eq_zero_or_one n with h | h
  · rw [turn, turn, if_neg (by omega), if_pos h]
  · rw [turn, turn, if_pos (by omega), if_neg (by omega), Bool.not_not]

theorem total_append (doubled : Bool) (xs ys : List ℕ) :
    total doubled (xs ++ ys) = total doubled xs + total (turn doubled xs.length) ys := by
  induction xs generalizing doubled with
  | nil => exact (Nat.zero_add _).symm
  | cons x xs ih =>
    rw [List.cons_append, total, total, ih, List.length_cons, turn_succ, Nat.add_assoc]

/-- What a digit counts determines it, up to multiples of ten. -/
theorem weight_inj (doubled : Bool) {d e : ℕ} (hd : d < 10) (he : e < 10)
    (h : weight doubled d % 10 = weight doubled e % 10) : d = e := by
  cases doubled with
  | false =>
    simp only [weight] at h
    omega
  | true =>
    simp only [weight, double] at h
    split at h <;> split at h <;> omega

/-- Two digits count as much when swapped only if they are equal, or 0 and 9. -/
theorem weight_swap (doubled : Bool) {d e : ℕ} (hd : d < 10) (he : e < 10)
    (h : (weight doubled d + weight (!doubled) e) % 10 =
      (weight doubled e + weight (!doubled) d) % 10) :
    d = e ∨ d = 0 ∧ e = 9 ∨ d = 9 ∧ e = 0 := by
  cases doubled <;> simp only [weight, double, Bool.not_false, Bool.not_true] at h <;>
    split at h <;> split at h <;> omega

/-- **The check digit completes the sum.** -/
theorem valid_append_checkDigit (ds : List ℕ) : Valid (ds ++ [checkDigit ds]) := by
  rw [Valid, List.reverse_append, List.reverse_singleton, List.singleton_append, total]
  simp only [weight, Bool.not_false, checkDigit]
  omega

theorem checkDigit_lt (ds : List ℕ) : checkDigit ds < 10 := Nat.mod_lt _ (by decide)

/-- **One wrong digit is caught.** -/
theorem not_valid_of_mistyped {xs ys : List ℕ} {d e : ℕ} (hd : d < 10) (he : e < 10)
    (h : Valid (xs ++ d :: ys)) (hne : d ≠ e) : ¬ Valid (xs ++ e :: ys) := by
  intro h'
  simp only [Valid, List.reverse_append, List.reverse_cons, List.append_assoc,
    List.singleton_append, total_append, total] at h h'
  exact hne (weight_inj (turn false ys.reverse.length) hd he (by omega))

/-- **Two swapped neighbours are caught**, unless they are equal or 0 and 9. -/
theorem valid_swap_iff {xs ys : List ℕ} {d e : ℕ} (hd : d < 10) (he : e < 10)
    (h : Valid (xs ++ d :: e :: ys)) :
    Valid (xs ++ e :: d :: ys) ↔ d = e ∨ d = 0 ∧ e = 9 ∨ d = 9 ∧ e = 0 := by
  simp only [Valid, List.reverse_append, List.reverse_cons, List.append_assoc, List.cons_append,
    List.nil_append, total_append, total] at h ⊢
  generalize turn false ys.reverse.length = t at h ⊢
  -- Doubled or not, 0 and 9 count as they are.
  have hzero : ∀ b, weight b 0 = 0 := fun b => by cases b <;> rfl
  have hnine : ∀ b, weight b 9 = 9 := fun b => by cases b <;> rfl
  constructor
  · intro h'
    exact weight_swap t hd he (by omega)
  · rintro (rfl | ⟨rfl, rfl⟩ | ⟨rfl, rfl⟩)
    · exact h
    all_goals
      rw [hzero, hnine] at h ⊢
      omega

example : Valid [1, 7, 8, 9, 3, 7, 2, 9, 9, 7, 4] := by decide

end Luhn
