import Kimana.Collections
import Kimana.Util.Decimal

/-!
# Deposit amounts

`dollarsToCents` against the exact value of the text.

* `dollarsToCents_eq_some_iff` : what it answers, in terms of the digits.
* `dollarsToCents_exact` : **a deposit is credited the exact floor in cents**.
-/

namespace Kimana.Collections

open Util Decimal

variable {s : String} {whole frac : List Char}

/-- What a text of digits around a dot is worth. -/
def dollarValue (s : String) : ℚ :=
  value ((trim s).toList.takeWhile (· ≠ '.')) (((trim s).toList.dropWhile (· ≠ '.')).drop 1)

/-- A text of digits in cents: the digits before the dot and two after it. -/
theorem dollarsToCents_of_writes (h : Writes (trim s).toList whole frac)
    (hne : whole ++ frac ≠ []) :
    dollarsToCents s = if digits (whole ++ padded 2 frac) < 2 ^ 63 then
      some (digits (whole ++ padded 2 frac) : ℤ) else none := by
  obtain ⟨hw, hf, hwhole, hfrac⟩ := writes_iff.1 h
  have hpad : padded 2 frac ≠ [] := List.ne_nil_of_length_pos (by rw [length_padded]; decide)
  have hsmall : digits (padded 2 frac) < 2 ^ 63 :=
    lt_trans (digits_lt (isDigits_padded hf 2)) (by rw [length_padded]; norm_num)
  have hsum : digits (whole ++ padded 2 frac) = digits whole * 100 + digits (padded 2 frac) := by
    rw [digits_append, length_padded, show 10 ^ 2 = 100 by norm_num]
  have hempty : (decide (whole = []) && decide (frac = [])) = false := by
    simpa [List.append_eq_nil_iff] using hne
  have hdigits : (!whole.all Char.isDigit || !frac.all Char.isDigit) = false := by
    rw [all_isDigit_iff.2 hw, all_isDigit_iff.2 hf]
    rfl
  have hzeros : parse (2 ^ 63) ((frac ++ ['0', '0']).take 2) = some (digits (padded 2 frac)) :=
    (parse_of_isDigits (isDigits_padded hf 2) hpad).trans (if_pos hsmall)
  rw [dollarsToCents]
  simp only [← hwhole, ← hfrac, hempty, hdigits, hzeros, hsum, Bool.false_eq_true, if_false]
  by_cases hnil : whole = []
  · rw [if_pos hnil, show digits whole = 0 from hnil ▸ rfl]
    rfl
  · rw [if_neg hnil, parse_of_isDigits hw hnil]
    by_cases hfit : digits whole < 2 ^ 63
    · rw [if_pos hfit]
      rfl
    · rw [if_neg hfit, if_neg (by omega)]
      rfl

/-- Any other text is refused. -/
theorem dollarsToCents_of_not_writes
    (h : ¬ ∃ whole frac, Writes (trim s).toList whole frac ∧ whole ++ frac ≠ []) :
    dollarsToCents s = none := by
  rw [dollarsToCents]
  simp only
  split
  case isTrue => rfl
  case isFalse hempty =>
    split
    case isTrue => rfl
    case isFalse hdigits =>
      simp only [Bool.and_eq_true, decide_eq_true_eq, Bool.or_eq_true, Bool.not_eq_true',
        not_or, Bool.not_eq_false] at hempty hdigits
      refine absurd ⟨_, _, writes_iff.2 ⟨all_isDigit_iff.1 hdigits.1, all_isDigit_iff.1 hdigits.2,
        rfl, rfl⟩, fun h => hempty ?_⟩ h
      exact List.append_eq_nil_iff.1 h

theorem dollarsToCents_eq_some_iff {cents : ℤ} : dollarsToCents s = some cents ↔
    ∃ whole frac, Writes (trim s).toList whole frac ∧ whole ++ frac ≠ [] ∧
      ⌊100 * value whole frac⌋ < 2 ^ 63 ∧ cents = ⌊100 * value whole frac⌋ := by
  have hfloor : ∀ {whole frac}, Writes (trim s).toList whole frac →
      ⌊100 * value whole frac⌋ = (digits (whole ++ padded 2 frac) : ℤ) := fun {whole frac} h => by
    have := floor_scaled 2 h.2.1 whole
    norm_num at this
    exact this
  constructor
  · intro h
    by_cases hex : ∃ whole frac, Writes (trim s).toList whole frac ∧ whole ++ frac ≠ []
    · obtain ⟨whole, frac, hwrites, hne⟩ := hex
      rw [dollarsToCents_of_writes hwrites hne] at h
      split at h
      case isTrue hfit =>
        refine ⟨whole, frac, hwrites, hne, ?_, ?_⟩ <;> rw [hfloor hwrites]
        · exact_mod_cast hfit
        · exact (Option.some.inj h).symm
      case isFalse => cases h
    · rw [dollarsToCents_of_not_writes hex] at h
      cases h
  · rintro ⟨whole, frac, hwrites, hne, hfit, rfl⟩
    rw [hfloor hwrites] at hfit ⊢
    rw [dollarsToCents_of_writes hwrites hne, if_pos (by exact_mod_cast hfit)]

theorem cents_eq_floor {cents : ℤ} (h : dollarsToCents s = some cents) :
    cents = ⌊100 * dollarValue s⌋ := by
  obtain ⟨whole, frac, hwrites, -, -, rfl⟩ := dollarsToCents_eq_some_iff.1 h
  obtain ⟨-, -, hw, hf⟩ := writes_iff.1 hwrites
  rw [dollarValue, ← hw, ← hf]

/-- The first two bytes of padded digits are the first two digits. -/
theorem bytes_take_two (hf : IsDigits frac) :
    (((frac ++ List.replicate (2 - frac.length) '0').take 2).map Char.utf8Size).sum = 2 := by
  have hd : IsDigits (frac ++ List.replicate (2 - frac.length) '0') :=
    isDigits_append.2 ⟨hf, isDigits_replicate _⟩
  have hone : ∀ c ∈ (frac ++ List.replicate (2 - frac.length) '0').take 2, c.utf8Size = 1 :=
    fun c hc => utf8Size_of_isDigit (hd c (List.mem_of_mem_take hc))
  rw [List.map_congr_left hone, List.map_const', List.sum_replicate, List.length_take,
    List.length_append, List.length_replicate]
  simp
  omega

/-- **A deposit is credited the exact floor in cents**: a text is accepted exactly when, trimmed, it
is digits with at most a dot between them, at least one digit in all, and the floor of a hundred
times its value fits 64 bits, and the answer is that floor; the slice of two bytes is taken of two
digits; and the cents of two parts never exceed the cents of their sum. -/
theorem dollarsToCents_exact :
    (∀ s cents, dollarsToCents s = some cents ↔ ∃ whole frac, Writes (trim s).toList whole frac ∧
      whole ++ frac ≠ [] ∧ ⌊100 * value whole frac⌋ < 2 ^ 63 ∧
      cents = ⌊100 * value whole frac⌋) ∧
    (∀ frac, IsDigits frac →
      (((frac ++ List.replicate (2 - frac.length) '0').take 2).map Char.utf8Size).sum = 2) ∧
    ∀ s₁ s₂ s₃ c₁ c₂ c₃, dollarsToCents s₁ = some c₁ → dollarsToCents s₂ = some c₂ →
      dollarsToCents s₃ = some c₃ → dollarValue s₃ = dollarValue s₁ + dollarValue s₂ →
      c₁ + c₂ ≤ c₃ := by
  refine ⟨fun s cents => dollarsToCents_eq_some_iff, fun frac hf => bytes_take_two hf, ?_⟩
  intro s₁ s₂ s₃ c₁ c₂ c₃ h₁ h₂ h₃ hsum
  rw [cents_eq_floor h₁, cents_eq_floor h₂, cents_eq_floor h₃, hsum, mul_add]
  exact Int.le_floor_add ..

end Kimana.Collections
