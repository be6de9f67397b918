import Kimana.Settlement.Units
import Kimana.Util.Decimal

/-!
# Rates as texts

`RateE8.fromStr` and `RateE8.fmt` against the exact value of the text.

* `RateText` : the grammar of a rate.
* `RateE8.fromStr_of_rateText`, `RateE8.fromStr_of_not_rateText` : the answer on the grammar and
  outside of it.
* `RateE8.fromStr_exact` : **rates parse exactly** and survive being written.
-/

namespace Kimana.Units

open Decimal

variable {s : String} {text whole frac : List Char} {rate : RateE8}

/-- Digits, and after a dot one to eight digits more. -/
structure RateText (text whole frac : List Char) : Prop where
  writes : Writes text whole frac
  whole_ne : whole ≠ []
  frac_ne : '.' ∈ text → frac ≠ []
  length_le : frac.length ≤ 8

/-- The value in units of `10 ^ -8` is in bounds. -/
def InRange (whole frac : List Char) : Prop :=
  1 ≤ 10 ^ 8 * value whole frac ∧ 10 ^ 8 * value whole frac ≤ maxRateE8

theorem RateText.scaled (h : RateText text whole frac) :
    10 ^ 8 * value whole frac = (digits (whole ++ padded 8 frac) : ℚ) :=
  Decimal.scaled h.length_le whole

/-- The guard refuses exactly what is outside the grammar. -/
theorem guard_iff : (whole = [] || !whole.all Char.isDigit || !frac.all Char.isDigit ||
      (text.contains '.' && frac = []) || rateDecimals < frac.length) = false ↔
    whole ≠ [] ∧ IsDigits whole ∧ IsDigits frac ∧ ('.' ∈ text → frac ≠ []) ∧ frac.length ≤ 8 := by
  have hlen : decide (rateDecimals < frac.length) = false ↔ frac.length ≤ 8 := by
    rw [decide_eq_false_iff_not]
    exact Nat.not_lt
  simp only [Bool.or_eq_false_iff, decide_eq_false_iff_not, Bool.not_eq_false', List.all_eq_true,
    Bool.and_eq_false_imp, List.contains_iff_mem, hlen, IsDigits, ne_eq, and_assoc]

theorem new_eq (n : ℕ) : RateE8.new n =
    if h : 0 < n ∧ n ≤ maxRateE8 then .ok ⟨n, h.1, h.2⟩ else .error .rateOutOfRange := rfl

/-- A text of the grammar is the rate of its digits, if that is in bounds. -/
theorem RateE8.fromStr_of_rateText (h : RateText s.toList whole frac) :
    RateE8.fromStr s = RateE8.new (digits (whole ++ padded 8 frac)) := by
  obtain ⟨hw, hf, hwhole, hfrac⟩ := writes_iff.1 h.writes
  have hguard := guard_iff.2 ⟨h.whole_ne, hw, hf, h.frac_ne, h.length_le⟩
  have hne : whole ++ padded 8 frac ≠ [] := fun hnil => h.whole_ne (List.append_eq_nil_iff.1 hnil).1
  rw [RateE8.fromStr]
  simp only [← hwhole, ← hfrac, hguard, Bool.false_eq_true, if_false]
  rw [← padded_of_le h.length_le,
    parse_of_isDigits (isDigits_append.2 ⟨hw, isDigits_padded hf 8⟩) hne]
  by_cases hfit : digits (whole ++ padded 8 frac) < 2 ^ 128
  · rw [if_pos hfit]
  · -- What does not fit 128 bits is above the bound, too.
    rw [if_neg hfit, new_eq, dif_neg]
    rintro ⟨-, hle⟩
    exact hfit (Nat.lt_of_le_of_lt hle (by decide))

theorem RateE8.fromStr_of_not_rateText (h : ¬ ∃ whole frac, RateText s.toList whole frac) :
    RateE8.fromStr s = .error (.invalidRate s) := by
  rw [RateE8.fromStr]
  refine if_pos (Bool.not_eq_false _ ▸ fun hguard => h ?_)
  obtain ⟨hne, hw, hf, hdot, hlen⟩ := guard_iff.1 hguard
  exact ⟨_, _, writes_iff.2 ⟨hw, hf, rfl, rfl⟩, hne, hdot, hlen⟩

theorem inRange_iff (h : RateText text whole frac) : InRange whole frac ↔
    0 < digits (whole ++ padded 8 frac) ∧ digits (whole ++ padded 8 frac) ≤ maxRateE8 := by
  rw [InRange, h.scaled]
  norm_cast

theorem RateE8.fromStr_eq_ok_iff : RateE8.fromStr s = .ok rate ↔ ∃ whole frac,
    RateText s.toList whole frac ∧ InRange whole frac ∧
      (rate.scaled : ℚ) = 10 ^ 8 * value whole frac := by
  constructor
  · intro h
    by_cases hex : ∃ whole frac, RateText s.toList whole frac
    · obtain ⟨whole, frac, htext⟩ := hex
      rw [RateE8.fromStr_of_rateText htext, new_eq] at h
      split at h
      case isTrue hrange =>
        cases h
        exact ⟨whole, frac, htext, (inRange_iff htext).2 hrange, htext.scaled.symm⟩
      case isFalse => cases h
    · rw [RateE8.fromStr_of_not_rateText hex] at h
      cases h
  · rintro ⟨whole, frac, htext, hrange, hvalue⟩
    rw [htext.scaled] at hvalue
    have hscaled : rate.scaled = digits (whole ++ padded 8 frac) := by exact_mod_cast hvalue
    rw [RateE8.fromStr_of_rateText htext, new_eq, dif_pos ((inRange_iff htext).1 hrange)]
    obtain ⟨n, hpos, hle⟩ := rate
    cases hscaled
    rfl

theorem RateE8.fromStr_of_not_inRange (h : RateText s.toList whole frac)
    (hrange : ¬ InRange whole frac) : RateE8.fromStr s = .error .rateOutOfRange := by
  rw [RateE8.fromStr_of_rateText h, new_eq, dif_neg fun h' => hrange ((inRange_iff h).2 h')]

/-! ### Writing a rate -/

theorem isDigits_toDigits (n : ℕ) : IsDigits (Nat.toDigits 10 n) :=
  fun _ hc => Nat.isDigit_of_mem_toDigits (by decide) (by decide) hc

theorem digits_toDigits (n : ℕ) : digits (Nat.toDigits 10 n) = n := Nat.ofDigitChars_ten_toDigits

/-- Eight digits with leading zeros. -/
theorem zeros_spec {n : ℕ} (h : n < 10 ^ 8) : ∃ frac,
    frac = List.replicate (8 - (Nat.toDigits 10 n).length) '0' ++ Nat.toDigits 10 n ∧
      IsDigits frac ∧ frac.length = 8 ∧ digits frac = n := by
  have hlen := (Nat.length_toDigits_le_iff (by decide) (by decide)).2 h
  refine ⟨_, rfl, isDigits_append.2 ⟨isDigits_replicate _, isDigits_toDigits n⟩, ?_, ?_⟩
  · rw [List.length_append, List.length_replicate]
    omega
  · rw [digits_append, digits_replicate, digits_toDigits, Nat.zero_mul, Nat.zero_add]

/-- A rate that is written and read again is the same. -/
theorem RateE8.fromStr_fmt (rate : RateE8) : RateE8.fromStr rate.fmt = .ok rate := by
  obtain ⟨frac, hfrac, hdigits, hlen, hvalue⟩ :=
    zeros_spec (n := rate.scaled % 10 ^ 8) (Nat.mod_lt _ (by decide))
  have htext : RateText rate.fmt.toList (Nat.toDigits 10 (rate.scaled / 10 ^ 8)) frac :=
    { writes := by
        refine ⟨isDigits_toDigits _, hdigits, .inr ?_⟩
        rw [RateE8.fmt, String.toList_ofList, hfrac]
        rfl
      whole_ne := Nat.toDigits_ne_nil
      frac_ne := fun _ => List.ne_nil_of_length_pos (by rw [hlen]; decide)
      length_le := hlen.le }
  have hpad : padded 8 frac = frac := by rw [padded_of_ge hlen.ge, ← hlen, List.take_length]
  have hscaled : digits (Nat.toDigits 10 (rate.scaled / 10 ^ 8) ++ padded 8 frac) =
    rate.scaled := by
    rw [hpad, digits_append, digits_toDigits, hvalue, hlen]
    exact Nat.div_add_mod' ..
  rw [RateE8.fromStr_of_rateText htext, hscaled, new_eq, dif_pos ⟨rate.pos, rate.le⟩]

/-- **Rates parse exactly**: a text is a rate exactly when it is of the grammar and a hundred
million times its value is in bounds, and the rate is that number; a text outside the grammar is
invalid and one of the grammar outside the bounds is out of range, of any length; and a rate that is
written and read again is the same. -/
theorem RateE8.fromStr_exact :
    (∀ s rate, RateE8.fromStr s = .ok rate ↔ ∃ whole frac, RateText s.toList whole frac ∧
      (1 ≤ 10 ^ 8 * value whole frac ∧ 10 ^ 8 * value whole frac ≤ maxRateE8) ∧
      (rate.scaled : ℚ) = 10 ^ 8 * value whole frac) ∧
    (∀ s : String, (¬ ∃ whole frac, RateText s.toList whole frac) →
      RateE8.fromStr s = .error (.invalidRate s)) ∧
    (∀ (s : String) whole frac, RateText s.toList whole frac →
      ¬ (1 ≤ 10 ^ 8 * value whole frac ∧ 10 ^ 8 * value whole frac ≤ maxRateE8) →
      RateE8.fromStr s = .error .rateOutOfRange) ∧
    ∀ rate : RateE8, RateE8.fromStr rate.fmt = .ok rate :=
  ⟨fun _ _ => RateE8.fromStr_eq_ok_iff, fun _ h => RateE8.fromStr_of_not_rateText h,
    fun _ _ _ h hrange => RateE8.fromStr_of_not_inRange h hrange, RateE8.fromStr_fmt⟩

end Kimana.Units
