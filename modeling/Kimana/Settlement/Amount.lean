import Kimana.Settlement.Units

/-!
# Amounts of the vault

`receiveAmountMinor` in exact arithmetic.

* `receiveAmountMinor_eq` : when it overflows, and what it is otherwise.
* `receiveAmountMinor_of_cents` : amounts of whole cents never overflow.
* `receiveAmountMinor_splits` : **splitting a payment never yields more**.
-/

namespace Kimana.Units

variable {usdc cents decimals : ℕ} {rate : RateE8}

theorem checkedMul_bind (m n k : ℕ) (hk : 0 < k) :
    ((checkedMul m n).bind fun v => checkedMul v k) =
      if m * n * k < 2 ^ 256 then some (m * n * k) else none := by
  have hle : m * n ≤ m * n * k := Nat.le_mul_of_pos_right _ hk
  unfold checkedMul
  split
  case isTrue => rfl
  case isFalse h => rw [if_neg fun h' => h (Nat.lt_of_le_of_lt hle h')]; rfl

/-- The exact product is divided if it fits. -/
theorem receiveAmountMinor_eq (usdc : ℕ) (rate : RateE8) (hd : decimals ≤ maxCurrencyDecimals) :
    receiveAmountMinor usdc rate decimals =
      if usdc * rate.scaled * 10 ^ decimals < 2 ^ 256 then
        .ok (usdc * rate.scaled * 10 ^ decimals / receiveDivisor) else .error .overflow := by
  unfold receiveAmountMinor
  rw [if_neg (Nat.not_lt.2 hd), checkedMul_bind _ _ _ (Nat.pow_pos (by decide))]
  by_cases h : usdc * rate.scaled * 10 ^ decimals < 2 ^ 256
  · rw [if_pos h, if_pos h]
  · rw [if_neg h, if_neg h]

theorem receiveAmountMinor_eq_overflow_iff (hd : decimals ≤ maxCurrencyDecimals) :
    receiveAmountMinor usdc rate decimals = .error .overflow ↔
      2 ^ 256 ≤ usdc * rate.scaled * 10 ^ decimals := by
  rw [receiveAmountMinor_eq usdc rate hd, ← Nat.not_lt]
  split
  case isTrue h => exact ⟨nofun, fun h' => absurd h h'⟩
  case isFalse h => exact ⟨fun _ => h, fun _ => rfl⟩

theorem receiveAmountMinor_of_decimals (usdc : ℕ) (rate : RateE8)
    (hd : maxCurrencyDecimals < decimals) :
    receiveAmountMinor usdc rate decimals = .error (.unsupportedCurrencyDecimals decimals) :=
  if_pos hd

/-- What a number of cents pays. -/
def received (rate : RateE8) (decimals cents : ℕ) : ℕ :=
  cents * rate.scaled * 10 ^ decimals / 10 ^ 10

/-- Cents that 64 bits hold never overflow. -/
theorem receiveAmountMinor_of_cents (rate : RateE8) (hd : decimals ≤ maxCurrencyDecimals)
    (hc : cents < 2 ^ 64) :
    receiveAmountMinor (centsToUsdc cents) rate decimals = .ok (received rate decimals cents) := by
  have hscale : centsToUsdc cents * rate.scaled * 10 ^ decimals =
      cents * rate.scaled * 10 ^ decimals * 10000 := by
    unfold centsToUsdc usdcPerCent
    rw [Nat.mul_right_comm cents, Nat.mul_right_comm (cents * rate.scaled)]
  have hpow : 10 ^ decimals ≤ 10 ^ maxCurrencyDecimals := Nat.pow_le_pow_right (by decide) hd
  have hbound : cents * rate.scaled * 10 ^ decimals * 10000 ≤
      2 ^ 64 * maxRateE8 * 10 ^ maxCurrencyDecimals * 10000 :=
    Nat.mul_le_mul_right _ (Nat.mul_le_mul (Nat.mul_le_mul (Nat.le_of_lt hc) rate.le) hpow)
  rw [receiveAmountMinor_eq _ _ hd, hscale, if_pos (Nat.lt_of_le_of_lt hbound (by decide))]
  exact congrArg _ (Nat.mul_div_mul_right _ (10 ^ 10) (show 0 < 10000 by decide))

/-! ### Splitting -/

theorem received_add_le (rate : RateE8) (decimals a b : ℕ) :
    received rate decimals a + received rate decimals b ≤ received rate decimals (a + b) := by
  unfold received
  rw [Nat.add_mul, Nat.add_mul]
  generalize a * rate.scaled * 10 ^ decimals = x
  generalize b * rate.scaled * 10 ^ decimals = y
  omega

theorem received_le_add (rate : RateE8) (decimals a b : ℕ) :
    received rate decimals (a + b) ≤ received rate decimals a + received rate decimals b + 1 := by
  unfold received
  rw [Nat.add_mul, Nat.add_mul]
  generalize a * rate.scaled * 10 ^ decimals = x
  generalize b * rate.scaled * 10 ^ decimals = y
  omega

theorem received_mono_cents (rate : RateE8) (decimals : ℕ) {a b : ℕ} (h : a ≤ b) :
    received rate decimals a ≤ received rate decimals b :=
  Nat.div_le_div_right (Nat.mul_le_mul_right _ (Nat.mul_le_mul_right _ h))

theorem received_mono_rate {rate rate' : RateE8} (decimals cents : ℕ)
    (h : rate.scaled ≤ rate'.scaled) :
    received rate decimals cents ≤ received rate' decimals cents :=
  Nat.div_le_div_right (Nat.mul_le_mul_right _ (Nat.mul_le_mul_left _ h))

/-- **Splitting a payment never yields more**: on cents that 64 bits hold the amount is the exact
floor, the parts of a payment are paid at most what the whole is and at most one unit less, and more
cents or a higher rate never pay less.  Any other amount overflows exactly when the product does,
and more decimals than the vault supports are refused. -/
theorem receiveAmountMinor_splits (rate : RateE8) (hd : decimals ≤ maxCurrencyDecimals) :
    (∀ cents < 2 ^ 64, receiveAmountMinor (centsToUsdc cents) rate decimals =
      .ok (cents * rate.scaled * 10 ^ decimals / 10 ^ 10)) ∧
    (∀ a b, a + b < 2 ^ 64 → ∃ x y z, receiveAmountMinor (centsToUsdc a) rate decimals = .ok x ∧
      receiveAmountMinor (centsToUsdc b) rate decimals = .ok y ∧
      receiveAmountMinor (centsToUsdc (a + b)) rate decimals = .ok z ∧
      x + y ≤ z ∧ z ≤ x + y + 1) ∧
    (∀ a b, a ≤ b → b < 2 ^ 64 → ∀ rate' : RateE8, rate.scaled ≤ rate'.scaled → ∃ x y,
      receiveAmountMinor (centsToUsdc a) rate decimals = .ok x ∧
      receiveAmountMinor (centsToUsdc b) rate' decimals = .ok y ∧ x ≤ y) ∧
    (∀ usdc, receiveAmountMinor usdc rate decimals = .error .overflow ↔
      2 ^ 256 ≤ usdc * rate.scaled * 10 ^ decimals) ∧
    ∀ usdc more, maxCurrencyDecimals < more →
      receiveAmountMinor usdc rate more = .error (.unsupportedCurrencyDecimals more) := by
  refine ⟨fun cents hc => receiveAmountMinor_of_cents rate hd hc, fun a b hab => ?_,
    fun a b hle hb rate' hrate => ?_, fun usdc => receiveAmountMinor_eq_overflow_iff hd,
    fun usdc more hmore => receiveAmountMinor_of_decimals usdc rate hmore⟩
  · exact ⟨_, _, _, receiveAmountMinor_of_cents rate hd (by omega),
      receiveAmountMinor_of_cents rate hd (by omega), receiveAmountMinor_of_cents rate hd hab,
      received_add_le rate decimals a b, received_le_add rate decimals a b⟩
  · refine ⟨_, _, receiveAmountMinor_of_cents rate hd (Nat.lt_of_le_of_lt hle hb),
      receiveAmountMinor_of_cents rate' hd hb, ?_⟩
    exact Nat.le_trans (received_mono_cents rate decimals hle)
      (received_mono_rate decimals b hrate)

/-- Two cents at a rate of one half, apart and together. -/
theorem receiveAmountMinor_halves :
    ∃ x y z, receiveAmountMinor (centsToUsdc 1) ⟨50000000, by decide, by decide⟩ 2 = .ok x ∧
      receiveAmountMinor (centsToUsdc 1) ⟨50000000, by decide, by decide⟩ 2 = .ok y ∧
      receiveAmountMinor (centsToUsdc (1 + 1)) ⟨50000000, by decide, by decide⟩ 2 = .ok z ∧
      x + y ≤ z ∧ z ≤ x + y + 1 :=
  (receiveAmountMinor_splits ⟨50000000, by decide, by decide⟩
    (show 2 ≤ maxCurrencyDecimals by decide)).2.1 1 1
    (by decide)

end Kimana.Units
