import Kimana.Contract
import Kimana.Util.Decimal

/-!
# Units of the vault

Integer helpers shared with the vault, which recomputes the same values and rejects a quote that
disagrees.  An `U256` is a natural number below `2 ^ 256`.
-/

namespace Kimana.Units

/-- USDC base units per cent. -/
def usdcPerCent : ℕ := 10000

/-- The highest rate of the vault, with eight decimals. -/
def maxRateE8 : ℕ := 100000000000000000000

/-- The most decimals of a currency. -/
def maxCurrencyDecimals : ℕ := 18

/-- `10 ^ (6 + 8)`, the divisor in `receiveAmountMinor`. -/
def receiveDivisor : ℕ := 100000000000000

inductive UnitsError
  | unsupportedCurrencyDecimals (decimals : ℕ)
  | rateOutOfRange
  | invalidRate (text : String)
  | overflow
  deriving DecidableEq

/-- Cents as USDC base units; 64-bit cents cannot overflow. -/
def centsToUsdc (cents : ℕ) : ℕ := cents * usdcPerCent

/-- A rate in units received per dollar with eight decimals, bounded as the vault bounds it. -/
structure RateE8 where
  scaled : ℕ
  pos : 0 < scaled
  le : scaled ≤ maxRateE8

/-- A rate, if it is in bounds. -/
def RateE8.new (scaled : ℕ) : Except UnitsError RateE8 :=
  if h : 0 < scaled ∧ scaled ≤ maxRateE8 then .ok ⟨scaled, h.1, h.2⟩ else .error .rateOutOfRange

/-- Decimal places of a rate. -/
def rateDecimals : ℕ := 8

/-- A plain decimal such as `1645.25`; more than eight digits after the dot are an error. -/
def RateE8.fromStr (s : String) : Except UnitsError RateE8 :=
  let text := s.toList
  let whole := text.takeWhile (· ≠ '.')
  let frac := (text.dropWhile (· ≠ '.')).drop 1
  if whole = [] || !whole.all Char.isDigit || !frac.all Char.isDigit ||
      (text.contains '.' && frac = []) || rateDecimals < frac.length then
    .error (.invalidRate s)
  else
    match Decimal.parse (2 ^ 128) (whole ++ (frac ++ List.replicate (8 - frac.length) '0')) with
    | some scaled => RateE8.new scaled
    | none => .error .rateOutOfRange

/-- The whole part, a dot and eight digits. -/
def RateE8.fmt (rate : RateE8) : String :=
  let scale := 10 ^ rateDecimals
  let frac := Nat.toDigits 10 (rate.scaled % scale)
  String.ofList (Nat.toDigits 10 (rate.scaled / scale) ++
    '.' :: (List.replicate (8 - frac.length) '0' ++ frac))

/-- A product, if it fits. -/
def checkedMul (m n : ℕ) : Option ℕ := if m * n < 2 ^ 256 then some (m * n) else none

/-- `floor(usdc * rate_e8 * 10^decimals / 10^14)`. -/
def receiveAmountMinor (usdc : ℕ) (rate : RateE8) (decimals : ℕ) : Except UnitsError ℕ :=
  if maxCurrencyDecimals < decimals then .error (.unsupportedCurrencyDecimals decimals)
  else
    match (checkedMul usdc rate.scaled).bind fun v => checkedMul v (10 ^ decimals) with
    | some v => .ok (v / receiveDivisor)
    | none => .error .overflow

/-- On an amount of whole cents that 64 bits hold nothing overflows. -/
theorem receiveAmountMinor_cents {cents : ℕ} (h : cents < 2 ^ 64) (rate : RateE8) :
    receiveAmountMinor (centsToUsdc cents) rate 2 = .ok (cents * rate.scaled / 10 ^ 8) := by
  have hle : rate.scaled ≤ 100000000000000000000 := rate.le
  have hmul : cents * 10000 * rate.scaled ≤ 2 ^ 64 * 10000 * 100000000000000000000 :=
    Nat.mul_le_mul (Nat.mul_le_mul_right _ (Nat.le_of_lt h)) hle
  have h₁ : cents * 10000 * rate.scaled < 2 ^ 256 := Nat.lt_of_le_of_lt hmul (by decide)
  have h₂ : cents * 10000 * rate.scaled * 10 ^ 2 < 2 ^ 256 :=
    Nat.lt_of_le_of_lt (Nat.mul_le_mul_right (10 ^ 2) hmul) (by decide)
  have hscale : cents * 10000 * rate.scaled * 10 ^ 2 = cents * rate.scaled * 1000000 := by
    rw [Nat.mul_right_comm cents, Nat.mul_assoc, show 10000 * 10 ^ 2 = 1000000 by decide]
  have hdiv : cents * 10000 * rate.scaled * 10 ^ 2 / 100000000000000 =
      cents * rate.scaled / 10 ^ 8 := by
    rw [hscale, show 100000000000000 = 10 ^ 8 * 1000000 by decide]
    exact Nat.mul_div_mul_right (cents * rate.scaled) (10 ^ 8) (by decide)
  unfold receiveAmountMinor centsToUsdc usdcPerCent
  rw [if_neg (by decide), checkedMul, if_pos h₁, Option.bind_some, checkedMul, if_pos h₂]
  exact congrArg _ hdiv

example : receiveAmountMinor (centsToUsdc 1) ⟨164525000000, by decide, by decide⟩ 2 = .ok 1645 :=
  rfl

end Kimana.Units
