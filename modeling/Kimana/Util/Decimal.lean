import Mathlib.Algebra.Order.Floor.Ring
import Mathlib.Data.List.TakeWhile
import Mathlib.Data.Rat.Floor
import Mathlib.Tactic.FieldSimp
import Mathlib.Tactic.Linarith
import Mathlib.Tactic.Ring

/-!
# Decimal texts

Texts of ASCII digits with a dot, as lists of characters, and their exact values.

* `Writes` : a text consists of whole digits and fractional digits.
* `value` : the number it writes.
* `writes_iff` : a text writes at most what `List.takeWhile` cuts it into.
* `floor_scaled` : the digits before and `n` digits after the dot are the floor of `10 ^ n` times
  the value; `scaled` : exactly, if there are no more.
-/

namespace Decimal

/-- Every character is a digit. -/
def IsDigits (l : List Char) : Prop := ∀ c ∈ l, c.isDigit = true

/-- The text is `whole`, or `whole` and `frac` around a dot. -/
def Writes (text whole frac : List Char) : Prop :=
  IsDigits whole ∧ IsDigits frac ∧ (text = whole ∧ frac = [] ∨ text = whole ++ '.' :: frac)

/-- The number that digits write. -/
def digits (l : List Char) : ℕ := Nat.ofDigitChars 10 l 0

/-- The number that whole and fractional digits write. -/
def value (whole frac : List Char) : ℚ := digits whole + digits frac / 10 ^ frac.length

/-- The number that digits write, if it is below a bound: what `str::parse` makes of a text without
a sign. -/
def parse (bound : ℕ) (l : List Char) : Option ℕ :=
  if l = [] || !l.all Char.isDigit then none
  else if digits l < bound then some (digits l) else none

/-- The first `n` digits after the dot, filled with zeros. -/
def padded (n : ℕ) (frac : List Char) : List Char := (frac ++ List.replicate n '0').take n

variable {l m text whole frac : List Char} {n : ℕ}

theorem isDigits_append : IsDigits (l ++ m) ↔ IsDigits l ∧ IsDigits m := List.forall_mem_append

theorem isDigits_replicate (n : ℕ) : IsDigits (List.replicate n '0') := by
  intro c hc
  rw [List.eq_of_mem_replicate hc]
  rfl

theorem IsDigits.take (h : IsDigits l) (n : ℕ) : IsDigits (l.take n) :=
  fun c hc => h c (List.mem_of_mem_take hc)

theorem IsDigits.ne_dot (h : IsDigits l) : ∀ c ∈ l, c ≠ '.' := by
  rintro c hc rfl
  exact absurd (h '.' hc) (by decide)

/-- A digit is one byte. -/
theorem utf8Size_of_isDigit {c : Char} (h : c.isDigit = true) : c.utf8Size = 1 := by
  simp only [Char.isDigit, Bool.and_eq_true, decide_eq_true_eq] at h
  have hle : c.val ≤ 127 := UInt32.le_trans h.2 (by decide)
  simp [Char.utf8Size, hle]

theorem all_isDigit_iff : l.all Char.isDigit = true ↔ IsDigits l := List.all_eq_true

theorem parse_of_isDigits {bound : ℕ} (h : IsDigits l) (hne : l ≠ []) :
    parse bound l = if digits l < bound then some (digits l) else none := by
  simp only [parse, all_isDigit_iff.2 h, hne, decide_false, Bool.not_true, Bool.or_false,
    Bool.false_eq_true, if_false]

theorem of_parse {bound : ℕ} (h : parse bound l = some n) : IsDigits l ∧ n < bound := by
  unfold parse at h
  split at h
  case isTrue => cases h
  case isFalse hd =>
    simp only [Bool.or_eq_true, Bool.not_eq_true', not_or, Bool.not_eq_false] at hd
    split at h
    case isTrue hlt => exact ⟨all_isDigit_iff.1 hd.2, Option.some.inj h ▸ hlt⟩
    case isFalse => cases h

/-! ### Cutting at the dot -/

theorem takeWhile_of_ne (h : ∀ c ∈ whole, c ≠ '.') (rest : List Char) :
    (whole ++ '.' :: rest).takeWhile (· ≠ '.') = whole := by
  rw [List.takeWhile_append_of_pos (by simpa using h)]
  simp

theorem dropWhile_of_ne (h : ∀ c ∈ whole, c ≠ '.') (rest : List Char) :
    (whole ++ '.' :: rest).dropWhile (· ≠ '.') = '.' :: rest := by
  rw [List.dropWhile_append_of_pos (by simpa using h)]
  simp

/-- A text writes at most its cut at the first dot. -/
theorem writes_iff : Writes text whole frac ↔ IsDigits whole ∧ IsDigits frac ∧
    whole = text.takeWhile (· ≠ '.') ∧ frac = (text.dropWhile (· ≠ '.')).drop 1 := by
  constructor
  · rintro ⟨hw, hf, ⟨rfl, rfl⟩ | rfl⟩
    · have hall : ∀ c ∈ text, decide (c ≠ '.') = true := by simpa using hw.ne_dot
      rw [List.takeWhile_eq_self_iff.2 hall, List.dropWhile_eq_nil_iff.2 hall]
      exact ⟨hw, hf, rfl, rfl⟩
    · rw [takeWhile_of_ne hw.ne_dot, dropWhile_of_ne hw.ne_dot]
      exact ⟨hw, hf, rfl, rfl⟩
  · rintro ⟨hw, hf, rfl, rfl⟩
    refine ⟨hw, hf, ?_⟩
    have hcut := List.takeWhile_append_dropWhile (p := (· ≠ '.')) (l := text)
    cases hd : text.dropWhile (· ≠ '.') with
    | nil =>
      rw [hd, List.append_nil] at hcut
      exact .inl ⟨hcut.symm, rfl⟩
    | cons c rest =>
      have hc : c = '.' := by
        have := List.head_dropWhile_not (· ≠ '.') (l := text) (by rw [hd]; simp)
        simp only [hd, List.head_cons] at this
        simpa using this
      rw [hd, hc] at hcut
      exact .inr hcut.symm

/-! ### Values -/

theorem digits_append (l m : List Char) :
    digits (l ++ m) = digits l * 10 ^ m.length + digits m := by
  rw [digits, Nat.ofDigitChars_append, Nat.ofDigitChars_eq_ofDigitChars_zero, Nat.mul_comm]
  rfl

theorem digits_replicate (n : ℕ) : digits (List.replicate n '0') = 0 := by
  rw [digits, Nat.ofDigitChars_replicate_zero, Nat.mul_zero]

theorem digits_lt (h : IsDigits l) : digits l < 10 ^ l.length := by
  induction l with
  | nil => decide
  | cons c l ih =>
    obtain ⟨hc, hl⟩ := List.forall_mem_cons.1 h
    have hlt := ih hl
    have hd : c.toNat - '0'.toNat ≤ 9 := by
      simp only [Char.isDigit, Bool.and_eq_true, decide_eq_true_eq] at hc
      have hnine : c.toNat ≤ 57 := UInt32.le_iff_toNat_le.1 hc.2
      have hzero : '0'.toNat = 48 := rfl
      omega
    have happ := digits_append [c] l
    rw [List.singleton_append] at happ
    have hone : digits [c] = c.toNat - '0'.toNat := by
      rw [digits, Nat.ofDigitChars_cons, Nat.ofDigitChars_nil, Nat.mul_zero, Nat.zero_add]
    rw [happ, hone, List.length_cons, Nat.pow_succ]
    have := Nat.mul_le_mul_right (10 ^ l.length) hd
    omega

theorem length_padded (n : ℕ) (frac : List Char) : (padded n frac).length = n := by
  simp [padded]

theorem isDigits_padded (h : IsDigits frac) (n : ℕ) : IsDigits (padded n frac) :=
  (isDigits_append.2 ⟨h, isDigits_replicate n⟩).take n

theorem padded_of_le (h : frac.length ≤ n) :
    padded n frac = frac ++ List.replicate (n - frac.length) '0' := by
  rw [padded, List.take_append, List.take_of_length_le h, List.take_replicate,
    Nat.min_eq_left (Nat.sub_le ..)]

theorem padded_of_ge (h : n ≤ frac.length) : padded n frac = frac.take n :=
  List.take_append_of_le_length h

/-- With at most `n` digits after the dot nothing is dropped. -/
theorem scaled (hlen : frac.length ≤ n) (whole : List Char) :
    10 ^ n * value whole frac = (digits (whole ++ padded n frac) : ℚ) := by
  obtain ⟨k, rfl⟩ := Nat.exists_eq_add_of_le hlen
  rw [padded_of_le hlen, Nat.add_sub_cancel_left, ← List.append_assoc, digits_append, digits_append,
    digits_replicate, List.length_replicate, value]
  push_cast
  rw [pow_add]
  field_simp
  ring

/-- The digits that are kept are the floor. -/
theorem floor_scaled (n : ℕ) (hf : IsDigits frac) (whole : List Char) :
    ⌊10 ^ n * value whole frac⌋ = (digits (whole ++ padded n frac) : ℤ) := by
  rcases Nat.le_total frac.length n with hlen | hlen
  · rw [scaled hlen, Int.floor_natCast]
  · -- What is dropped is less than one unit.
    obtain ⟨k, hk⟩ := Nat.exists_eq_add_of_le hlen
    have hdrop : digits (frac.drop n) < 10 ^ k := by
      have := digits_lt (l := frac.drop n) fun c hc => hf c (List.mem_of_mem_drop hc)
      rwa [List.length_drop, hk, Nat.add_sub_cancel_left] at this
    have hfrac : digits frac = digits (frac.take n) * 10 ^ k + digits (frac.drop n) := by
      conv_lhs => rw [← List.take_append_drop n frac]
      rw [digits_append, List.length_drop, hk, Nat.add_sub_cancel_left]
    have hvalue : 10 ^ n * value whole frac =
        (digits whole * 10 ^ n + digits (frac.take n) : ℕ) + digits (frac.drop n) /
          (10 : ℚ) ^ k := by
      rw [value, hfrac, hk, pow_add]
      push_cast
      field_simp
      ring
    have hlt : (digits (frac.drop n) : ℚ) / 10 ^ k < 1 := by
      rw [div_lt_one (by positivity)]
      exact_mod_cast hdrop
    rw [padded_of_ge hlen, digits_append, List.length_take, Nat.min_eq_left hlen, hvalue,
      Int.floor_natCast_add, Int.floor_eq_zero_iff.2 ⟨by positivity, hlt⟩, add_zero]

end Decimal
