import Kimana.Contract
import Mathlib.Data.List.Infix

/-!
# Text and rate helpers

String helpers of the standard library as far as the code relies on them, and the fixed-point
rate arithmetic.
-/

namespace Kimana.Util

/-- The code points with the Unicode property `White_Space`. -/
def isWhitespace (c : Char) : Bool :=
  let n := c.toNat
  (9 ≤ n && n ≤ 13) || n = 0x20 || n = 0x85 || n = 0xA0 || n = 0x1680 || (0x2000 ≤ n && n ≤ 0x200A)
    || n = 0x2028 || n = 0x2029 || n = 0x202F || n = 0x205F || n = 0x3000

/-- Drop leading and trailing white space. -/
def trim (s : String) : String :=
  .ofList ((s.toList.dropWhile isWhitespace).reverse.dropWhile isWhitespace).reverse

/-- The upper-case form of a character as far as it is one ASCII letter: besides the ASCII
letters, dotless i and long s.  Any other character stays what it is, which is no ASCII letter. -/
def toUpperChar (c : Char) : Char :=
  if c.toNat = 0x131 then 'I' else if c.toNat = 0x17F then 'S' else c.toUpper

/-- Upper case, exact for every comparison with a text of ASCII letters. -/
def toUppercase (s : String) : String := .ofList (s.toList.map toUpperChar)

/-- The length of a text in UTF-8 bytes. -/
def byteLen (s : String) : ℕ := (s.toList.map (·.utf8Size)).sum

/-- A reference such as `KM-2H4F9K`; `body` is the part drawn at random. -/
def taggedReference (tag body : String) : String := tag ++ "-" ++ body

/-- A text holds another: SQL's `like '%part%'`. -/
def contains (part s : String) : Bool := s.toList.tails.any (part.toList.isPrefixOf ·)

theorem contains_of_infix {part s : String} (h : part.toList <:+: s.toList) :
    contains part s = true := by
  obtain ⟨front, back, h⟩ := h
  refine List.any_eq_true.2 ⟨part.toList ++ back, (List.mem_tails _ _).2 ⟨front, ?_⟩, ?_⟩
  · rw [← h, List.append_assoc]
  · exact List.isPrefixOf_iff_prefix.2 (List.prefix_append ..)

/-! ### 64-bit numbers -/

/-- A number that 64 bits hold. -/
def FitsI64 (n : ℤ) : Prop := -2 ^ 63 ≤ n ∧ n < 2 ^ 63

instance (n : ℤ) : Decidable (FitsI64 n) := inferInstanceAs (Decidable (_ ∧ _))

/-- A number cast to 64 bits; so does the sum of two 64-bit numbers wrap in a release build. -/
def asI64 (n : ℤ) : ℤ := n.bmod (2 ^ 64)

/-- The negation of a 64-bit number, which wraps at the least one. -/
def negI64 (n : ℤ) : ℤ := if n = -2 ^ 63 then n else -n

theorem negI64_of_ne {n : ℤ} (h : n ≠ -2 ^ 63) : negI64 n = -n := if_neg h

theorem negI64_of_nonneg {n : ℤ} (h : 0 ≤ n) : negI64 n = -n := negI64_of_ne (by omega)

theorem asI64_eq_iff {n : ℤ} : asI64 n = n ↔ FitsI64 n := by
  unfold asI64 FitsI64
  rw [Int.bmod_def]
  split <;> omega

/-! ### Rates -/

/-- One whole unit of a rate. -/
def rateScale : ℤ := 10 ^ 8

/-- A product of 128-bit numbers, which wraps in a release build. -/
def asI128 (n : ℤ) : ℤ := n.bmod (2 ^ 128)

/-- `amount_minor * rate`, rounded toward zero. -/
def applyRate (amountMinor : ℤ) (rate : Rate) : ℤ :=
  asI64 ((asI128 (amountMinor * rate)).tdiv rateScale)

/-- `amount_minor / rate`, rounded toward zero.  A zero rate, on which the code panics before it
has written anything, gives zero. -/
def invertRate (amountMinor : ℤ) (rate : Rate) : ℤ :=
  asI64 ((asI128 (amountMinor * rateScale)).tdiv rate)

end Kimana.Util
