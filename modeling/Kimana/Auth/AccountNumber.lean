import Kimana.Auth
import Mathlib.Data.Nat.Digits.Defs

/-!
# Account numbers

Every number that is handed out has ten digits, of which the first is not zero, and the last is the
Luhn check digit of the others.

* `wellNumbered_candidate` : so has every candidate.
* `WellNumbered.ne_of_mistyped`, `WellNumbered.ne_of_swapped` : **no slip of one digit, and no swap
  of neighbours other than 0 and 9, makes one account number out of another**.
-/

namespace Kimana.Auth

/-- The digits of a text. -/
def digitsOf (text : List Char) : List ℕ := text.map digitOf

/-- A number that passes the check of the column and the Luhn check. -/
structure WellNumbered (number : String) : Prop where
  format : accountNumberFormat number = true
  valid : Luhn.Valid (digitsOf number.toList)

/-! ### Digits -/

theorem isDigit_iff {c : Char} : c.isDigit = true ↔ '0'.toNat ≤ c.toNat ∧ c.toNat ≤ '9'.toNat := by
  simp only [Char.isDigit, Bool.and_eq_true, decide_eq_true_eq]
  exact Iff.rfl

theorem digitOf_lt {c : Char} (h : c.isDigit = true) : digitOf c < 10 := by
  have h' := isDigit_iff.1 h
  have hzero : '0'.toNat = 48 := rfl
  have hnine : '9'.toNat = 57 := rfl
  rw [digitOf]
  omega

theorem digitOf_inj {c c' : Char} (h : c.isDigit = true) (h' : c'.isDigit = true)
    (he : digitOf c = digitOf c') : c = c' := by
  have h₁ := isDigit_iff.1 h
  have h₂ := isDigit_iff.1 h'
  rw [digitOf, digitOf] at he
  exact Char.toNat_inj.1 (by omega)

theorem isDigit_of_format {number : String} (h : accountNumberFormat number = true) :
    ∀ c ∈ number.toList, c.isDigit = true := by
  rw [accountNumberFormat] at h
  split at h
  case h_1 hnil =>
    rw [hnil]
    simp
  case h_2 c cs hcons =>
    simp only [Bool.and_eq_true, decide_eq_true_eq, List.all_eq_true] at h
    rw [hcons]
    exact List.forall_mem_cons.2 ⟨h.1.1.1, h.2⟩

/-! ### Slips -/

/-- **One wrong digit** makes no account number. -/
theorem WellNumbered.ne_of_mistyped {n n' : String} (h : WellNumbered n) (h' : WellNumbered n')
    {xs ys : List Char} {c c' : Char} (hn : n.toList = xs ++ c :: ys) (hne : c ≠ c') :
    n'.toList ≠ xs ++ c' :: ys := by
  intro hn'
  have hc := isDigit_of_format h.format c (by simp [hn])
  have hc' := isDigit_of_format h'.format c' (by simp [hn'])
  have hv := h.valid
  have hv' := h'.valid
  rw [hn, digitsOf, List.map_append, List.map_cons] at hv
  rw [hn', digitsOf, List.map_append, List.map_cons] at hv'
  exact Luhn.not_valid_of_mistyped (digitOf_lt hc) (digitOf_lt hc') hv
    (fun he => hne (digitOf_inj hc hc' he)) hv'

/-- **Two swapped neighbours** make no account number, unless they are 0 and 9. -/
theorem WellNumbered.ne_of_swapped {n n' : String} (h : WellNumbered n) (h' : WellNumbered n')
    {xs ys : List Char} {c c' : Char} (hn : n.toList = xs ++ c :: c' :: ys) (hne : c ≠ c')
    (h09 : ¬(c = '0' ∧ c' = '9')) (h90 : ¬(c = '9' ∧ c' = '0')) :
    n'.toList ≠ xs ++ c' :: c :: ys := by
  intro hn'
  have hc := isDigit_of_format h.format c (by simp [hn])
  have hc' := isDigit_of_format h.format c' (by simp [hn])
  have hv := h.valid
  have hv' := h'.valid
  rw [hn, digitsOf, List.map_append, List.map_cons, List.map_cons] at hv
  rw [hn', digitsOf, List.map_append, List.map_cons, List.map_cons] at hv'
  rcases (Luhn.valid_swap_iff (digitOf_lt hc) (digitOf_lt hc') hv).1 hv' with he | ⟨h₀, h₉⟩ |
    ⟨h₉, h₀⟩
  · exact hne (digitOf_inj hc hc' he)
  · exact h09 ⟨digitOf_inj hc rfl h₀, digitOf_inj hc' rfl h₉⟩
  · exact h90 ⟨digitOf_inj hc rfl h₉, digitOf_inj hc' rfl h₀⟩

/-! ### The numbers that are handed out -/

theorem length_lpad {n : ℕ} {text : List Char} (h : text.length ≤ n) (fill : Char) :
    (lpad n fill text).length = n := by
  rw [lpad, List.length_take, List.length_append, List.length_replicate]
  omega

theorem length_body (draw : Draw) : draw.body.length = 9 := by
  have hfirst : 1 + draw.first.val < 10 := by omega
  have hrest : (Nat.toDigits 10 draw.rest.val).length ≤ 8 :=
    (Nat.length_toDigits_le_iff (by decide) (by decide)).2 draw.rest.isLt
  rw [Draw.body, List.length_append, length_lpad hrest, Nat.toDigits_of_lt_base hfirst]
  rfl

theorem isDigit_body (draw : Draw) : ∀ c ∈ draw.body, c.isDigit = true := by
  intro c hc
  rcases List.mem_append.1 hc with hc | hc
  · exact Nat.isDigit_of_mem_toDigits (by decide) (by decide) hc
  · rcases List.mem_append.1 (List.mem_of_mem_take hc) with hc | hc
    · rw [List.eq_of_mem_replicate hc]
      rfl
    · exact Nat.isDigit_of_mem_toDigits (by decide) (by decide) hc

/-- The loop over the digits computes the sum from the right. -/
theorem foldl_addDigit {body : List Char} (h : body.length = 9) :
    (List.range 9).foldl (addDigit body) 0 = Luhn.total true (digitsOf body).reverse := by
  match body, h with
  | [a, b, c, d, e, f, g, i, j], _ =>
    simp only [List.range_succ_eq_map, List.range_zero, List.map_cons, List.map_nil,
      List.foldl_cons,
      List.foldl_nil, addDigit, digitsOf, List.reverse_cons, List.reverse_nil, List.nil_append,
      List.cons_append, Luhn.total, Luhn.weight, Luhn.double, Bool.not_true, Bool.not_false]
    simp [Nat.add_assoc]

theorem candidate_toList (draw : Draw) : draw.candidate.toList =
    draw.body ++ [Nat.digitChar (Luhn.checkDigit (digitsOf draw.body))] := by
  rw [Draw.candidate, String.toList_ofList, foldl_addDigit (length_body draw), ← Luhn.checkDigit,
    Nat.toDigits_of_lt_base (Luhn.checkDigit_lt _)]

theorem digitOf_digitChar {n : ℕ} (h : n < 10) : digitOf (Nat.digitChar n) = n := by
  revert n
  decide

/-- Every candidate is an account number. -/
theorem wellNumbered_candidate (draw : Draw) : WellNumbered draw.candidate where
  valid := by
    rw [candidate_toList, digitsOf, List.map_append, List.map_singleton,
      digitOf_digitChar (Luhn.checkDigit_lt _)]
    exact Luhn.valid_append_checkDigit _
  format := by
    have hfirst : 1 + draw.first.val < 10 := by omega
    have hbody : draw.body = Nat.digitChar (1 + draw.first.val) ::
        lpad 8 '0' (Nat.toDigits 10 draw.rest.val) := by
      rw [Draw.body, Nat.toDigits_of_lt_base hfirst]
      rfl
    have hdigits := isDigit_body draw
    have hlength := length_body draw
    have hlast : ∀ n < 10, (Nat.digitChar n).isDigit = true := by decide
    have hnonzero : ∀ n < 10, n ≠ 0 → Nat.digitChar n ≠ '0' := by decide
    rw [accountNumberFormat, candidate_toList]
    rw [hbody] at hdigits hlength ⊢
    rw [List.forall_mem_cons] at hdigits
    simp only [List.cons_append, List.length_append, List.length_cons, List.length_nil,
      List.all_append, List.all_cons, List.all_nil, Bool.and_true, Bool.and_eq_true,
      decide_eq_true_eq, List.all_eq_true]
    rw [List.length_cons] at hlength
    exact ⟨⟨⟨hdigits.1, hnonzero _ hfirst (by omega)⟩, by omega⟩, hdigits.2,
      hlast _ (Luhn.checkDigit_lt _)⟩

example : (Draw.mk 0 23456789).candidate = "1234567897" := by decide

end Kimana.Auth
