import Mathlib.Data.List.Basic
import Mathlib.Data.Nat.Notation

/-!
# Tables

Rows in insertion order: updates by a condition, and the row an `order by .. limit 1` finds.
-/

namespace Table

variable {α β : Type}

/-- Update the rows that match. -/
def updateWhere (p : α → Bool) (f : α → α) (rows : List α) : List α :=
  rows.map fun r => if p r then f r else r

/-- The better of the best row so far and the next: the next, unless its `f` is smaller. -/
def better (f : α → ℕ) : Option α → α → Option α
  | none, row => some row
  | some b, row => if f b ≤ f row then some row else some b

/-- `order by f desc limit 1`: a row whose `f` is greatest, the last inserted among equals. -/
def topBy (f : α → ℕ) (rows : List α) : Option α := rows.foldl (better f) none

/-! ### Updates -/

variable {p q : α → Bool} {f : α → α} {rows : List α}

/-- An update that does not change what is searched for. -/
theorem find?_updateWhere (hq : ∀ r, q (f r) = q r) :
    (updateWhere p f rows).find? q = (rows.find? q).map fun r => if p r then f r else r := by
  have hq' : ∀ r, q (if p r then f r else r) = q r := fun r => by split <;> simp [hq]
  simp only [updateWhere, List.find?_map, Function.comp_def, hq']

/-- The update passes by the row searched for. -/
theorem find?_updateWhere_of_disjoint (hq : ∀ r, q (f r) = q r)
    (hpq : ∀ r, q r = true → p r = false) : (updateWhere p f rows).find? q = rows.find? q := by
  rw [find?_updateWhere hq]
  cases h : rows.find? q with
  | none => rfl
  | some r => simp [hpq r (List.find?_some h)]

/-- The update hits the row searched for. -/
theorem find?_updateWhere_of_imp (hq : ∀ r, q (f r) = q r)
    (hpq : ∀ r, q r = true → p r = true) :
    (updateWhere p f rows).find? q = (rows.find? q).map f := by
  rw [find?_updateWhere hq]
  cases h : rows.find? q with
  | none => rfl
  | some r => simp [hpq r (List.find?_some h)]

theorem map_find?_updateWhere {g : α → β} (hq : ∀ r, q (f r) = q r) (hg : ∀ r, g (f r) = g r) :
    ((updateWhere p f rows).find? q).map g = (rows.find? q).map g := by
  rw [find?_updateWhere hq, Option.map_map]
  cases rows.find? q with
  | none => rfl
  | some r => simp only [Option.map_some, Function.comp_apply]; split <;> simp [hg]

theorem filter_updateWhere (hq : ∀ r, q (f r) = q r) :
    (updateWhere p f rows).filter q = updateWhere p f (rows.filter q) := by
  have hq' : ∀ r, q (if p r then f r else r) = q r := fun r => by split <;> simp [hq]
  simp only [updateWhere, List.filter_map, Function.comp_def, hq']

/-- No row matches. -/
theorem updateWhere_of_disjoint (hp : ∀ r ∈ rows, p r = false) : updateWhere p f rows = rows := by
  conv_rhs => rw [← List.map_id rows]
  exact List.map_congr_left fun r hr => by simp [hp r hr]

theorem any_updateWhere (hq : ∀ r, q (f r) = q r) :
    (updateWhere p f rows).any q = rows.any q := by
  have hq' : ∀ r, q (if p r then f r else r) = q r := fun r => by split <;> simp [hq]
  simp only [updateWhere, List.any_map, Function.comp_def, hq']

theorem map_updateWhere {g : α → β} (hg : ∀ r, g (f r) = g r) :
    (updateWhere p f rows).map g = rows.map g := by
  simp only [updateWhere, List.map_map]
  exact List.map_congr_left fun r _ => by
    simp only [Function.comp_apply]; split <;> simp [hg]

theorem mem_updateWhere {r : α} (h : r ∈ rows) :
    (if p r then f r else r) ∈ updateWhere p f rows :=
  List.mem_map_of_mem h

theorem of_mem_updateWhere {r : α} (h : r ∈ updateWhere p f rows) :
    ∃ r₀ ∈ rows, r = if p r₀ then f r₀ else r₀ := by
  obtain ⟨r₀, h₀, rfl⟩ := List.mem_map.1 h
  exact ⟨r₀, h₀, rfl⟩

/-! ### The last row -/

theorem foldl_better_mem {f : α → ℕ} {b : Option α} {x : α}
    (h : rows.foldl (better f) b = some x) : x ∈ rows ∨ b = some x := by
  induction rows generalizing b with
  | nil => exact .inr h
  | cons r rows ih =>
    rcases ih h with hx | hx
    · exact .inl (List.mem_cons_of_mem _ hx)
    · cases b with
      | none => cases hx; exact .inl List.mem_cons_self
      | some b =>
        simp only [better] at hx
        split at hx <;> cases hx
        · exact .inl List.mem_cons_self
        · exact .inr rfl

theorem topBy_mem {f : α → ℕ} {x : α} (h : topBy f rows = some x) : x ∈ rows :=
  (foldl_better_mem h).resolve_right (by simp)

theorem topBy_append_singleton {f : α → ℕ} {r : α} (h : ∀ x ∈ rows, f x ≤ f r) :
    topBy f (rows ++ [r]) = some r := by
  have hb : topBy f (rows ++ [r]) = better f (topBy f rows) r := List.foldl_append ..
  rw [hb]
  cases ht : topBy f rows with
  | none => rfl
  | some b => rw [better, if_pos (h b (topBy_mem ht))]

end Table
