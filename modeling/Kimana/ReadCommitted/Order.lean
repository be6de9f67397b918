import Kimana.ReadCommitted.System

/-!
# The order of changes

Calls change the shared state one at a time.  A relation `T` that every step of a run keeps, and
that can be chained, leads from what one change left to where any later one began.

* `Ordered.of_reach` : **of two changes by different calls one comes first**.
* `calls_of_play` : a schedule moves only the calls that it mentions.
-/

namespace ReadCommitted

variable {ι D W K Λ E A : Type}

/-- The changes made since `d`, up to `T`: each lies between `d` and the shared state, and of two by
different calls one comes before the other. -/
structure Ordered (T : D → D → Prop) (d : D) (s : Sys ι D W K Λ E A) : Prop where
  start : T d s.shared
  before : ∀ i, ∀ x ∈ (s.calls i).made, T d x.1
  after : ∀ i, ∀ x ∈ (s.calls i).made, T x.2 s.shared
  apart : ∀ i j, i ≠ j → ∀ x ∈ (s.calls i).made, ∀ y ∈ (s.calls j).made, T x.2 y.1 ∨ T y.2 x.1

variable {T : D → D → Prop} {d : D} {s s' : Sys ι D W K Λ E A}

/-- A step in which nobody makes a change. -/
theorem Ordered.quiet (h : Ordered T d s) (htrans : ∀ {a b c}, T a b → T b c → T a c)
    (hT : T s.shared s'.shared) (hmade : ∀ i, (s'.calls i).made = (s.calls i).made) :
    Ordered T d s' where
  start := htrans h.start hT
  before i x hx := h.before i x (hmade i ▸ hx)
  after i x hx := htrans (h.after i x (hmade i ▸ hx)) hT
  apart i j hij x hx y hy := h.apart i j hij x (hmade i ▸ hx) y (hmade j ▸ hy)

/-- A change is later than all those before it. -/
theorem Ordered.change [DecidableEq ι] (h : Ordered T d s) (hrefl : ∀ a, T a a)
    (htrans : ∀ {a b c}, T a b → T b c → T a c) (hT : T s.shared s'.shared) {i : ι}
    (hi : (s'.calls i).made = (s.shared, s'.shared) :: (s.calls i).made)
    (hj : ∀ j, j ≠ i → (s'.calls j).made = (s.calls j).made) : Ordered T d s' := by
  have hmem : ∀ j, ∀ x ∈ (s'.calls j).made,
      x ∈ (s.calls j).made ∨ j = i ∧ x = (s.shared, s'.shared) := by
    intro j x hx
    by_cases hji : j = i
    · subst hji
      rw [hi] at hx
      exact (List.mem_cons.1 hx).symm.imp_right fun he => ⟨rfl, he⟩
    · exact .inl (hj j hji ▸ hx)
  refine ⟨htrans h.start hT, fun j x hx => ?_, fun j x hx => ?_, fun j k hjk x hx y hy => ?_⟩
  · rcases hmem j x hx with hx | ⟨-, rfl⟩
    · exact h.before j x hx
    · exact h.start
  · rcases hmem j x hx with hx | ⟨-, rfl⟩
    · exact htrans (h.after j x hx) hT
    · exact hrefl _
  · rcases hmem j x hx with hx | ⟨rfl, rfl⟩ <;> rcases hmem k y hy with hy | ⟨rfl, rfl⟩
    · exact h.apart j k hjk x hx y hy
    · exact .inl (h.after j x hx)
    · exact .inr (h.after k y hy)
    · exact absurd rfl hjk

/-- **Of two changes by different calls one comes first.** -/
theorem Ordered.of_reach [DecidableEq ι] [Store D W] [Inhabited Λ] {env : D → D → Prop}
    {s₀ : Sys ι D W K Λ E A} (hrefl : ∀ a, T a a)
    (htrans : ∀ {a b c}, T a b → T b c → T a c)
    (hT : ∀ s e s', Reach (Step env) s₀ s → Step env e s s' → T s.shared s'.shared)
    (h₀ : ∀ i, (s₀.calls i).made = []) (hr : Reach (Step env) s₀ s) : Ordered T s₀.shared s := by
  have hstart : Ordered T s₀.shared s₀ := by
    refine ⟨hrefl _, fun i x hx => ?_, fun i x hx => ?_, fun i j _ x hx => ?_⟩ <;>
      rw [h₀] at hx <;> cases hx
  refine hr.invariant (I := Ordered T s₀.shared) hstart fun s e s' hs h hst => ?_
  have hTs := hT s e s' hs hst
  cases e with
  | env =>
    obtain ⟨d, -, rfl⟩ := hst
    exact h.quiet htrans hTs fun _ => rfl
  | crash i =>
    obtain ⟨p, loc, w, hi, rfl⟩ := hst
    refine h.quiet htrans hTs fun j => ?_
    by_cases hji : j = i
    · subst hji
      rw [hi]
      simp [Call.made]
    · simp [Function.update_of_ne hji]
  | go i =>
    obtain ⟨free, -, d, c, hn, rfl⟩ := hst
    have hother : ∀ j, j ≠ i → (Function.update s.calls i c j).made = (s.calls j).made :=
      fun j hji => by rw [Function.update_of_ne hji]
    rcases Call.made_next hn with hm | hm
    · refine h.quiet htrans hTs fun j => ?_
      by_cases hji : j = i
      · subst hji
        simpa using hm
      · exact hother j hji
    · exact h.change hrefl htrans hTs (i := i) (by simpa using hm) hother

/-- A schedule leaves the calls that it does not mention where they are. -/
theorem calls_of_play [DecidableEq ι] [Store D W] [DecidableEq K] {is : List ι}
    {ms : List (Move ι D)} {i : ι} (hms : ∀ m ∈ ms, m ≠ .go i ∧ m ≠ .crash i)
    {s s' : Sys ι D W K Λ E A} (h : play is ms s = some s') : s'.calls i = s.calls i := by
  induction ms generalizing s with
  | nil => cases h; rfl
  | cons m ms ih =>
    obtain ⟨hgo, hcrash⟩ := hms m List.mem_cons_self
    simp only [play] at h
    split at h
    · rename_i s₁ h₁
      rw [ih (fun m hm => hms m (List.mem_cons_of_mem _ hm)) h]
      cases m with
      | go j =>
        have hij : i ≠ j := fun he => hgo (he ▸ rfl)
        simp only [playMove] at h₁
        split at h₁ <;> cases h₁
        exact Function.update_of_ne hij ..
      | crash j =>
        have hij : i ≠ j := fun he => hcrash (he ▸ rfl)
        simp only [playMove] at h₁
        split at h₁ <;> cases h₁
        exact Function.update_of_ne hij ..
      | env f => cases h₁; rfl
    · cases h

end ReadCommitted
