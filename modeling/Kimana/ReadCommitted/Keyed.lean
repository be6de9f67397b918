import Kimana.ReadCommitted.Rely

/-!
# Rows with unique keys

A table whose rows have keys that no two share, and ids that were drawn.  A call locks a key, looks
whether some row has it, and inserts a row that does.

* `Keyed` : such a table.
* `Takes` : a change takes keys that are locked only, and ids that are drawn.
* `Holds.rely` : a key that is locked and was found free stays free, if all changes are so.
* `Distinct.insert` : a row with such keys and a drawn id keeps the keys and the ids distinct.
-/

namespace ReadCommitted

/-- The keys and the ids of the rows of a table. -/
structure Keyed (D K : Type) where
  keys : D → List K
  ids : D → List ℕ

variable {ι D W K Λ : Type} [Store D W] {T : Keyed D K}

/-- The keys are distinct, and so are the ids, which were drawn. -/
structure Distinct (T : Keyed D K) (d : D) : Prop where
  keys : (T.keys d).Nodup
  ids : (T.ids d).Nodup
  below : ∀ n ∈ T.ids d, n < seq d

/-- A change takes no keys but those that are locked, and no ids but those that were drawn. -/
structure Takes (T : Keyed D K) (ℓ : List K) (ids : List ℕ) (d d' : D) : Prop where
  keys : ∀ k ∈ T.keys d', k ∈ T.keys d ∨ k ∈ ℓ
  ids : ∀ n ∈ T.ids d', n ∈ T.ids d ∨ n ∈ ids
  seq : seq d ≤ seq d'

/-- Nobody takes more. -/
structure Fair (T : Keyed D K) (R : Rules ι D K Λ) : Prop where
  guar : ∀ i ℓ ids d d', R.guar i ℓ ids d d' → Takes T ℓ ids d d'
  env : ∀ d d', R.env d d' → Takes T [] [] d d'
  bump : ∀ d, Takes T [] [] d (bump d)

/-- The keys `ks` are locked and free, and the drawn ids are those of no row. -/
structure Holds (T : Keyed D K) (ks : List K) (loc : Local D W K Λ) (d : D) : Prop where
  locks : ∀ k ∈ ks, k ∈ loc.locks
  free : ∀ k ∈ ks, k ∉ T.keys d
  ids : ∀ n ∈ loc.ids, n ∉ T.ids d ∧ n < seq d

variable {R : Rules ι D K Λ} {ks : List K} {loc loc' : Local D W K Λ} {w : Option D} {d d' : D}

/-- What others take is not what is held here. -/
theorem Takes.holds {ℓ : List K} {ids : List ℕ} (h : Takes T ℓ ids d d') (hh : Holds T ks loc d)
    (hℓ : ∀ k ∈ ℓ, k ∉ loc.locks) (hids : ∀ n ∈ ids, n ∉ loc.ids) : Holds T ks loc d' where
  locks := hh.locks
  free k hk hmem := by
    rcases h.keys k hmem with hold | hlocked
    · exact hh.free k hk hold
    · exact hℓ k hlocked (hh.locks k hk)
  ids n hn := by
    refine ⟨fun hmem => ?_, (hh.ids n hn).2.trans_le h.seq⟩
    rcases h.ids n hmem with hold | hdrawn
    · exact (hh.ids n hn).1 hold
    · exact hids n hdrawn hn

/-- What is held stays so while the call stands still. -/
theorem Holds.rely (h : Holds T ks loc d) (hR : Fair T R) (hr : R.Rely loc w d d') :
    Holds T ks loc d' := by
  refine hr.invariant h fun d₁ d₂ h₁ ho => ?_
  cases ho with
  | bump => exact (hR.bump d₁).holds h₁ (by simp) (by simp)
  | guar j ℓ ids hℓ hids _ hg _ => exact (hR.guar j ℓ ids d₁ d₂ hg).holds h₁ hℓ hids
  | env he _ => exact (hR.env d₁ d₂ he).holds h₁ (by simp) (by simp)

/-- A drawn id is new. -/
theorem Holds.draw (h : Holds T ks loc d) (hd : Distinct T d) (hb : Takes T [] [] d (bump d)) :
    Holds T ks (loc.draw (seq d)) (bump d) := by
  have hheld := hb.holds h (by simp) (by simp)
  refine ⟨h.locks, hheld.free, fun n hn => ?_⟩
  rcases List.mem_cons.1 hn with rfl | hn
  · refine ⟨fun hmem => ?_, by rw [seq_bump]; exact Nat.lt_succ_self _⟩
    have hold := (hb.ids _ hmem).resolve_right List.not_mem_nil
    exact (hd.below _ hold).false
  · exact hheld.ids n hn

/-- A key that is locked and found free. -/
theorem Holds.lock (h : Holds T ks loc d) {k : K} (hk : k ∈ loc.locks) (hfree : k ∉ T.keys d) :
    Holds T (k :: ks) loc d :=
  ⟨List.forall_mem_cons.2 ⟨hk, h.locks⟩, List.forall_mem_cons.2 ⟨hfree, h.free⟩, h.ids⟩

/-- A call that has at least these locks, and only ids of these. -/
theorem Holds.mono (h : Holds T ks loc d) (hlocks : ∀ k ∈ loc.locks, k ∈ loc'.locks)
    (hids : ∀ n ∈ loc'.ids, n ∈ loc.ids) : Holds T ks loc' d :=
  ⟨fun k hk => hlocks k (h.locks k hk), h.free, fun n hn => h.ids n (hids n hn)⟩

/-- A change that leaves keys and ids alone. -/
theorem Holds.same (h : Holds T ks loc d) (hkeys : T.keys d' = T.keys d) (hids : T.ids d' = T.ids d)
    (hseq : seq d' = seq d) : Holds T ks loc d' :=
  ⟨h.locks, hkeys ▸ h.free, hids ▸ hseq ▸ h.ids⟩

theorem Distinct.same (h : Distinct T d) (hkeys : T.keys d' = T.keys d)
    (hids : T.ids d' = T.ids d) (hseq : seq d ≤ seq d') : Distinct T d' :=
  ⟨hkeys ▸ h.keys, hids ▸ h.ids, fun n hn => (h.below n (hids ▸ hn)).trans_le hseq⟩

/-- A row with new keys and a new id. -/
theorem Distinct.insert (h : Distinct T d) {id : ℕ} (hkeys : T.keys d' = T.keys d ++ ks)
    (hids : T.ids d' = T.ids d ++ [id]) (hseq : seq d' = seq d) (hks : ks.Nodup)
    (hfree : ∀ k ∈ ks, k ∉ T.keys d) (hid : id ∉ T.ids d ∧ id < seq d) : Distinct T d' where
  keys := by
    rw [hkeys]
    refine List.nodup_append.2 ⟨h.keys, hks, fun k hk k' hk' he => ?_⟩
    exact hfree k' hk' (he ▸ hk)
  ids := by
    rw [hids]
    refine List.nodup_append.2 ⟨h.ids, by simp, fun n hn n' hn' he => ?_⟩
    rw [he, List.mem_singleton.1 hn'] at hn
    exact hid.1 hn
  below n hn := by
    rw [hseq]
    rw [hids, List.mem_append, List.mem_singleton] at hn
    rcases hn with hn | rfl
    · exact h.below n hn
    · exact hid.2

end ReadCommitted
