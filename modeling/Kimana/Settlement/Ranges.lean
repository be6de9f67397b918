import Kimana.Settlement.Listener

/-!
# The ranges of a pass

`ranges` takes its sums in unbounded numbers; here the sums of the pass are those of 64 bits.  An
overflow ends the pass: a build with checks stops there, and one without goes on from the wrapped
number.

* `askOnce` : the ranges that a pass asks the node for, and the cursor it leaves.
* `askRanges_overflow` : when the range loop overflows.
* `ranges_eq_readRanges` : without an overflow the pass reads these ranges.
* `asksConfirmed_iff` : **when the ranges partition the confirmed blocks**.
-/

namespace Kimana.Listener

open ReadCommitted Util

/-- A sum of unsigned 64-bit numbers, unless it overflows. -/
def checkedAdd (a b : ℕ) : Option ℕ := if a + b < 2 ^ 64 then some (a + b) else none

/-- A stored 64-bit number, without its sign. -/
def asU64 (n : ℤ) : ℕ := (n % 2 ^ 64).toNat

/-- What a pass asks for, in order, the `last_block` that is stored afterwards, and whether a sum
overflowed. -/
structure Asked where
  ranges : List (ℕ × ℕ)
  saved : Option ℤ
  overflow : Bool
  deriving DecidableEq

theorem checkedAdd_eq_some {a b n : ℕ} (h : checkedAdd a b = some n) : n = a + b ∧ n < 2 ^ 64 := by
  unfold checkedAdd at h
  split at h
  case isTrue hlt => exact ⟨(Option.some.inj h).symm, Option.some.inj h ▸ hlt⟩
  case isFalse => cases h

theorem checkedAdd_eq_none {a b : ℕ} (h : checkedAdd a b = none) : 2 ^ 64 ≤ a + b := by
  unfold checkedAdd at h
  split at h
  case isTrue => cases h
  case isFalse hlt => exact Nat.not_lt.1 hlt

/-- The loop over the ranges from `start` on. -/
def askRanges (confirmed maxRange start : ℕ) (saved : Option ℤ) : Asked :=
  if start ≤ confirmed then
    match _hpast : checkedAdd start (max maxRange 1) with
    | none => ⟨[], saved, true⟩
    | some past =>
      let stop := min confirmed (past - 1)
      match _hnext : checkedAdd stop 1 with
      | none => ⟨[(start, stop)], some (asI64 stop), true⟩
      | some next =>
        let rest := askRanges confirmed maxRange next (some (asI64 stop))
        { rest with ranges := (start, stop) :: rest.ranges }
  else ⟨[], saved, false⟩
termination_by confirmed + 1 - start
decreasing_by
  have := (checkedAdd_eq_some _hpast).1
  have := (checkedAdd_eq_some _hnext).1
  omega

/-- A pass without an error of the node or the database, on a chain that still has the cursor's
block. -/
def askOnce (head confirmations startBlock maxRange : ℕ) (cursor : Option ℤ) : Asked :=
  if head < confirmations then ⟨[], cursor, false⟩
  else
    let confirmed := head - confirmations
    match cursor.elim (some startBlock) fun last => checkedAdd (asU64 last) 1 with
    | none => ⟨[], cursor, true⟩
    | some start =>
      if confirmed < start then ⟨[], cursor, false⟩ else askRanges confirmed maxRange start cursor

/-! ### What the loop asks for -/

/-- The ranges follow one another, are not empty, take each block from `first` to `last` once and no
other, and are at most `width` blocks wide. -/
structure Partitions (first last width : ℕ) (rs : List (ℕ × ℕ)) : Prop where
  nonempty : ∀ r ∈ rs, r.1 ≤ r.2
  consecutive : rs.IsChain fun r r' => r'.1 = r.2 + 1
  exact : rs.flatMap (fun r => List.range' r.1 (r.2 + 1 - r.1)) =
    List.range' first (last + 1 - first)
  narrow : ∀ r ∈ rs, r.2 + 1 - r.1 ≤ width

variable {confirmed maxRange start first last width stop : ℕ} {rs : List (ℕ × ℕ)}
variable {saved cursor : Option ℤ}

theorem Partitions.nil (h : last < first) : Partitions first last width [] where
  nonempty := by simp
  consecutive := .nil
  exact := by rw [show last + 1 - first = 0 by omega]; rfl
  narrow := by simp

/-- The first of some ranges starts with the first block. -/
theorem Partitions.head_eq {r : ℕ × ℕ} (h : Partitions first last width (r :: rs)) :
    r.1 = first := by
  have hle := h.nonempty r List.mem_cons_self
  obtain ⟨n, hn⟩ := Nat.exists_eq_add_of_lt (show 0 < r.2 + 1 - r.1 by omega)
  have hexact := h.exact
  rw [List.flatMap_cons, hn, Nat.zero_add, List.range'_succ, List.cons_append] at hexact
  exact (List.range'_eq_cons_iff.1 hexact.symm).1.symm

theorem Partitions.cons (h : Partitions (stop + 1) last width rs) (hle : first ≤ stop)
    (hlast : stop ≤ last) (hwidth : stop + 1 - first ≤ width) :
    Partitions first last width ((first, stop) :: rs) where
  nonempty := List.forall_mem_cons.2 ⟨hle, h.nonempty⟩
  consecutive := by
    cases rs with
    | nil => exact .singleton _
    | cons r rs => exact .cons_cons h.head_eq h.consecutive
  exact := by
    rw [List.flatMap_cons, h.exact]
    have hjoin := List.range'_append_1 (s := first) (m := stop + 1 - first) (n := last - stop)
    rw [show first + (stop + 1 - first) = stop + 1 by omega,
      show stop + 1 - first + (last - stop) = last + 1 - first by omega] at hjoin
    rw [show last + 1 - (stop + 1) = last - stop by omega]
    exact hjoin
  narrow := List.forall_mem_cons.2 ⟨hwidth, h.narrow⟩

theorem asU64_asI64 {n : ℕ} (h : n < 2 ^ 64) : asU64 (asI64 n) = n := by
  rw [asU64, asI64, Int.bmod_def]
  split <;> omega

/-- The start of the last range, the width added to it. -/
def lastSum (confirmed width start : ℕ) : ℕ := start + width * ((confirmed - start) / width) + width

theorem lastSum_of_le (hwidth : 0 < width) (h : start + width ≤ confirmed) :
    lastSum confirmed width start = lastSum confirmed width (start + width) := by
  obtain ⟨n, rfl⟩ := Nat.exists_eq_add_of_le h
  rw [lastSum, lastSum, show start + width + n - start = n + width by omega,
    Nat.add_sub_cancel_left, Nat.add_div_right _ hwidth, Nat.mul_succ]
  omega

theorem lastSum_of_lt (h : confirmed < start + width) (hle : start ≤ confirmed) :
    lastSum confirmed width start = start + width := by
  rw [lastSum, Nat.div_eq_of_lt (by omega), Nat.mul_zero, Nat.add_zero]

theorem le_lastSum (confirmed width start : ℕ) : start + width ≤ lastSum confirmed width start := by
  unfold lastSum
  omega

/-- The loop overflows exactly when the width added to the start of the last range does. -/
theorem askRanges_overflow (confirmed maxRange start : ℕ) (saved : Option ℤ) :
    (askRanges confirmed maxRange start saved).overflow = false ↔
      (start ≤ confirmed → lastSum confirmed (max maxRange 1) start < 2 ^ 64) := by
  fun_induction askRanges confirmed maxRange start saved with
  | case1 start saved hle hpast =>
    have hbig := checkedAdd_eq_none hpast
    have hsum := le_lastSum confirmed (max maxRange 1) start
    refine ⟨nofun, fun h => absurd (h hle) ?_⟩
    omega
  | case2 start saved hle past hpast stop hnext =>
    -- The end of a range is below a sum that fits.
    obtain ⟨rfl, hlt⟩ := checkedAdd_eq_some hpast
    have hbig := checkedAdd_eq_none hnext
    omega
  | case3 start saved hle past hpast stop next hnext rest ih =>
    obtain ⟨rfl, hlt⟩ := checkedAdd_eq_some hpast
    obtain ⟨rfl, hlt'⟩ := checkedAdd_eq_some hnext
    refine ih.trans ?_
    rcases Nat.lt_or_ge confirmed (start + max maxRange 1) with hshort | hlong
    · rw [lastSum_of_lt hshort hle]
      exact ⟨fun _ _ => hlt, fun _ h => absurd h (by omega)⟩
    · have hstart : stop + 1 = start + max maxRange 1 := by omega
      rw [hstart, lastSum_of_le (by omega) hlong]
      exact ⟨fun h _ => h hlong, fun h _ => h hle⟩
  | case4 start saved hle => exact ⟨fun _ h => absurd h hle, fun _ => rfl⟩

theorem askRanges_of_lt (h : confirmed < start) :
    askRanges confirmed maxRange start saved = ⟨[], saved, false⟩ := by
  rw [askRanges, if_neg (Nat.not_le.2 h)]

/-- Without an overflow the ranges partition the blocks, and the last one is saved. -/
theorem askRanges_spec (confirmed maxRange start : ℕ) (saved : Option ℤ)
    (h : (askRanges confirmed maxRange start saved).overflow = false) :
    Partitions start confirmed (max maxRange 1) (askRanges confirmed maxRange start saved).ranges ∧
      (start ≤ confirmed →
        (askRanges confirmed maxRange start saved).saved.map asU64 = some confirmed) := by
  fun_induction askRanges confirmed maxRange start saved with
  | case1 => cases h
  | case2 => cases h
  | case3 start saved hle past hpast stop next hnext rest ih =>
    obtain ⟨rfl, hlt⟩ := checkedAdd_eq_some hpast
    obtain ⟨rfl, hlt'⟩ := checkedAdd_eq_some hnext
    obtain ⟨hparts, hsaved⟩ := ih h
    refine ⟨hparts.cons (by omega) (Nat.min_le_left ..) (by omega), fun _ => ?_⟩
    rcases Nat.lt_or_ge confirmed (stop + 1) with hdone | hmore
    · have hstop : stop = confirmed := by omega
      have hrest : rest = ⟨[], some (asI64 stop), false⟩ := askRanges_of_lt hdone
      rw [hrest, hstop]
      exact congrArg some (asU64_asI64 (by omega))
    · exact hsaved hmore
  | case4 start saved hle => exact ⟨Partitions.nil (Nat.not_le.1 hle), fun h => absurd h hle⟩

/-! ### The pass of the listener -/

/-- Read the logs of a range and save its last block. -/
def readRange (cfg : ListenerConfig) (confirmed : ℕ) (r : ℕ × ℕ) : Lx Unit := do
  let logs := (← Tx.query : World).chain.getLogs cfg.vault r.1 r.2
  handleAll cfg (logs.insertionSort logLe)
  at' (.past [])
  let hash ← blockHash r.2
  at' (if r.2 = confirmed then .closing hash else .past [])
  saveCursor cfg r.2 hash

/-- Read ranges in order. -/
def readRanges (cfg : ListenerConfig) (confirmed : ℕ) : List (ℕ × ℕ) → Lx Unit
  | [] => return ()
  | r :: rs => do
    readRange cfg confirmed r
    readRanges cfg confirmed rs

/-- Without an overflow the loop of the listener reads the ranges asked for, with fuel for every
block. -/
theorem ranges_eq_readRanges (cfg : ListenerConfig) {fuel : ℕ}
    (hfuel : confirmed + 1 - start ≤ fuel)
    (h : (askRanges confirmed cfg.maxRange start saved).overflow = false) :
    ranges cfg confirmed fuel start =
      readRanges cfg confirmed (askRanges confirmed cfg.maxRange start saved).ranges := by
  generalize hwidth : cfg.maxRange = maxRange at h ⊢
  fun_induction askRanges confirmed maxRange start saved generalizing fuel
  case case1 => cases h
  case case2 => cases h
  case case3 start saved hle past hpast stop next hnext rest ih =>
    obtain ⟨rfl, hlt⟩ := checkedAdd_eq_some hpast
    obtain ⟨rfl, hlt'⟩ := checkedAdd_eq_some hnext
    cases fuel with
    | zero => omega
    | succ fuel =>
      have hstop : rangeEnd cfg confirmed start = stop := by rw [rangeEnd, hwidth]
      have hrest : ranges cfg confirmed fuel (stop + 1) = readRanges cfg confirmed rest.ranges :=
        ih (by omega) h
      rw [ranges, if_pos hle, hstop]
      simp only [hrest, readRanges, readRange, Prog.bind_eq, Prog.bind_assoc]
  case case4 start saved hle =>
    cases fuel with
    | zero => rfl
    | succ fuel =>
      rw [ranges, if_neg hle]
      rfl

/-! ### The condition -/

/-- The block after the cursor, or the configured one. -/
def firstBlock (startBlock : ℕ) (cursor : Option ℤ) : ℕ :=
  cursor.elim startBlock fun last => asU64 last + 1

/-- What a pass should do: nothing overflows; confirmed blocks from the first one on are partitioned
and the last one is saved; and without such a block nothing is asked for or saved. -/
structure AsksConfirmed (head confirmations startBlock maxRange : ℕ)
    (cursor : Option ℤ) : Prop where
  overflow : (askOnce head confirmations startBlock maxRange cursor).overflow = false
  partitions : confirmations ≤ head → firstBlock startBlock cursor ≤ head - confirmations →
    Partitions (firstBlock startBlock cursor) (head - confirmations) (max maxRange 1)
      (askOnce head confirmations startBlock maxRange cursor).ranges
  saved : confirmations ≤ head → firstBlock startBlock cursor ≤ head - confirmations →
    (askOnce head confirmations startBlock maxRange cursor).saved.map asU64 =
      some (head - confirmations)
  idle : head < confirmations ∨ head - confirmations < firstBlock startBlock cursor →
    (askOnce head confirmations startBlock maxRange cursor).ranges = [] ∧
      (askOnce head confirmations startBlock maxRange cursor).saved = cursor

/-- The sums of a pass fit 64 bits: there is a block after the cursor, and the width can be added to
the start of the last range. -/
def SumsFit (head confirmations startBlock maxRange : ℕ) (cursor : Option ℤ) : Prop :=
  confirmations ≤ head → (∀ last ∈ cursor, asU64 last + 1 < 2 ^ 64) ∧
    (firstBlock startBlock cursor ≤ head - confirmations →
      lastSum (head - confirmations) (max maxRange 1) (firstBlock startBlock cursor) < 2 ^ 64)

section Once

variable {head confirmations : ℕ} (startBlock maxRange : ℕ)

theorem askOnce_eq (hconf : confirmations ≤ head) (h : ∀ last ∈ cursor, asU64 last + 1 < 2 ^ 64) :
    askOnce head confirmations startBlock maxRange cursor =
      if head - confirmations < firstBlock startBlock cursor then ⟨[], cursor, false⟩
      else askRanges (head - confirmations) maxRange (firstBlock startBlock cursor) cursor := by
  rw [askOnce, if_neg (Nat.not_lt.2 hconf)]
  cases cursor with
  | none => rfl
  | some last =>
    have hsum : checkedAdd (asU64 last) 1 = some (asU64 last + 1) := if_pos (h last rfl)
    simp only [Option.elim_some, hsum, firstBlock]
    rfl

theorem askOnce_of_cursor_overflow (hconf : confirmations ≤ head)
    (h : ¬ ∀ last ∈ cursor, asU64 last + 1 < 2 ^ 64) :
    askOnce head confirmations startBlock maxRange cursor = ⟨[], cursor, true⟩ := by
  rw [askOnce, if_neg (Nat.not_lt.2 hconf)]
  cases cursor with
  | none => exact absurd (by simp) h
  | some last =>
    have hsum : checkedAdd (asU64 last) 1 = none := if_neg fun hlt => h (by simpa using hlt)
    simp only [Option.elim_some, hsum]

end Once

/-- **When the ranges partition the confirmed blocks**: exactly when the sums of the pass fit. -/
theorem asksConfirmed_iff (head confirmations startBlock maxRange : ℕ) (cursor : Option ℤ) :
    AsksConfirmed head confirmations startBlock maxRange cursor ↔
      SumsFit head confirmations startBlock maxRange cursor := by
  by_cases hconf : confirmations ≤ head
  swap
  · have hask : askOnce head confirmations startBlock maxRange cursor = ⟨[], cursor, false⟩ :=
      if_pos (Nat.not_le.1 hconf)
    refine ⟨fun _ h => absurd h hconf, fun _ => ⟨?_, ?_, ?_, ?_⟩⟩
    · rw [hask]
    · exact fun h => absurd h hconf
    · exact fun h => absurd h hconf
    · rw [hask]
      exact fun _ => ⟨rfl, rfl⟩
  -- A cursor whose successor does not fit 64 bits overflows before anything is asked for.
  by_cases hcursor : ∀ last ∈ cursor, asU64 last + 1 < 2 ^ 64
  swap
  · refine ⟨fun h => ?_, fun h => absurd (h hconf).1 hcursor⟩
    have hover := h.overflow
    rw [askOnce_of_cursor_overflow startBlock maxRange hconf hcursor] at hover
    cases hover
  have hask := askOnce_eq startBlock maxRange hconf hcursor
  -- The head has not moved past the cursor by the confirmations: nothing to ask for.
  by_cases hstart : head - confirmations < firstBlock startBlock cursor
  · rw [if_pos hstart] at hask
    refine ⟨fun _ _ => ⟨hcursor, fun h => absurd h (Nat.not_le.2 hstart)⟩, fun _ => ?_⟩
    refine ⟨?_, ?_, ?_, ?_⟩
    · rw [hask]
    · exact fun _ h => absurd h (Nat.not_le.2 hstart)
    · exact fun _ h => absurd h (Nat.not_le.2 hstart)
    · rw [hask]
      exact fun _ => ⟨rfl, rfl⟩
  · rw [if_neg hstart] at hask
    have hover := askRanges_overflow (head - confirmations) maxRange
      (firstBlock startBlock cursor) cursor
    constructor
    · intro h _
      refine ⟨hcursor, hover.1 ?_⟩
      rw [← hask]
      exact h.overflow
    · intro h
      have hfits := hover.2 (h hconf).2
      obtain ⟨hparts, hsaved⟩ := askRanges_spec _ _ _ _ hfits
      refine ⟨?_, ?_, ?_, ?_⟩
      · rw [hask, hfits]
      · rw [hask]
        exact fun _ _ => hparts
      · rw [hask]
        exact fun _ => hsaved
      · rintro (h | h)
        · exact absurd hconf (Nat.not_le.2 h)
        · exact absurd h hstart

/-- A width of all 64 bits from block 2 on: the first sum overflows. -/
theorem not_asksConfirmed : ¬ AsksConfirmed 10 3 2 18446744073709551615 none := by
  intro h
  have := h.overflow
  simp [askOnce, askRanges, checkedAdd] at this

end Kimana.Listener
