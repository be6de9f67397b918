import Kimana.ReadCommitted.System
import Mathlib.Data.Finset.Card

/-!
# A connection pool

The calls of `ReadCommitted.Sys` share a pool of `n` connections.  A statement of its own
(`query`, `atomic`) borrows a connection for its length; a transaction takes one with its first
statement and gives it back when it ends.  A call can move only when the connection it needs is
there, on top of what its row locks ask for.

* `Pooled`, `PoolStep` : calls in flight, the connections their transactions hold, one step.
* `Stuck` : some call is in flight, and every call in flight waits for a connection or for a row
  lock that another one holds.
* `Prog.OneLock` : no transaction of the program waits for a second lock of one kind.
* `not_stuck` : **fewer calls in flight than connections are never stuck**, if their
  transactions take one lock each.
* `exists_stuck` : **as many calls as connections can be stuck**, if they do a lookup under their
  lock.
-/

namespace ReadCommitted

variable {ι D W K Λ E A B : Type}

/-- The next statement needs a connection that the call does not hold; `tx` says whether its open
transaction holds one. -/
def Prog.Needs (tx : Prop) : Prog D W K Λ E A → Prop
  | query _ | atomic _ _ => True
  | read _ | lock _ _ | fresh _ => ¬tx
  | _ => False

/-- The next statement belongs to the open transaction. -/
def Prog.opens : Prog D W K Λ E A → Bool
  | read _ | lock _ _ | fresh _ => true
  | _ => false

/-- The next statement ends the open transaction. -/
def Prog.closes : Prog D W K Λ E A → Bool
  | commit _ | rollback _ => true
  | _ => false

/-- The program a call is running. -/
def Call.prog? : Call D W K Λ E A → Option (Prog D W K Λ E A)
  | run p _ _ => some p
  | _ => none

/-- A system whose calls share a pool of connections. -/
structure Pooled (ι D W K Λ E A : Type) where
  /-- The shared state and the calls. -/
  sys : Sys ι D W K Λ E A
  /-- The calls in flight. -/
  active : Finset ι
  /-- The calls whose open transaction holds a connection. -/
  conns : Finset ι

namespace Pooled

/-- Nobody has called yet. -/
def idle (sys : Sys ι D W K Λ E A) : Pooled ι D W K Λ E A := ⟨sys, ∅, ∅⟩

/-- The next statement of call `i` needs a connection it does not hold. -/
def Needs (s : Pooled ι D W K Λ E A) (i : ι) : Prop :=
  ∃ p loc w, s.sys.calls i = .run p loc w ∧ p.Needs (i ∈ s.conns)

/-- Call `i` waits for a connection. -/
def Starved (n : ℕ) (s : Pooled ι D W K Λ E A) (i : ι) : Prop :=
  s.Needs i ∧ n ≤ s.conns.card

/-- Call `i` waits for a row lock of kind `P` that another call in flight holds. -/
def Waits (P : K → Prop) (s : Pooled ι D W K Λ E A) (i : ι) : Prop :=
  ∃ k f loc w, s.sys.calls i = .run (.lock k f) loc (some w) ∧ P k ∧
    ∃ j ∈ s.active, j ≠ i ∧ k ∈ (s.sys.calls j).locks

/-- Some call is in flight, and none of those in flight can go on. -/
def Stuck (P : K → Prop) (n : ℕ) (s : Pooled ι D W K Λ E A) : Prop :=
  s.active.Nonempty ∧ ∀ i ∈ s.active, s.Starved n i ∨ s.Waits P i

variable [DecidableEq ι]

/-- After a statement of call `i`, which leaves the system at `sys`. -/
def after (s : Pooled ι D W K Λ E A) (i : ι) (sys : Sys ι D W K Λ E A) : Pooled ι D W K Λ E A :=
  if (sys.calls i).ended then ⟨sys, s.active.erase i, s.conns.erase i⟩
  else if (s.sys.calls i).prog?.any Prog.closes then ⟨sys, s.active, s.conns.erase i⟩
  else if (s.sys.calls i).prog?.any Prog.opens then ⟨sys, s.active, insert i s.conns⟩
  else ⟨sys, s.active, s.conns⟩

@[simp] theorem sys_after (s : Pooled ι D W K Λ E A) (i : ι) (sys : Sys ι D W K Λ E A) :
    (s.after i sys).sys = sys := by
  unfold after
  split_ifs <;> rfl

/-- A statement of a call in flight gives a connection to no other call. -/
theorem conns_after {s : Pooled ι D W K Λ E A} {i : ι} {sys : Sys ι D W K Λ E A}
    (h : s.conns ⊆ s.active) (hi : i ∈ s.active) :
    (s.after i sys).conns ⊆ (s.after i sys).active := by
  unfold after
  split_ifs
  · exact Finset.erase_subset_erase i h
  · exact (Finset.erase_subset i _).trans h
  · exact Finset.insert_subset hi h
  · exact h

end Pooled

variable [DecidableEq ι] [Store D W]

/-- One step of a system with `n` connections. -/
inductive PoolStep (env : D → D → Prop) (n : ℕ) (s : Pooled ι D W K Λ E A) :
    Pooled ι D W K Λ E A → Prop
  /-- A call comes in. -/
  | arrive (i : ι) : i ∉ s.active → (s.sys.calls i).ended = false →
      PoolStep env n s { s with active := insert i s.active }
  /-- A call carries out a statement, for which it has or gets a connection. -/
  | go (i : ι) (sys : Sys ι D W K Λ E A) : i ∈ s.active → (s.Needs i → s.conns.card < n) →
      Step env (.go i) s.sys sys → PoolStep env n s (s.after i sys)
  /-- A call crashes. -/
  | crash (i : ι) (sys : Sys ι D W K Λ E A) : i ∈ s.active →
      Step env (.crash i) s.sys sys → PoolStep env n s (s.after i sys)
  /-- The environment changes the shared state. -/
  | env (sys : Sys ι D W K Λ E A) : Step env .env s.sys sys → PoolStep env n s { s with sys }

/-- Runs with `n` connections in which at most `m` calls are in flight at once. -/
def PoolReach (env : D → D → Prop) (n m : ℕ) :
    Pooled ι D W K Λ E A → Pooled ι D W K Λ E A → Prop :=
  Relation.ReflTransGen fun s s' => PoolStep env n s s' ∧ s'.active.card ≤ m

/-! ### One lock in a transaction -/

section OneLock

variable (P : K → Prop)

omit [DecidableEq ι] [Store D W]

/-- The program takes no row lock of kind `P`. -/
def Prog.Avoids : Prog D W K Λ E A → Prop
  | ret _ | fail _ => True
  | fresh f => ∀ n, (f n).Avoids
  | atomic _ f | query f | read f => ∀ d, (f d).Avoids
  | lock k f => ¬P k ∧ ∀ d d', (f d d').Avoids
  | write _ p | mark _ p | commit p | rollback p => p.Avoids

/-- No transaction of the program waits for a second row lock of kind `P`; `held` says whether the
open one has its first. -/
def Prog.OneLock : Prog D W K Λ E A → Prop → Prop
  | ret _, _ | fail _, _ => True
  | fresh f, held => ∀ n, (f n).OneLock held
  | atomic _ f, held | query f, held | read f, held => ∀ d, (f d).OneLock held
  | lock k f, held => (P k → ¬held) ∧ ∀ d d', (f d d').OneLock (P k ∨ held)
  | write _ p, held | mark _ p, held => p.OneLock held
  | commit p, _ | rollback p, _ => p.OneLock False

variable {P}

theorem Prog.Avoids.bind {p : Prog D W K Λ E B} {g : B → Prog D W K Λ E A} (hp : p.Avoids P)
    (hg : ∀ b, (g b).Avoids P) : (p.bind g).Avoids P := by
  induction p with
  | ret b => exact hg b
  | fail e => trivial
  | fresh f ih | atomic u f ih | query f ih | read f ih => exact fun d => ih d (hp d)
  | lock k f ih => exact ⟨hp.1, fun d d' => ih d d' (hp.2 d d')⟩
  | write w p ih | mark l p ih | commit p ih | rollback p ih => exact ih hp

theorem Prog.Avoids.tryCatch {p : Prog D W K Λ E A} {h : E → Prog D W K Λ E A} (hp : p.Avoids P)
    (hh : ∀ e, (h e).Avoids P) : (p.tryCatch h).Avoids P := by
  induction p with
  | ret b => trivial
  | fail e => exact hh e
  | fresh f ih | atomic u f ih | query f ih | read f ih => exact fun d => ih d (hp d)
  | lock k f ih => exact ⟨hp.1, fun d d' => ih d d' (hp.2 d d')⟩
  | write w p ih | mark l p ih | commit p ih | rollback p ih => exact ih hp

theorem Prog.Avoids.oneLock {p : Prog D W K Λ E A} (h : p.Avoids P) (held : Prop) :
    p.OneLock P held := by
  induction p generalizing held with
  | ret | fail => trivial
  | fresh f ih | atomic u f ih | query f ih | read f ih => exact fun d => ih d (h d) held
  | lock k f ih => exact ⟨fun hk => absurd hk h.1, fun d d' => ih d d' (h.2 d d') _⟩
  | write w p ih | mark l p ih | commit p ih | rollback p ih => exact ih h _

/-- A program that takes no lock may go before one whose transactions take one each. -/
theorem Prog.Avoids.bind_oneLock {p : Prog D W K Λ E B} {g : B → Prog D W K Λ E A}
    (hp : p.Avoids P) (hg : ∀ b, (g b).OneLock P False) : (p.bind g).OneLock P False := by
  induction p with
  | ret b => exact hg b
  | fail e => trivial
  | fresh f ih | atomic u f ih | query f ih | read f ih => exact fun d => ih d (hp d)
  | lock k f ih =>
    refine ⟨fun _ => not_false, fun d d' => ?_⟩
    have hheld : (P k ∨ False) = False := by simp [hp.1]
    rw [hheld]
    exact ih d d' (hp.2 d d')
  | write w p ih | mark l p ih | commit p ih | rollback p ih => exact ih hp

variable (P) in
/-- The rest of a call takes one lock in a transaction. -/
def Call.OneLock : Call D W K Λ E A → Prop
  | run p loc _ => p.OneLock P (∃ k ∈ loc.locks, P k)
  | _ => True

theorem Call.OneLock.settle {p : Prog D W K Λ E A} {loc : Local D W K Λ}
    (h : p.OneLock P (∃ k ∈ loc.locks, P k)) : (settle p loc).OneLock P := by
  induction p generalizing loc with
  | ret | fail => trivial
  | write w p ih => exact @ih (loc.wrote w) h
  | mark l p ih => exact @ih (loc.at' (l loc.label)) h
  | _ => exact h

theorem Call.OneLock.next [Store D W] {free : K → Bool} {d d' : D} {c c' : Call D W K Λ E A}
    (h : c.OneLock P) (hn : c.next free d = some (d', c')) : c'.OneLock P := by
  match c with
  | done r made => cases hn
  | crashed made => cases hn
  | run p loc w =>
    cases p with
    | ret | fail | write | mark => cases w <;> cases hn
    | fresh f | query f | read f | atomic u f => cases w <;> cases hn <;> exact settle (h _)
    | commit p | rollback p =>
      have hp : p.OneLock P False := h
      have hend : p.OneLock P (∃ k ∈ loc.ended.locks, P k) := by simpa using hp
      cases w <;> cases hn <;> exact settle hend
    | lock k f =>
      cases w with
      | none => cases hn; exact h
      | some snap =>
        simp only [Call.next] at hn
        split at hn <;> cases hn
        have := h.2 snap (applyAll loc.pending d)
        exact settle (by simpa using this)

end OneLock

/-! ### Fewer calls than connections -/

/-- What holds in every run: a connection belongs to a call in flight, and each call takes one lock
of kind `P` in a transaction. -/
structure PoolOk (P : K → Prop) (s : Pooled ι D W K Λ E A) : Prop where
  conns : s.conns ⊆ s.active
  one : ∀ i, (s.sys.calls i).OneLock P

theorem PoolOk.step {P : K → Prop} {env : D → D → Prop} {n : ℕ} {s s' : Pooled ι D W K Λ E A}
    (h : PoolOk P s) (hst : PoolStep env n s s') : PoolOk P s' := by
  cases hst with
  | arrive i _ _ => exact ⟨h.conns.trans (Finset.subset_insert i _), h.one⟩
  | env sys hst =>
    obtain ⟨d, -, rfl⟩ := hst
    exact ⟨h.conns, h.one⟩
  | go i sys hi _ hst =>
    obtain ⟨free, -, d, c, hn, rfl⟩ := hst
    refine ⟨s.conns_after h.conns hi, fun j => ?_⟩
    rw [Pooled.sys_after]
    by_cases hj : j = i
    · subst hj
      simpa using (h.one j).next hn
    · simpa [hj] using h.one j
  | crash i sys hi hst =>
    obtain ⟨p, loc, w, -, rfl⟩ := hst
    refine ⟨s.conns_after h.conns hi, fun j => ?_⟩
    rw [Pooled.sys_after]
    by_cases hj : j = i
    · subst hj
      simp [Call.OneLock]
    · simpa [hj] using h.one j

/-- **With fewer calls in flight than connections, some call can go on.**  No call waits for a
connection, and the holder of the lock that a call waits for waits for no lock itself. -/
theorem not_stuck [Inhabited Λ] {P : K → Prop} {env : D → D → Prop} {n m : ℕ} (hm : m < n)
    {progs : ι → Prog D W K Λ E A} (hone : ∀ i, (progs i).OneLock P False) {d : D}
    {s : Pooled ι D W K Λ E A} (hr : PoolReach env n m (.idle ⟨d, fun i => .start (progs i)⟩) s) :
    ¬s.Stuck P n := by
  have hinv : PoolOk P s ∧ s.active.card ≤ m := by
    induction hr with
    | refl =>
      exact ⟨⟨Finset.empty_subset _,
        fun i => .settle (by simpa using hone i)⟩, by simp [Pooled.idle]⟩
    | tail _ hst ih => exact ⟨ih.1.step hst.1, hst.2⟩
  obtain ⟨hok, hcard⟩ := hinv
  intro ⟨⟨i, hi⟩, hstuck⟩
  have hfree : s.conns.card < n := by
    have := Finset.card_le_card hok.conns
    omega
  have hwait : ∀ i ∈ s.active, s.Waits P i := by
    intro i hi
    exact (hstuck i hi).resolve_left fun h => absurd h.2 (by omega)
  obtain ⟨k, f, loc, w, -, hk, j, hj, -, hheld⟩ := hwait i hi
  obtain ⟨k', f', loc', w', hc, hk', -⟩ := hwait j hj
  have hone := hok.one j
  rw [hc] at hone hheld
  exact hone.1 hk' ⟨k, hheld, hk⟩

/-! ### As many calls as connections -/

section Lookup

variable [DecidableEq K] {k : K} {d : D}

/-- After `q` lookups of its own, alone on `d`, the call waits for `k` in a new transaction, and
under that lock it does another lookup of its own. -/
def Call.looksUnder (k : K) (d : D) : ℕ → Call D W K Λ E A → Bool
  | 0, run (.lock k' f) loc none =>
    decide (k' = k) && loc.locks.isEmpty &&
      match settle (f (applyAll loc.pending d) (applyAll loc.pending d)) (loc.hold k) with
      | run (.query _) loc' _ => decide (k ∈ loc'.locks)
      | _ => false
  | q + 1, run (.query f) loc _ => looksUnder k d q (settle (f d) loc)
  | _, _ => false

variable {env : D → D → Prop} {n m : ℕ}

omit [DecidableEq ι] in
theorem Call.eq_run_of_looksUnder {c : Call D W K Λ E A} (h : c.looksUnder k d 0 = true) :
    ∃ k' f loc, c = .run (.lock k' f) loc none := by
  cases c with
  | done | crashed => cases h
  | run p loc w =>
    cases w with
    | some snap => cases p <;> cases h
    | none =>
      cases p with
      | lock k' f => exact ⟨k', f, loc, rfl⟩
      | _ => cases h

omit [DecidableEq ι] in
theorem Call.ended_of_looksUnder {q : ℕ} {c : Call D W K Λ E A} (h : c.looksUnder k d q = true) :
    c.ended = false := by
  cases c with
  | run => rfl
  | done | crashed => cases q <;> cases h

variable (ι env n m) in
/-- A call in flight does its lookups while a connection is left. -/
theorem reach_lookups {q : ℕ} {c : Call D W K Λ E A} (h : c.looksUnder k d q = true) :
    ∃ c' : Call D W K Λ E A, c'.looksUnder k d 0 = true ∧
      ∀ (calls : ι → Call D W K Λ E A) (active conns : Finset ι) (i : ι), calls i = c →
        i ∈ active → conns.card < n → active.card ≤ m →
        PoolReach env n m ⟨⟨d, calls⟩, active, conns⟩
          ⟨⟨d, Function.update calls i c'⟩, active, conns⟩ := by
  induction q generalizing c with
  | zero =>
    refine ⟨c, h, fun calls active conns i hc _ _ _ => ?_⟩
    rw [← hc, Function.update_eq_self]
    exact .refl
  | succ q ih =>
    match c with
    | .run (.query f) loc w =>
      obtain ⟨c', hc', hreach⟩ := ih h
      refine ⟨c', hc', fun calls active conns i hc hi hn hm => ?_⟩
      have hst : Step env (.go i) ⟨d, calls⟩ ⟨d, Function.update calls i (.settle (f d) loc)⟩ :=
        ⟨fun _ => false, by simp, d, _, by show Call.next _ d (calls i) = _; rw [hc]; rfl, rfl⟩
      have hend : (Call.settle (f d) loc).ended = false := Call.ended_of_looksUnder (q := q) h
      have hafter : (⟨⟨d, calls⟩, active, conns⟩ : Pooled ι D W K Λ E A).after i
          ⟨d, Function.update calls i (.settle (f d) loc)⟩ =
            ⟨⟨d, Function.update calls i (.settle (f d) loc)⟩, active, conns⟩ := by
        simp [Pooled.after, hend, hc, Call.prog?, Prog.closes, Prog.opens]
      refine .head ⟨.go i _ hi (fun _ => hn) hst, ?_⟩ ?_
      · rw [hafter]; exact hm
      · have := hreach (Function.update calls i (.settle (f d) loc)) active conns i (by simp)
          hi hn hm
        rw [Function.update_idem] at this
        rw [hafter]; exact this

/-- **As many calls as connections can all wait**: each has begun its transaction and waits for the
lock, all but one that holds it and waits for a connection to do its lookup. -/
theorem exists_stuck [Inhabited Λ] {P : K → Prop} (hn : 1 ≤ n) (hm : n ≤ m)
    {p : Prog D W K Λ E A} (hk : P k) {q : ℕ} (h : (Call.start p).looksUnder k d q = true) :
    ∃ s : Pooled ℕ D W K Λ E A,
      PoolReach env n m (.idle ⟨d, fun _ => .start p⟩) s ∧ s.Stuck P n := by
  obtain ⟨c, hc, hlookups⟩ := reach_lookups ℕ env n m h
  obtain ⟨k', f, loc, rfl⟩ := Call.eq_run_of_looksUnder hc
  simp only [Call.looksUnder, Bool.and_eq_true, decide_eq_true_eq, List.isEmpty_iff] at hc
  obtain ⟨⟨rfl, hlocks⟩, hgrant⟩ := hc
  let waiting : Call D W K Λ E A := .run (.lock k' f) loc (some (applyAll loc.pending d))
  let queue (i : ℕ) : Pooled ℕ D W K Λ E A :=
    ⟨⟨d, fun j => if j < i then waiting else .start p⟩, Finset.range i, Finset.range i⟩
  -- One call after another takes a connection and begins to wait.
  have hqueue : ∀ i ≤ n, PoolReach env n m (queue 0) (queue i) := by
    intro i
    induction i with
    | zero => exact fun _ => .refl
    | succ i ih =>
      intro hi
      have harrive : PoolStep env n (queue i)
          ⟨(queue i).sys, Finset.range (i + 1), Finset.range i⟩ := by
        rw [Finset.range_add_one]
        exact .arrive i (by simp [queue]) (by simpa [queue] using Call.ended_of_looksUnder h)
      have hlook := hlookups (queue i).sys.calls (Finset.range (i + 1)) (Finset.range i) i
        (by simp [queue]) (by simp) (by simp; omega) (by simp; omega)
      have hcalls : Function.update (queue i).sys.calls i waiting = (queue (i + 1)).sys.calls := by
        funext j
        by_cases hj : j = i
        · subst hj; simp [queue]
        · have : j < i + 1 ↔ j < i := by omega
          simp [queue, hj, this]
      have hwait : PoolStep env n
          ⟨⟨d, Function.update (queue i).sys.calls i (.run (.lock k' f) loc none)⟩,
            Finset.range (i + 1), Finset.range i⟩ (queue (i + 1)) := by
        have hst : Step env (.go i)
            ⟨d, Function.update (queue i).sys.calls i (.run (.lock k' f) loc none)⟩
            ⟨d, (queue (i + 1)).sys.calls⟩ :=
          ⟨fun _ => false, by simp, d, waiting, by simp [Call.next, waiting], by simp [← hcalls]⟩
        have := PoolStep.go (s := ⟨⟨d, Function.update (queue i).sys.calls i
          (.run (.lock k' f) loc none)⟩, Finset.range (i + 1), Finset.range i⟩) (n := n) i _
          (by simp) (fun _ => by simp; omega) hst
        simpa [Pooled.after, queue, waiting, Call.ended, Call.prog?, Prog.closes, Prog.opens,
          ← Finset.range_add_one] using this
      refine (ih (by omega)).trans (.head ⟨harrive, by simp; omega⟩ (hlook.trans ?_))
      exact .single ⟨hwait, by simp [queue]; omega⟩
  -- The first of them gets the lock; its next statement is the lookup.
  cases hg : Call.settle (f (applyAll loc.pending d) (applyAll loc.pending d)) (loc.hold k') with
  | done | crashed => rw [hg] at hgrant; cases hgrant
  | run p' loc' w' =>
  rw [hg] at hgrant
  cases p' with
  | query g =>
    have hheld : k' ∈ loc'.locks := of_decide_eq_true hgrant
    have hst : Step env (.go 0) (queue n).sys
        ⟨d, Function.update (queue n).sys.calls 0 (.run (.query g) loc' w')⟩ := by
      refine ⟨fun _ => true, fun k _ j hj => ?_, d, .run (.query g) loc' w', ?_, rfl⟩
      · by_cases hjn : j < n
        · simp [queue, hjn, waiting, Call.locks, hlocks]
        · have hstart : k ∉ (Call.start p).locks := fun hk => by simpa using Call.locks_settle hk
          simpa [queue, hjn] using hstart
      · have h0 : 0 < n := hn
        simp [queue, h0, waiting, Call.next, hg]
    have hgo := PoolStep.go (s := queue n) (n := n) 0 _ (by simp [queue]; omega)
      (by
        rintro ⟨p'', loc'', w'', hc, hneeds⟩
        have h0 : 0 < n := hn
        simp only [queue, h0, if_true, waiting] at hc
        cases hc
        exact absurd (by simp [queue]; omega) hneeds) hst
    have hafter : (queue n).after 0
        ⟨d, Function.update (queue n).sys.calls 0 (.run (.query g) loc' w')⟩ =
          ⟨⟨d, Function.update (queue n).sys.calls 0 (.run (.query g) loc' w')⟩,
            Finset.range n, Finset.range n⟩ := by
      have h0 : 0 < n := hn
      simp [Pooled.after, queue, waiting, Call.ended, Call.prog?, Prog.closes, Prog.opens, h0]
    rw [hafter] at hgo
    refine ⟨_, .trans (hqueue n le_rfl) (.single ⟨hgo, by simpa using hm⟩),
      ⟨0, Finset.mem_range.2 hn⟩, fun i hi => ?_⟩
    have hi' : i < n := Finset.mem_range.1 hi
    by_cases h0 : i = 0
    · subst h0
      exact .inl ⟨⟨.query g, loc', w', by simp, trivial⟩, by simp⟩
    · refine .inr ⟨k', f, loc, applyAll loc.pending d, ?_, hk, 0, Finset.mem_range.2 hn,
        Ne.symm h0, ?_⟩
      · simp [queue, h0, hi', waiting]
      · simpa [Call.locks] using hheld
  | _ => cases hgrant

end Lookup

end ReadCommitted
