import Kimana.Op.Run
import Mathlib.Algebra.BigOperators.Group.List.Basic

/-!
# Running balances

Every entry carries the balance of its account after it.  A posting locks its account, sums the
committed entries and the transaction's own, and inserts; the lock is held until the transaction
ends, so the entries of an account stand in the order in which it was locked.  The sum before an
entry is one that 64 bits hold, or the posting fails; the addition of the amount wraps.

* `Running` : each entry carries the sum of the entries up to it.
* `Carried` : what the entries of an account carry in every state.
* `running_of_reach` : **no lost update**: the entries of an account are running, in the order in
  which the transactions that posted them held its lock, as long as 64 bits hold their sum.
-/

namespace Kimana

open ReadCommitted Util

/-- The sum of entries. -/
def total (es : List LedgerEntry) : ℤ := (es.map (·.amountMinor)).sum

/-- Each entry carries the sum of the entries up to it. -/
def Running (es : List LedgerEntry) : Prop :=
  ∀ pre e post, es = pre ++ e :: post → e.runningBalanceMinor = total (pre ++ [e])

theorem Running.nil : Running [] := by
  intro pre e post h
  simp at h

/-- The last entry carries the balance. -/
theorem Running.last {d : World} {acct : Uuid} (h : Running (d.entriesOf acct)) {e : LedgerEntry}
    (he : (d.entriesOf acct).getLast? = some e) : e.runningBalanceMinor = d.balance acct := by
  obtain ⟨pre, hpre⟩ := List.getLast?_eq_some_iff.1 he
  rw [World.balance, hpre]
  exact h pre e [] hpre

/-- Each entry carries the sum of the entries up to it, as 64 bits have it, and they hold the sum
before it. -/
def Carried (es : List LedgerEntry) : Prop :=
  ∀ pre e post, es = pre ++ e :: post →
    FitsI64 (total pre) ∧ e.runningBalanceMinor = asI64 (total (pre ++ [e]))

/-- An entry that carries on from the sum so far. -/
theorem Carried.concat {es : List LedgerEntry} {e : LedgerEntry} (h : Carried es)
    (hfit : FitsI64 (total es)) (he : e.runningBalanceMinor = asI64 (total es + e.amountMinor)) :
    Carried (es ++ [e]) := by
  intro pre x post hx
  rcases List.eq_nil_or_concat post with rfl | ⟨post, y, rfl⟩
  · obtain ⟨rfl, hlast⟩ := List.append_inj' hx rfl
    cases hlast
    exact ⟨hfit, by simpa [total] using he⟩
  · rw [List.concat_eq_append, ← List.cons_append, ← List.append_assoc] at hx
    exact h pre x post (List.append_inj' hx rfl).1

/-- The entries are running as long as 64 bits hold their sum. -/
theorem Carried.running_iff {es : List LedgerEntry} (h : Carried es) :
    Running es ↔ FitsI64 (total es) := by
  rcases List.eq_nil_or_concat es with rfl | ⟨es, e, rfl⟩
  · exact iff_of_true .nil (by decide)
  rw [List.concat_eq_append] at h ⊢
  constructor
  · intro hrun
    have he := hrun es e [] rfl
    rw [(h es e [] rfl).2] at he
    exact asI64_eq_iff.1 he
  · intro hfit pre x post hx
    obtain ⟨-, he⟩ := h pre x post hx
    rw [he, asI64_eq_iff]
    cases post with
    | nil => exact hx ▸ hfit
    | cons y post => exact (h (pre ++ [x]) y post (by rw [hx, List.append_assoc]; rfl)).1

/-- The entries of every account are carried. -/
def AllCarried (d : World) : Prop := ∀ acct, Carried (d.entriesOf acct)

/-- One write adds at most one entry, to an account whose lock its transaction holds. -/
theorem AllCarried.apply {d : World} (h : AllCarried d) {w : Write} {ℓ : List Key} {ids : List ℕ}
    (hw : w.Valid ℓ ids d) : AllCarried (w.apply d) := by
  intro acct
  cases w <;> try exact h acct
  case insertEntry row =>
    by_cases hacct : row.accountId = acct
    · subst hacct
      have hadd : ((Write.insertEntry row).apply d).entriesOf row.accountId =
          d.entriesOf row.accountId ++ [row] := by
        simp [World.entriesOf, Write.apply]
      rw [hadd]
      exact (h row.accountId).concat hw.ok.1.1 hw.ok.1.2
    · have hsame : ((Write.insertEntry row).apply d).entriesOf acct = d.entriesOf acct := by
        simp [World.entriesOf, Write.apply, hacct]
      rw [hsame]
      exact h acct

theorem entriesOf_applyAll (ws : List Write) (d : World) (acct : Uuid) :
    (applyAll ws d).entriesOf acct = d.entriesOf acct ++
      (ws.filterMap Write.entry).filter fun e => e.accountId = acct := by
  simp [World.entriesOf, ledger_applyAll]

/-- A transaction posts to accounts whose lock it holds. -/
theorem locked_of_posted {d : World} {ws : List Write} {ℓ : List Key} {ids : List ℕ}
    (hv : Valid ℓ ids d ws) {e : LedgerEntry} (he : e ∈ ws.filterMap Write.entry) :
    .account e.accountId ∈ ℓ := by
  induction ws generalizing d with
  | nil => simp at he
  | cons w ws ih =>
    rw [List.filterMap_cons] at he
    cases hw : w.entry with
    | none => exact ih hv.2 (by simpa [hw] using he)
    | some x =>
      simp only [hw, List.mem_cons] at he
      rcases he with rfl | he
      · cases w <;> cases hw
        exact hv.1.locked _ List.mem_cons_self
      · exact ih hv.2 he

variable {ι : Type} [DecidableEq ι] {ops : ι → Op} {d₀ : World}

/-- In every state that any calls reach the entries of an account are carried. -/
theorem carried_of_reach (hwf : Wf d₀) (h₀ : AllCarried d₀)
    {s : Sys ι World Write Key Label Failure Answer} (hr : Reach (Step Env) (system ops d₀) s) :
    AllCarried s.shared :=
  (invariant_of_reach (I := AllCarried) lax_anyChange granted_noAssumption hwf h₀
    (fun _ h => h) (fun d d' h he => by cases he <;> exact h) (fun _ _ _ => True)
    (fun i ℓ ids d ws _ _ hi hv _ _ => hv.invariant hi fun w d hi hw => hi.apply hw)
    (fun e s s' h => ⟨stepIf_of_step h, trivial⟩) hr).2

/-- **No lost update**: in every state that any calls reach, each entry of an account carries the
sum of the account's entries up to it, and the last one the balance, as long as 64 bits hold that
balance, and only then; and a step appends entries to an account only in a call that holds its
lock. -/
theorem running_of_reach (hwf : Wf d₀) (h₀ : AllCarried d₀)
    {s : Sys ι World Write Key Label Failure Answer} (hr : Reach (Step Env) (system ops d₀) s)
    (acct : Uuid) :
    (Running (s.shared.entriesOf acct) ∧ (∀ e, (s.shared.entriesOf acct).getLast? = some e →
        e.runningBalanceMinor = s.shared.balance acct) ↔ FitsI64 (s.shared.balance acct)) ∧
      ∀ e s', Step Env e s s' → ∃ es, s'.shared.entriesOf acct = s.shared.entriesOf acct ++ es ∧
        (es ≠ [] → ∃ i, e = .go i ∧ .account acct ∈ (s.calls i).locks) := by
  have h := carried_of_reach hwf h₀ hr acct
  refine ⟨⟨fun hrun => h.running_iff.1 hrun.1, fun hfit => ?_⟩, fun e s' hst => ?_⟩
  · have hrun := h.running_iff.2 hfit
    exact ⟨hrun, fun e he => hrun.last he⟩
  have hm := moved_of_reach hwf hr hst
  generalize s'.shared = d' at hm
  cases hm with
  | go i d hbelow hch =>
    rcases hch with rfl | rfl | ⟨ws, rfl, hv, -⟩
    · exact ⟨[], by simp, by simp⟩
    · exact ⟨[], by rw [List.append_nil]; rfl, by simp⟩
    · refine ⟨_, entriesOf_applyAll ws _ acct, fun hne => ⟨i, rfl, ?_⟩⟩
      obtain ⟨x, hx⟩ := List.exists_mem_of_ne_nil _ hne
      obtain ⟨hx, hid⟩ := List.mem_filter.1 hx
      exact of_decide_eq_true hid ▸ locked_of_posted hv hx
  | crash i => exact ⟨[], by simp, by simp⟩
  | env d he => exact ⟨[], by cases he <;> simp [World.entriesOf], by simp⟩

/-- Two payments to one account at once. -/
def paymentOps (first second : ℤ) : Fin 2 → Op
  | 0 => .applyInbound (samplePayment "first" first)
  | 1 => .applyInbound (samplePayment "second" second)

theorem carried_sampleWorld (country : String) : AllCarried (sampleWorld country) := by
  intro acct pre e post h
  simp [sampleWorld, World.entriesOf] at h

/-- The second of two payments carries the sum of both. -/
theorem running_of_payments :
    ∃ s acct e, Reach (Step Env) (system (paymentOps 100 20) (sampleWorld "NG")) s ∧
      (s.shared.entriesOf acct).getLast? = some e ∧ e.runningBalanceMinor = 120 := by
  obtain ⟨s, hr, hs⟩ := exists_reach (paymentOps 100 20) (sampleWorld "NG") [0, 1]
    [(0, 15), (1, 11)]
    (fun s => ((s.shared.entriesOf 101).getLast?.isSome) && s.shared.balance 101 = 120)
    (by decide) (by decide +kernel)
  simp only [Bool.and_eq_true, decide_eq_true_eq, Option.isSome_iff_exists] at hs
  obtain ⟨⟨e, he⟩, hb⟩ := hs
  have h := running_of_reach (wf_sampleWorld "NG") (carried_sampleWorld "NG") hr 101
  obtain ⟨-, hlast⟩ := h.1.2 (hb ▸ by decide)
  exact ⟨s, 101, e, hr, he, (hlast e he).trans hb⟩

/-- Two payments whose sum 64 bits do not hold: no entry carries it, in whatever order. -/
theorem not_running_of_overflow :
    ∃ s acct, Reach (Step Env) (system (paymentOps (2 ^ 63 - 1) 1) (sampleWorld "NG")) s ∧
      (s.shared.entriesOf acct).map (·.amountMinor) = [2 ^ 63 - 1, 1] ∧
      (s.shared.entriesOf acct).map (·.runningBalanceMinor) = [2 ^ 63 - 1, -2 ^ 63] ∧
      ∀ es, es.Perm (s.shared.entriesOf acct) → ¬ Running es := by
  obtain ⟨s, hr, hs⟩ := exists_reach (paymentOps (2 ^ 63 - 1) 1) (sampleWorld "NG") [0, 1]
    [(0, 15), (1, 11)]
    (fun s => (s.shared.entriesOf 101).map (·.amountMinor) = [2 ^ 63 - 1, 1] &&
      (s.shared.entriesOf 101).map (·.runningBalanceMinor) = [2 ^ 63 - 1, -2 ^ 63])
    (by decide) (by decide +kernel)
  simp only [Bool.and_eq_true, decide_eq_true_eq] at hs
  refine ⟨s, 101, hr, hs.1, hs.2, fun es hperm hrun => ?_⟩
  have hsum : total es = 2 ^ 63 := by
    rw [total, (hperm.map _).sum_eq, hs.1]
    decide
  rcases List.eq_nil_or_concat es with rfl | ⟨es, e, rfl⟩
  · cases hsum
  rw [List.concat_eq_append] at hsum hperm hrun
  have hmem : e.runningBalanceMinor ∈ (s.shared.entriesOf 101).map (·.runningBalanceMinor) :=
    List.mem_map_of_mem (hperm.subset (by simp))
  rw [hs.2, hrun es e [] rfl, hsum] at hmem
  revert hmem
  decide

end Kimana
