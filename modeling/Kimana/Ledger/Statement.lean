import Kimana.Ledger.Running
import Mathlib.Data.List.Sort

/-!
# Account statements

A statement lists the entries of an account by `(posted_at, id)`.  An entry is posted at the time
its transaction began, and carries the balance that its transaction found under the account's lock,
so the two orders agree only if the transactions got the lock in the order in which they began.

The value of an id is drawn at random: `value` maps the ids of the model to any values.

* `listed_of_reach` : **balances match the listing**, in every run in which no posting is committed
  behind one that is listed after it, and 64 bits hold every balance.
* `unlisted_of_late` : a transaction that waits for the account breaks it.
-/

namespace Kimana

open ReadCommitted Util

/-- An entry is listed before another: `order by posted_at, id`. -/
def ListedBefore (value : Uuid → ℕ) (e e' : LedgerEntry) : Prop :=
  e.postedAt < e'.postedAt ∨ e.postedAt = e'.postedAt ∧ value e.id ≤ value e'.id

instance (value : Uuid → ℕ) : DecidableRel (ListedBefore value) := fun e e' => by
  unfold ListedBefore
  infer_instance

/-- The statement of an account. -/
def World.statement (d : World) (value : Uuid → ℕ) (acct : Uuid) : List LedgerEntry :=
  (d.entriesOf acct).insertionSort (ListedBefore value)

/-- What a step appends to an account is listed after what was there, in the order in which it was
posted. -/
def Follows (value : Uuid → ℕ) (d d' : World) : Prop :=
  ∀ acct es, d'.entriesOf acct = d.entriesOf acct ++ es →
    es.Pairwise (ListedBefore value) ∧
      ∀ e ∈ d.entriesOf acct, ∀ e' ∈ es, ListedBefore value e e'

/-- The entries of every account were posted in the order in which they are listed. -/
def InListing (value : Uuid → ℕ) (d : World) : Prop :=
  ∀ acct, (d.entriesOf acct).Pairwise (ListedBefore value)

/-- A step that appends keeps the order of the listing exactly if what it appends follows. -/
theorem inListing_append {value : Uuid → ℕ} {d d' : World}
    (happ : ∀ acct, ∃ es, d'.entriesOf acct = d.entriesOf acct ++ es) :
    InListing value d' ↔ InListing value d ∧ Follows value d d' := by
  constructor
  · intro h
    refine ⟨fun acct => ?_, fun acct es hes => ?_⟩
    · obtain ⟨es, hes⟩ := happ acct
      have := h acct
      rw [hes] at this
      exact (List.pairwise_append.1 this).1
    · have := h acct
      rw [hes] at this
      exact (List.pairwise_append.1 this).2
  · rintro ⟨h, hf⟩ acct
    obtain ⟨es, hes⟩ := happ acct
    rw [hes]
    exact List.pairwise_append.2 ⟨h acct, hf acct es hes⟩

section Runs

variable {ι : Type} [DecidableEq ι] {ops : ι → Op} {d₀ : World} {value : Uuid → ℕ}

/-- A step whose postings follow those before them, and that leaves balances that 64 bits hold. -/
def StepFollows (value : Uuid → ℕ) (e : Event ι)
    (s s' : Sys ι World Write Key Label Failure Answer) : Prop :=
  Step Env e s s' ∧ Follows value s.shared s'.shared ∧ ∀ acct, FitsI64 (s'.shared.balance acct)

theorem entriesOf_nil {d : World} (h : d.ledger = []) (acct : Uuid) : d.entriesOf acct = [] := by
  rw [World.entriesOf, h, List.filter_nil]

theorem carried_of_nil {d : World} (h : d.ledger = []) : AllCarried d :=
  fun acct pre e post hes => by
  rw [entriesOf_nil h] at hes
  simp at hes

/-- Every step of a run follows exactly if the entries end in the order of the listing, with
balances that 64 bits hold. -/
theorem reach_follows_iff (hwf : Wf d₀) (h₀ : d₀.ledger = [])
    {s : Sys ι World Write Key Label Failure Answer} :
    Reach (StepFollows value) (system ops d₀) s ↔ Reach (Step Env) (system ops d₀) s ∧
      InListing value s.shared ∧ ∀ acct, FitsI64 (s.shared.balance acct) := by
  have hadd : ∀ {s e s'}, Reach (Step Env) (system ops d₀) s → Step Env e s s' → ∀ acct,
      ∃ es, s'.shared.entriesOf acct = s.shared.entriesOf acct ++ es := by
    intro s e s' hr hst acct
    obtain ⟨es, hes, -⟩ := (running_of_reach hwf (carried_of_nil h₀) hr acct).2 e s' hst
    exact ⟨es, hes⟩
  constructor
  · intro hr
    refine ⟨hr.mono fun _ _ _ h => h.1, ?_⟩
    refine hr.invariant (I := fun s => InListing value s.shared ∧
      ∀ acct, FitsI64 (s.shared.balance acct)) ⟨fun acct => ?_, fun acct => ?_⟩ ?_
    · rw [system, entriesOf_nil h₀]
      exact .nil
    · rw [World.balance, system, entriesOf_nil h₀]
      decide
    rintro s e s' hr ⟨hi, -⟩ ⟨hst, hf, hfits⟩
    exact ⟨(inListing_append (hadd (hr.mono fun _ _ _ h => h.1) hst)).2 ⟨hi, hf⟩, hfits⟩
  · rintro ⟨hr, hlast, hfits⟩
    -- Entries are never taken back, so the order held all along.
    induction hr with
    | refl => exact .refl
    | tail hr hst ih =>
      obtain ⟨e, hst⟩ := hst
      obtain ⟨hi, hf⟩ := (inListing_append (hadd hr hst)).1 hlast
      refine (ih hi fun acct => ?_).tail ⟨e, hst, hf, hfits⟩
      -- An account that is posted to had a balance that 64 bits hold.
      obtain ⟨es, hes⟩ := hadd hr hst acct
      have hc := carried_of_reach hwf (carried_of_nil h₀) (hr.tail ⟨e, hst⟩) acct
      cases es with
      | nil =>
        rw [World.balance, ← List.append_nil (World.entriesOf ..), ← hes]
        exact hfits acct
      | cons x es => exact (hc _ x es hes).1

/-- **Balances match the listing**, in every run in which no posting is committed behind one that
is listed after it and 64 bits hold every balance. -/
theorem listed_of_reach (hwf : Wf d₀) (h₀ : d₀.ledger = [])
    {s : Sys ι World Write Key Label Failure Answer}
    (hr : Reach (StepFollows value) (system ops d₀) s) (acct : Uuid) :
    Running (s.shared.statement value acct) := by
  obtain ⟨hr, hlisted, hfits⟩ := (reach_follows_iff hwf h₀).1 hr
  rw [World.statement, (hlisted acct).insertionSort_eq]
  exact ((running_of_reach hwf (carried_of_nil h₀) hr acct).1.2 (hfits acct)).1

end Runs

/-- One payment after another: each is listed with the balance after it. -/
theorem listed_of_payments :
    ∃ s, Reach (StepFollows id) (system (paymentOps 100 20) (sampleWorld "NG")) s ∧
      (s.shared.entriesOf 101).length = 2 ∧ Running (s.shared.statement id 101) := by
  obtain ⟨s, hr, hs⟩ := exists_reach (paymentOps 100 20) (sampleWorld "NG") [0, 1]
    [(0, 15), (1, 11)]
    (fun s => (s.shared.entriesOf 101).length = 2 &&
      s.shared.ledger.Pairwise (ListedBefore id) &&
      s.shared.ledger.map (fun e => (e.accountId, e.amountMinor)) = [(101, 100), (101, 20)])
    (by decide) (by decide +kernel)
  simp only [Bool.and_eq_true, decide_eq_true_eq] at hs
  obtain ⟨⟨htwo, hsorted⟩, hled⟩ := hs
  have hfits : ∀ acct, FitsI64 (s.shared.balance acct) := by
    intro acct
    have hbal : s.shared.balance acct = (((s.shared.ledger.map fun e =>
        (e.accountId, e.amountMinor)).filter (·.1 = acct)).map (·.2)).sum := by
      rw [World.balance, World.entriesOf, List.filter_map, List.map_map]
      rfl
    rw [hbal, hled]
    by_cases h : 101 = acct <;> simp [h, FitsI64]
  have hr' := (reach_follows_iff (wf_sampleWorld "NG") rfl).2
    ⟨hr, fun _ => hsorted.sublist List.filter_sublist, hfits⟩
  exact ⟨s, hr', htwo, listed_of_reach (wf_sampleWorld "NG") rfl hr' 101⟩

/-- The first payment begins, time passes, and the second overtakes it. -/
def overtaken : List (Move (Fin 2) World) :=
  schedule [(0, 1)] ++ [.env fun d => { d with clock := d.clock + 1 }] ++
    schedule [(1, 15), (0, 10)]

/-- A payment that was overtaken is listed first, with the balance that it found. -/
theorem unlisted_of_late :
    ∃ s acct, Reach (Step Env) (system (paymentOps 100 20) (sampleWorld "NG")) s ∧
      ∀ value, ¬Running (s.shared.statement value acct) := by
  have henv : ∀ f, Move.env f ∈ overtaken → ∀ d, Env d (f d) := by
    intro f hf d
    simp only [overtaken, List.mem_append, List.mem_singleton, Move.env.injEq] at hf
    rcases hf with (hf | rfl) | hf
    · exact env_schedule _ f hf d
    · exact .tick _ (Nat.le_succ _)
    · exact env_schedule _ f hf d
  obtain ⟨s, hr, hs⟩ := exists_reach_of_play Env [0, 1] overtaken
    (system (paymentOps 100 20) (sampleWorld "NG"))
    (fun s => (s.shared.entriesOf 101).map (fun e =>
      (e.postedAt, e.amountMinor, e.runningBalanceMinor)) = [(1, 20, 20), (0, 100, 120)])
    (by decide) henv (by decide +kernel)
  obtain ⟨e, rest, he, hhead, hrest⟩ := List.map_eq_cons_iff.1 (of_decide_eq_true hs)
  obtain ⟨e', rest, rfl, hhead', hrest⟩ := List.map_eq_cons_iff.1 hrest
  obtain rfl := List.map_eq_nil_iff.1 hrest
  simp only [Prod.mk.injEq] at hhead hhead'
  refine ⟨s, 101, hr, fun value h => ?_⟩
  have hsorted : s.shared.statement value 101 = [e', e] := by
    simp [World.statement, he, List.insertionSort_cons, List.orderedInsert, ListedBefore, hhead.1,
      hhead'.1]
  have := h [] e' [e] hsorted
  simp [total, hhead'.2.1, hhead'.2.2] at this

end Kimana
