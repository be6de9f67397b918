import Kimana.Transfers.Position
import Mathlib.Data.Fintype.Basic
import Mathlib.Tactic.FinCases

/-!
# Rejected transfers

`REJECTED` has no outgoing transition, so what a transfer has cost when it gets there it has cost
for good.  From `SCREENED` and `AWAITING_FUNDS` that is nothing.  A vault event that cancels a
quote also rejects a transfer at `FUNDED` or `SETTLING`, and posts no refund.

* `cancelled_costs` : such a transfer keeps the debit that funded it.
* `rejected_of_reach` : **without such cancellations** a rejected transfer has cost nothing.
-/

namespace Kimana

open ReadCommitted Table Engine TransferStatus

theorem onchainPath_cancelled {q : Bool} {s : TransferStatus}
    (h : .rejected ∈ onchainPath (.cancelled q) s) :
    onchainPath (.cancelled q) s = [.rejected] := by
  revert h
  cases q <;> cases s <;> decide

/-- An operation rejects a transfer in a single step, and only a cancellation does so after the
screening and the funding check. -/
theorem Op.Takes.rejected {A : Assumed} {op : Op} {d : World} {ws : List Write} {t : TransferRow}
    {steps : List PathStep} (h : op.Takes A d ws t steps) (hop : ∀ cfg, op ≠ .runOnce cfg)
    (hrej : .rejected ∈ steps.map (·.target)) :
    (∃ st, steps = [st] ∧ st.target = .rejected) ∧ (t.currentStatus = .screened ∨
      t.currentStatus = .awaitingFunds ∨
        ∃ q payload, op = .applyOnchain t.id (.cancelled q) payload) := by
  -- The drive rejects from `AWAITING_FUNDS` only.
  have hadv : ∀ {state : AppState}, Advance A state d ws t steps →
      (∃ st, steps = [st] ∧ st.target = .rejected) ∧ (t.currentStatus = .screened ∨
        t.currentStatus = .awaitingFunds ∨
          ∃ q payload, op = .applyOnchain t.id (.cancelled q) payload) := by
    rintro state (_ | ⟨st, hf, _, _, _, _⟩ | ⟨payee, hs⟩)
    · simp at hrej
    · simp only [List.map_cons, List.map_nil, List.mem_singleton] at hrej
      rw [← hrej] at hf
      cases hst : t.currentStatus <;> rw [hst] at hf <;> cases hf
    · exact ⟨⟨_, rfl, rfl⟩, .inr (.inl hs)⟩
  cases op with
  | createTransfer => exact hadv h
  | advanceOnce | advanceToCompletion => exact hadv h.2
  | expireTransfer =>
    obtain ⟨-, payee, rfl⟩ := h
    simp at hrej
  | reverseTransfer =>
    rw [h.2.1] at hrej
    simp at hrej
  | resolveScreeningHold id decision =>
    obtain ⟨-, hs, payee, rfl⟩ := h
    simp only [List.map_cons, List.map_nil, List.mem_singleton] at hrej
    exact ⟨⟨_, rfl, hrej.symm⟩, .inl hs⟩
  | applyOnchain id target payload =>
    obtain ⟨rfl, ⟨-, hpath | ⟨rfl, -⟩⟩, -⟩ := h
    case inr => simp at hrej
    rw [hpath] at hrej
    cases target with
    | cancelled q =>
      rw [onchainPath_cancelled hrej] at hpath
      obtain ⟨st, rfl, hst⟩ := List.map_eq_singleton_iff.1 hpath
      exact ⟨⟨st, rfl, hst⟩, .inr (.inr ⟨q, payload, rfl⟩)⟩
    | settled | reversing | reversed =>
      cases hs : t.currentStatus <;> rw [hs] at hrej <;> simp [onchainPath] at hrej
  | runOnce cfg => exact absurd rfl (hop cfg)
  | _ => exact h.elim

/-- The four statuses that `REJECTED` can follow. -/
theorem rejected_mem_allowed {s : TransferStatus} (h : .rejected ∈ s.allowed) :
    s = .screened ∨ s = .awaitingFunds ∨ s = .funded ∨ s = .settling := by
  revert h
  cases s <;> decide

/-- A transfer in position that has cost nothing when it is rejected. -/
def ClearWhenRejected (t : TransferRow) (es : List LedgerEntry) (hs : List HistoryRow) : Prop :=
  InPosition t es hs ∧ (t.currentStatus = .rejected → sums t es = (0, 0))

/-- A path that does not reject a funded transfer keeps it clear. -/
theorem ClearWhenRejected.path {t t' : TransferRow} {steps : List PathStep} {es : List LedgerEntry}
    {hs hs' : List HistoryRow} (h : ClearWhenRejected t es hs)
    (hp : pathAllowed t.currentStatus (steps.map (·.target)) = true) (hc : t'.core = t.core)
    (hst : t'.currentStatus = pathEnd t.currentStatus steps)
    (hrej : .rejected ∈ steps.map (·.target) → (∃ st, steps = [st] ∧ st.target = .rejected) ∧
      (t.currentStatus = .screened ∨ t.currentStatus = .awaitingFunds ∨ t.sendAmountMinor = 0)) :
    ClearWhenRejected t' (es ++ pathEntries t t.currentStatus steps) hs' := by
  refine ⟨h.1.path hp hc hst, fun hend => ?_⟩
  rw [hst] at hend
  rw [sums_core hc]
  by_cases hnil : steps = []
  · subst hnil
    simpa [pathEntries] using h.2 hend
  obtain ⟨⟨st, rfl, hst'⟩, hfrom⟩ := hrej (hend ▸ pathEnd_mem _ hnil)
  have hall : .rejected ∈ t.currentStatus.allowed := by simpa [pathAllowed, hst'] using hp
  have hentries : pathEntries t t.currentStatus [st] = [] := by
    simp [pathEntries, refundFor, legFor, hst']
  rw [hentries, List.append_nil]
  -- Two of the statuses that `REJECTED` can follow come after the funding debit.
  rcases rejected_mem_allowed hall with hs | hs | hs | hs
  · exact h.1.2 (by simp [hs, Negatable, rank]) _ (by rw [hs]; rfl)
  · exact h.1.2 (by simp [hs, Negatable, rank]) _ (by rw [hs]; rfl)
  all_goals
    have hzero : t.sendAmountMinor = 0 := by simpa [hs] using hfrom
    refine h.1.2 (by simp [hs, Negatable, rank, hzero]) _ ?_
    rw [hs, position, hzero]
    rfl

/-- No call applies a cancellation to a transfer at `FUNDED` or `SETTLING` that has taken money from
its customer. -/
def Spared {ι : Type} (ops : ι → Op) (e : Event ι) (d d' : World) : Prop :=
  ∀ i id q payload t, e = .go i → ops i = .applyOnchain id (.cancelled q) payload →
    d.transfer id = some t → t.currentStatus = .funded ∨ t.currentStatus = .settling →
      t.sendAmountMinor = 0 ∨ d' = d

variable {ι : Type} [DecidableEq ι] {ops : ι → Op} {d₀ : World}

/-- **Rejected transfers** have cost nothing, in every state that calls reach among which no
cancellation is applied to a funded transfer. -/
theorem rejected_of_reach (hwf : Wf d₀)
    (hq : ∀ q ∈ d₀.quotes, q.sendCurrency ≠ q.receiveCurrency)
    (hops : ∀ i cfg, ops i ≠ .runOnce cfg) {s : Sys ι World Write Key Label Failure Answer}
    (hr : Reach (fun e s s' => Step Env e s s' ∧ Spared ops e s.shared s'.shared)
      (system ops d₀) s)
    {id : Uuid} {t : TransferRow} (hnew : d₀.transfer id = none)
    (ht : s.shared.transfer id = some t) (hrej : t.currentStatus = .rejected) :
    sums t (s.shared.entriesOfTransfer id) = (0, 0) := by
  have h := invariant_of_reach
    (I := FromQuotes (fun id => d₀.transfer id ≠ none) ClearWhenRejected)
    lax_anyChange granted_noAssumption hwf
    ⟨hq, fun id t hold ht => absurd ht (by simp [not_not.1 hold])⟩ (fun _ h => h)
    (fun d d' h he => ⟨by cases he <;> exact h.1, h.2.env he⟩) (Spared ops) ?_
    (fun e s s' h => ⟨stepIf_of_step h.1, h.2⟩) hr
  · have := (h.2.2 id t (not_not.2 hnew) ht).2 hrej
    simpa [sums] using this
  · intro i ℓ ids d ws hwf _ hi hv hk hspared
    refine ⟨quotes_ne_applyAll hi.1 ws, hi.2.commit hwf hv hk ?_ ?_⟩
    · intro t steps tail es hs t' hm htail htakes _ h hc hst
      refine h.path hm.allowed hc hst fun hr => ?_
      obtain ⟨⟨st, rfl, hrej⟩, hfrom⟩ := htakes.rejected (hops i) hr
      refine ⟨⟨st, rfl, hrej⟩, ?_⟩
      rcases hfrom with hs | hs | ⟨q, payload, hop⟩
      · exact .inl hs
      · exact .inr (.inl hs)
      have hall : .rejected ∈ t.currentStatus.allowed := by
        simpa [pathAllowed, hrej] using hm.allowed
      -- A commit that rejects is no empty one, so the condition speaks about it.
      have hmoved : applyAll ws d ≠ d := fun he => by
        obtain ⟨t'', ht'', -, hs⟩ := hm.transfer htail
        rw [he, hm.found] at ht''
        cases ht''
        rw [hs] at hall
        simp [hrej, allowed] at hall
      rcases rejected_mem_allowed hall with hs | hs | hs | hs
      · exact .inl hs
      · exact .inr (.inl hs)
      all_goals
        have := hspared i t.id q payload t rfl hop hm.found (by simp [hs])
        exact .inr (.inr (this.resolve_right hmoved))
    · intro _ _ _ _ _ _ _ _ t' hcr hc hst
      exact ⟨.new (hcr.currencies hi.1) hc hst, fun hr => by rw [hst] at hr; cases hr⟩

/-- A transfer is created, and its quote is cancelled before it has funds. -/
def unfundedOps : Fin 2 → Op
  | 0 => sampleCreate true "transfer" 3
  | 1 => .applyOnchain 100 (.cancelled false) []

/-- No step finds the transfer at `FUNDED` or `SETTLING`. -/
def beforeFunds (_ : Event (Fin 2)) (s : Sys (Fin 2) World Write Key Label Failure Answer) : Bool :=
  s.shared.status 100 ∉ [some .funded, some .settling]

theorem spared_of_beforeFunds {e : Event (Fin 2)}
    {s : Sys (Fin 2) World Write Key Label Failure Answer} (h : beforeFunds e s = true)
    (d' : World) :
    Spared unfundedOps e s.shared d' := by
  intro i id q payload t _ hop ht hst
  fin_cases i <;> cases hop
  rw [beforeFunds, World.status, ht] at h
  rcases hst with hst | hst <;> simp [hst] at h

/-- The cancellation rejects the transfer, which has cost nothing. -/
theorem rejected_of_unfunded :
    ∃ s t, Reach (fun e s s' => Step Env e s s' ∧ Spared unfundedOps e s.shared s'.shared)
        (system unfundedOps (sampleWorld "NG")) s ∧
      (s.calls 1).result? = some (.ok (.outcome (.applied .rejected))) ∧
      s.shared.transfer 100 = some t ∧ t.currentStatus = .rejected ∧
      sums t (s.shared.entriesOfTransfer 100) = (0, 0) := by
  have h : ((playChecked beforeFunds [0, 1] (schedule [(0, 41), (1, 5)])
      (system unfundedOps (sampleWorld "NG"))).any fun s =>
        (s.calls 1).result? = some (.ok (.outcome (.applied .rejected))) &&
          (s.shared.transfer 100).any fun t => t.currentStatus = .rejected) = true := by
    decide +kernel
  obtain ⟨s, hs, h⟩ := (Option.any_eq_true ..).1 h
  rw [Bool.and_eq_true, decide_eq_true_eq] at h
  obtain ⟨t, ht, hrej⟩ := (Option.any_eq_true ..).1 h.2
  rw [decide_eq_true_eq] at hrej
  have hr : Reach (fun e s s' => Step Env e s s' ∧ Spared unfundedOps e s.shared s'.shared) _ s :=
    (reach_of_playChecked (by decide) (env_schedule _) hs).mono fun e s s' hst =>
      ⟨hst.1, spared_of_beforeFunds hst.2 _⟩
  exact ⟨s, t, hr, h.1, ht, hrej, rejected_of_reach (wf_sampleWorld _)
    (by simp [sampleWorld, sampleQuote]) (fun i cfg hop => by fin_cases i <;> cases hop)
    hr rfl ht hrej⟩

/-- Money comes in, a transfer is created and driven to `SETTLING`, and its quote is cancelled. -/
def cancelledOps : Fin 4 → Op
  | 0 => .applyInbound (samplePayment "payment" 10000)
  | 1 => sampleCreate true "transfer" 3
  | 2 => .advanceToCompletion (sampleState true) 103 fun _ => "payout"
  | 3 => .applyOnchain 103 (.cancelled true) []

/-- A cancellation after funding rejects the transfer and keeps the customer's money. -/
theorem cancelled_costs :
    ∃ s t, Reach (Step Env) (system cancelledOps (sampleWorld "NG")) s ∧
      s.shared.transfer 103 = some t ∧ t.currentStatus = .rejected ∧
      sums t (s.shared.entriesOfTransfer 103) = (-10000, 0) := by
  obtain ⟨s, hr, hs⟩ := exists_reach cancelledOps (sampleWorld "NG") [0, 1, 2, 3]
    [(0, 15), (1, 41), (2, 22), (3, 5)]
    (fun s => (s.shared.transfer 103).any fun t => t.currentStatus = .rejected &&
      sums t (s.shared.entriesOfTransfer 103) = (-10000, 0))
    (by decide) (by decide +kernel)
  obtain ⟨t, ht, h⟩ := (Option.any_eq_true ..).1 hs
  simp only [Bool.and_eq_true, decide_eq_true_eq] at h
  exact ⟨s, t, hr, ht, h.1, h.2⟩

end Kimana
