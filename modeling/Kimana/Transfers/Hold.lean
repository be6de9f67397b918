import Kimana.Transfers.History
import Mathlib.Data.Fintype.Basic
import Mathlib.Tactic.FinCases

/-!
# Compliance holds

`lock` reads a transfer's row again after a wait, but the payload of its last history row only in
the snapshot from before.  A call that waits while another commits `SCREENED` pairs that status
with the payload of `QUOTED`, which holds nothing.

* `unheld_of_wait` : such a call takes a held transfer to `AWAITING_FUNDS`.
* `held_of_step` : **without such a wait** only a clearing decision does.
-/

namespace Kimana

open ReadCommitted Table Engine TransferStatus

/-- The transfer whose row a call waits for, if it waits, does not enter `SCREENED`. -/
def seesHold (l : Label) (w : Option World) (d d' : World) : Bool :=
  match l.locking, w with
  | some id, some _ => d.status id = some .screened || d'.status id ≠ some .screened
  | _, _ => true

/-- No transfer enters `SCREENED` while a call waits for its row. -/
def SeesHold (l : Label) (w : Option World) (d d' : World) : Prop := seesHold l w d d' = true

/-- Payloads that were seen are current. -/
def holdAssumed : Assumed := ⟨True, False⟩

theorem lax_seesHold : Lax SeesHold := fun _ _ _ _ _ => rfl

theorem granted_seesHold {ι : Type} {ops : ι → Op} :
    Granted holdAssumed (rules holdAssumed ops SeesHold) where
  hold _ ℓ ids l snap id d d' hl ho hs := by
    have hcond : SeesHold l (some snap) d d' → d.status id = some .screened := by
      simp [SeesHold, seesHold, hl, hs]
    cases ho with
    | bump => exact ⟨hs, rfl⟩
    | env he hc =>
      refine ⟨hcond hc, ?_⟩
      cases he <;> rfl
    | guar j ℓ' ids' _ _ _ hg hc =>
      obtain ⟨ws, rfl, hv, hk⟩ := hg
      refine ⟨hcond hc, ?_⟩
      rw [World.latestPayload, World.latestPayload, hk.historyOf_of_status hv (hcond hc) hs]
  funds h := h.elim

/-! ### One commit -/

variable {A : Assumed} {op : Op} {d : World} {ws : List Write} {t : TransferRow}
  {steps : List PathStep}

theorem awaitingFunds_not_mem_onchainPath {target : OnchainTarget} {s : TransferStatus} :
    .awaitingFunds ∉ onchainPath target s := by
  cases target with
  | cancelled q => cases q <;> cases s <;> decide
  | _ => cases s <;> decide

/-- Only a forward step and a clearing decision take a transfer to `AWAITING_FUNDS`. -/
theorem Op.Takes.awaiting (h : op.Takes A d ws t steps)
    (hmem : .awaitingFunds ∈ steps.map (·.target)) :
    (∃ state, Advance A state d ws t steps) ∨
      ∃ reason actor body, op = .resolveScreeningHold t.id .clear reason actor body := by
  have honchain : ∀ {target payload}, ¬ OnchainSteps target payload t steps := by
    rintro target payload ⟨-, hp | ⟨rfl, -⟩⟩
    · rw [hp] at hmem
      exact awaitingFunds_not_mem_onchainPath hmem
    · simp at hmem
  cases op with
  | createTransfer state => exact .inl ⟨state, h⟩
  | advanceOnce state | advanceToCompletion state => exact .inl ⟨state, h.2⟩
  | expireTransfer =>
    obtain ⟨-, payee, rfl⟩ := h
    simp at hmem
  | reverseTransfer =>
    rw [h.2.1] at hmem
    simp at hmem
  | applyOnchain => exact absurd h.2.1 honchain
  | resolveScreeningHold id decision reason actor body =>
    obtain ⟨rfl, -, payee, rfl⟩ := h
    cases decision with
    | clear => exact .inr ⟨reason, actor, body, rfl⟩
    | reject => simp [resolution] at hmem
  | runOnce =>
    obtain ⟨target, payload, ht, -⟩ := h
    cases target with
    | none =>
      rw [show steps = [] from ht] at hmem
      simp at hmem
    | some target => exact absurd ht honchain
  | _ => exact h.elim

/-- A forward step to `AWAITING_FUNDS` finds no hold in the history of the transfer. -/
theorem Engine.Advance.unheld {state : AppState} (h : Advance holdAssumed state d ws t steps)
    (ht : d.transfer t.id = some t) (hok : HistoryOk t.id d)
    (hmem : .awaitingFunds ∈ steps.map (·.target)) {r : HistoryRow} (hr : r ∈ d.historyOf t.id)
    (hst : r.status = .screened) : holds r.payload = false := by
  cases h with
  | stay => simp at hmem
  | reject => simp at hmem
  | forward st hf _ hhold =>
    have htarget : st.target = .awaitingFunds := by simpa [eq_comm] using hmem
    have hs : t.currentStatus = .screened := by
      rw [htarget] at hf
      cases hcur : t.currentStatus <;> rw [hcur] at hf <;> cases hf
    have hlast := (hok.inSequence ht).latest (List.mem_map_of_mem (f := HistoryRow.strip) hr)
      (hst.trans hs.symm)
    rw [List.getLast?_map, Option.map_eq_some_iff] at hlast
    obtain ⟨r', hr', hstrip⟩ := hlast
    have hpay := hhold trivial hs
    rw [hok.numbered.latestPayload, hr'] at hpay
    rwa [show r.payload = r'.payload from (congrArg HistoryRow.payload hstrip.symm :)]

/-- A commit that takes a held transfer to `AWAITING_FUNDS` is a clearing decision. -/
theorem Op.Commits.clears {id : Uuid} (hk : op.Commits holdAssumed d ws) (hok : HistoryOk id d)
    {r₀ r : HistoryRow} (hr₀ : r₀ ∈ (applyAll ws d).historyOf id)
    (hscreened : r₀.status = .screened)
    (hhold : holds r₀.payload = true) (hr : r ∈ (applyAll ws d).historyOf id)
    (hnew : r ∉ d.historyOf id) (hawaiting : r.status = .awaitingFunds) :
    ∃ reason actor body, op = .resolveScreeningHold id .clear reason actor body := by
  have hquiet : ((applyAll ws d).historyOf id).map HistoryRow.strip =
      (d.historyOf id).map HistoryRow.strip → False := fun h => by
    rw [historyOf_of_strip h] at hr
    exact hnew hr
  cases hk.kind with
  | apart ha => exact (hquiet (ha.historyOf id)).elim
  | create hop hc =>
    exfalso
    have hhist := hc.history id
    rw [historyOf_applyAll, List.map_append, List.append_cancel_left_eq] at hhist
    rw [historyOf_applyAll, List.mem_append, or_iff_right hnew] at hr
    have hmem := List.mem_map_of_mem (f := HistoryRow.strip) hr
    rw [hhist] at hmem
    split at hmem
    · rw [List.mem_singleton] at hmem
      have := congrArg HistoryRow.status hmem
      rw [show r.strip.status = r.status from rfl, hawaiting] at this
      cases this
    · cases hmem
  | @path t steps tail hm htail htakes =>
    have hhist := hm.history htail id
    by_cases hid : t.id = id
    case neg =>
      rw [if_neg hid, List.append_nil] at hhist
      exact (hquiet hhist).elim
    subst hid
    rw [historyOf_applyAll, List.map_append, if_pos rfl, List.append_cancel_left_eq] at hhist
    rw [historyOf_applyAll, List.mem_append] at hr₀ hr
    have htargets : ∀ x ∈ (ws.filterMap Write.historyRow).filter fun h => h.transferId = t.id,
        x.status ∈ steps.map (·.target) := fun x hx => by
      have hmem := List.mem_map_of_mem (f := HistoryRow.strip) hx
      rw [hhist] at hmem
      have := List.mem_map_of_mem (f := (·.status)) hmem
      rwa [statuses_pathHistory] at this
    have hmem : .awaitingFunds ∈ steps.map (·.target) :=
      hawaiting ▸ htargets r (hr.resolve_left hnew)
    obtain ⟨state, hadv⟩ | hclear := htakes.awaiting hmem
    case inr => exact hclear
    exfalso
    -- A forward step appends one row, so the outcome of the screening was there before.
    have hold : r₀ ∈ d.historyOf t.id := by
      refine hr₀.resolve_right fun hx => ?_
      have h₀ := htargets r₀ hx
      rw [hscreened] at h₀
      cases hadv <;> simp at h₀ hmem
      rw [← h₀] at hmem
      cases hmem
    rw [hadv.unheld hm.found hok hmem hold hscreened] at hhold
    cases hhold

/-! ### Every run -/

variable {ι : Type} [DecidableEq ι] {ops : ι → Op} {d₀ : World}

/-- **Holds**, in every run in which no transfer enters `SCREENED` while a call waits for its row:
once screening has held a transfer, only a decision that clears the hold appends
`AWAITING_FUNDS`. -/
theorem held_of_step (hwf : Wf d₀) {id : Uuid} (h₀ : HistoryOk id d₀) {e : Event ι}
    {s s' : Sys ι World Write Key Label Failure Answer}
    (hr : Reach (StepIf SeesHold) (system ops d₀) s) (hst : StepIf SeesHold e s s')
    {r₀ r : HistoryRow} (hr₀ : r₀ ∈ s'.shared.historyOf id) (hscreened : r₀.status = .screened)
    (hhold : holds r₀.payload = true) (hr' : r ∈ s'.shared.historyOf id)
    (hnew : r ∉ s.shared.historyOf id) (hawaiting : r.status = .awaitingFunds) :
    ∃ i reason actor body, e = .go i ∧
      ops i = .resolveScreeningHold id .clear reason actor body := by
  obtain ⟨hwfs, hok⟩ := historyOk_of_reach lax_seesHold granted_seesHold hwf h₀ hr
  have hm := (sysOk_of_reach lax_seesHold granted_seesHold hwf hr).moved hst.1
  generalize s'.shared = d' at hm hr₀ hr'
  cases hm with
  | crash => exact absurd hr' hnew
  | env d he => exact absurd (by cases he <;> exact hr') hnew
  | go i d _ hch =>
    rcases hch with rfl | rfl | ⟨ws, rfl, hv, hk⟩
    · exact absurd hr' hnew
    · exact absurd hr' hnew
    · obtain ⟨reason, actor, body, hop⟩ := hk.clears hok hr₀ hscreened hhold hr' hnew hawaiting
      exact ⟨i, reason, actor, body, rfl, hop⟩

/-- A transfer to a country on the watchlist, its advances, and a decision. -/
def heldOps : Fin 5 → Op
  | 0 => sampleCreate false "transfer" 3
  | 1 | 2 | 3 => .advanceOnce (sampleState false) 100 none "step"
  | 4 => .resolveScreeningHold 100 .clear none none "clear"

/-- The third advance waits while the second commits a held screening, and goes on. -/
theorem unheld_of_wait :
    ∃ s s' r₀ r, Reach (Step Env) (system heldOps (sampleWorld "RU")) s ∧ Step Env (.go 3) s s' ∧
      r₀ ∈ s'.shared.historyOf 100 ∧ r₀.status = .screened ∧ holds r₀.payload = true ∧
      r ∈ s'.shared.historyOf 100 ∧ r ∉ s.shared.historyOf 100 ∧ r.status = .awaitingFunds ∧
      heldOps 3 = .advanceOnce (sampleState false) 100 none "step" := by
  obtain ⟨s, s', hr, hst, h⟩ := exists_step heldOps (sampleWorld "RU") [0, 1, 2, 3, 4]
    [(0, 24), (1, 5), (2, 3), (3, 2), (2, 3), (3, 2)] 3
    (fun s s' => (s'.shared.historyOf 100).any (fun r => r.status = .screened && holds r.payload) &&
      (s'.shared.historyOf 100).any fun r => r.status = .awaitingFunds &&
        decide (r ∉ s.shared.historyOf 100))
    (by decide) (by decide +kernel)
  rw [Bool.and_eq_true] at h
  obtain ⟨r₀, hr₀, h₀⟩ := List.any_eq_true.1 h.1
  obtain ⟨r, hr', h₁⟩ := List.any_eq_true.1 h.2
  simp only [Bool.and_eq_true, decide_eq_true_eq] at h₀ h₁
  exact ⟨s, s', r₀, r, hr, hst, hr₀, h₀.1, h₀.2, hr', h₁.2, h₁.1, rfl⟩

/-- When each waits for the one before it to end, the hold stands until it is cleared. -/
theorem held_of_decision :
    ∃ s s' r₀ r i reason actor body, Reach (StepIf SeesHold) (system heldOps (sampleWorld "RU")) s ∧
      StepIf SeesHold (.go 4) s s' ∧ r₀ ∈ s'.shared.historyOf 100 ∧ holds r₀.payload = true ∧
      r ∈ s'.shared.historyOf 100 ∧ r.status = .awaitingFunds ∧
      heldOps i = .resolveScreeningHold 100 .clear reason actor body := by
  obtain ⟨s, hr, hs⟩ := exists_reach_of_playIf Env seesHold [0, 1, 2, 3, 4]
    (schedule [(0, 24), (1, 5), (2, 6), (3, 3), (4, 4)]) (system heldOps (sampleWorld "RU"))
    (fun s => (playMove [0, 1, 2, 3, 4] s (.go 4)).any fun s' =>
      (s'.shared.historyOf 100).any (fun r => r.status = .screened && holds r.payload) &&
      (s'.shared.historyOf 100).any (fun r => r.status = .awaitingFunds &&
        decide (r ∉ s.shared.historyOf 100)) &&
      [0, 1, 2, 3, 4].all fun j => decide (j = 4) ||
        seesHold (s.calls j).label (s.calls j).wait s.shared s'.shared)
    (by decide) (env_schedule _) (by decide +kernel)
  obtain ⟨s', hs', h⟩ := (Option.any_eq_true ..).1 hs
  rw [Bool.and_eq_true, Bool.and_eq_true] at h
  obtain ⟨r₀, hr₀, h₀⟩ := List.any_eq_true.1 h.1.1
  obtain ⟨r, hr', h₁⟩ := List.any_eq_true.1 h.1.2
  simp only [Bool.and_eq_true, decide_eq_true_eq] at h₀ h₁
  have hstep : StepIf SeesHold (.go 4) s s' := by
    refine ⟨step_of_playMove (m := .go 4) (by decide) (by simp) hs', fun j hj => ?_⟩
    have hj' : j ≠ 4 := fun h => hj (h ▸ rfl)
    have := List.all_eq_true.1 h.2 j (by fin_cases j <;> simp)
    simpa [hj', SeesHold] using this
  obtain ⟨i, reason, actor, body, -, hop⟩ := held_of_step (wf_sampleWorld "RU")
    (.of_new (wf_sampleWorld "RU") rfl) hr hstep hr₀ h₀.1 h₀.2 hr' h₁.2 h₁.1
  exact ⟨s, s', r₀, r, i, reason, actor, body, hr, hstep, hr₀, h₀.2, hr', h₁.1, hop⟩

end Kimana
