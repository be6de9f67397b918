import Kimana.Transfers.History
import Kimana.Transfers.Position
import Kimana.Transfers.Service

/-!
# What a customer reads of a transfer

A transfer and its list are read in one query; its timeline in two, and the engine may go on in
between.

* `getTransfer`, `listTransfers`, `getTimeline` : the three reads.
* `mem_listTransfers_iff` : what is listed can be opened, and the other way round.
* `joined_of_historyOk` : a transfer is shown with the time and the payload of its own status.
* `timeline_of_reach` : **the timeline is a path**: it starts at `CREATED`, follows transitions and
  goes through the status it is shown for; once that is terminal nothing follows, but for a reversal
  of a completed transfer.
-/

namespace Kimana

open ReadCommitted Table TransferStatus

/-! ### The reads -/

namespace Repo

structure OwnerAndStatus where
  customerId : Uuid
  currentStatus : TransferStatus

/-- `select customer_id, current_status`. -/
def getOwnerAndStatus (d : World) (id : Uuid) : Option OwnerAndStatus :=
  (d.transfer id).map fun t => ⟨t.customerId, t.currentStatus⟩

structure TransferStateHistoryEntry where
  status : TransferStatus
  enteredAt : Time
  note : Option String
  deriving DecidableEq

/-- The history of a transfer, `order by position`. -/
def getHistory (d : World) (id : Uuid) : List TransferStateHistoryEntry :=
  ((d.historyOf id).mergeSort fun a b => a.position ≤ b.position).map fun h =>
    ⟨h.status, h.enteredAt, h.note⟩

/-- The transfers of a customer, at a status if one is given, `order by created_at desc`. -/
def listByCustomer (d : World) (customerId : Uuid) (status : Option TransferStatus) :
    List Transfer :=
  ((d.transfers.filter fun t =>
      t.customerId = customerId && status.all fun s => t.currentStatus = s).mergeSort
    fun a b => b.createdAt ≤ a.createdAt).map (joined d)

end Repo

namespace Service

structure TransferTimeline where
  transferId : Uuid
  history : List Repo.TransferStateHistoryEntry
  isTerminal : Bool
  deriving DecidableEq

def transferNotFound : ApiError := .notFound "That transfer couldn't be found."

/-- A transfer of the session's customer. -/
def getTransfer (session : Session) (id : Uuid) (d : World) : Except ApiError Transfer :=
  match ((d.transfer id).map (Repo.joined d)).filter fun t => t.row.customerId =
    session.customerId with
  | some t => .ok t
  | none => .error transferNotFound

def listTransfers (session : Session) (status : Option TransferStatus) (d : World) :
    List Transfer :=
  Repo.listByCustomer d session.customerId status

/-- The timeline of a transfer.  The owner and the status are read from `d`, the history from `d'`:
each statement on the pool sees what is committed when it begins. -/
def getTimeline (session : Session) (id : Uuid) (d d' : World) : Except ApiError TransferTimeline :=
  match (Repo.getOwnerAndStatus d id).filter fun o => o.customerId = session.customerId with
  | some owner => .ok ⟨id, Repo.getHistory d' id, owner.currentStatus.isTerminal⟩
  | none => .error transferNotFound

/-- What is listed can be opened, and what can be opened is listed. -/
theorem mem_listTransfers_iff {d : World} (hwf : Wf d) {session : Session} {t : Transfer} :
    t ∈ listTransfers session none d ↔ getTransfer session t.row.id d = .ok t := by
  rw [listTransfers, Repo.listByCustomer, List.mem_map]
  constructor
  · rintro ⟨row, hrow, rfl⟩
    obtain ⟨hmem, hcust⟩ := List.mem_filter.1 (List.mem_mergeSort.1 hrow)
    have hfound : d.transfer (Repo.joined d row).row.id = some row := hwf.of_transfer_mem hmem
    have hown : (Repo.joined d row).row.customerId = session.customerId :=
      show row.customerId = session.customerId by simpa using hcust
    rw [getTransfer, hfound, Option.map_some, Option.filter_some, if_pos (decide_eq_true hown)]
  · intro h
    rw [getTransfer] at h
    split at h
    case h_2 => cases h
    case h_1 t' ht' =>
      cases h
      obtain ⟨hmap, hcust⟩ := Option.filter_eq_some_iff.1 ht'
      obtain ⟨row, hrow, rfl⟩ := Option.map_eq_some_iff.1 hmap
      have hown : row.customerId = session.customerId := of_decide_eq_true hcust
      have hmem := (World.transfer_mem hrow).1
      exact ⟨row, List.mem_mergeSort.2 (List.mem_filter.2 ⟨hmem, by simpa using hown⟩), rfl⟩

end Service

/-! ### Histories in order -/

/-- Rows numbered in order are read in that order. -/
theorem Numbered.getHistory {d : World} {id : Uuid} (h : Numbered d id) :
    Repo.getHistory d id = (d.historyOf id).map fun h => ⟨h.status, h.enteredAt, h.note⟩ := by
  have hsorted : (d.historyOf id).Pairwise fun a b => decide (a.position ≤ b.position) = true := by
    have hpos : ((d.historyOf id).map (·.position)).Pairwise (· ≤ ·) := by
      rw [h]
      exact List.pairwise_lt_range.imp le_of_lt
    exact (List.pairwise_map.1 hpos).imp fun h => decide_eq_true h
  rw [Repo.getHistory, List.mergeSort_of_pairwise hsorted]

/-- The last row of a transfer in order is that of its status. -/
theorem HistoryOk.last {d : World} {id : Uuid} (h : HistoryOk id d) {t : TransferRow}
    (ht : d.transfer id = some t) : ∃ rows r, d.historyOf id = rows ++ [r] ∧
      r.status = t.currentStatus := by
  have hlast := (h.inSequence ht).last
  rw [List.map_map, List.getLast?_map, Option.map_eq_some_iff] at hlast
  obtain ⟨r, hr, hst⟩ := hlast
  obtain ⟨rows, hrows⟩ := List.getLast?_eq_some_iff.1 hr
  exact ⟨rows, r, hrows, hst⟩

/-- A transfer is shown with the time and the payload of the row of its own status. -/
theorem joined_of_historyOk {d : World} {id : Uuid} (h : HistoryOk id d) {t : TransferRow}
    (ht : d.transfer id = some t) : ∃ r ∈ d.historyOf id, r.status = t.currentStatus ∧
      Repo.joined d t = ⟨t, r.enteredAt, r.payload⟩ := by
  obtain ⟨rows, r, hrows, hst⟩ := h.last ht
  refine ⟨r, by simp [hrows], hst, ?_⟩
  obtain ⟨-, rfl⟩ := World.transfer_mem ht
  have htop : topBy (·.position) (d.historyOf t.id) = some r := by
    rw [topBy_position h.numbered, hrows, List.getLast?_concat]
  simp only [Repo.joined, htop]
  rfl

/-- Nothing follows a terminal status but the reversal of a completed transfer. -/
theorem after_terminal {s : TransferStatus} {after : List TransferStatus}
    (h : List.IsChain Edge (s :: after)) (hs : s.isTerminal = true) :
    after = [] ∨ s = .completed ∧ (after = [.reversing] ∨ after = [.reversing, .reversed]) := by
  cases after with
  | nil => exact .inl rfl
  | cons a after =>
    obtain ⟨ha, hrest⟩ := List.isChain_cons_cons.1 h
    cases s <;> simp only [isTerminal, Bool.false_eq_true] at hs <;>
      simp only [Edge, allowed, List.mem_cons, List.not_mem_nil, or_false] at ha
    subst ha
    cases after with
    | nil => exact .inr ⟨rfl, .inl rfl⟩
    | cons b after =>
      obtain ⟨hb, hrest⟩ := List.isChain_cons_cons.1 hrest
      simp only [Edge, allowed, List.mem_cons, List.not_mem_nil, or_false] at hb
      subst hb
      cases after with
      | nil => exact .inr ⟨rfl, .inr rfl⟩
      | cons c after =>
        have hc := (List.isChain_cons_cons.1 hrest).1
        simp [Edge, allowed] at hc

/-! ### Every run -/

variable {ι : Type} [DecidableEq ι] {ops : ι → Op} {d₀ : World}

/-- **The timeline is a path**: while calls go on in any order between its two statements, a
customer is shown the history of a transfer of its own, from `CREATED` along transitions to the
status it stands at by then, and through the status it stood at before.  Once that is terminal
nothing follows, but for the reversal of a completed transfer. -/
theorem timeline_of_reach (hwf : Wf d₀) {id : Uuid} (h₀ : HistoryOk id d₀)
    {s s' : Sys ι World Write Key Label Failure Answer}
    (hr : Reach (Step Env) (system ops d₀) s) (hr' : Reach (Step Env) s s') {session : Session}
    {timeline : Service.TransferTimeline}
    (h : Service.getTimeline session id s.shared s'.shared = .ok timeline) :
    ∃ t before after, s.shared.transfer id = some t ∧ t.customerId = session.customerId ∧
      timeline.history.map (·.status) = before ++ t.currentStatus :: after ∧
      (timeline.history.map (·.status)).head? = some .created ∧
      List.IsChain Edge (timeline.history.map (·.status)) ∧
      (timeline.history.map (·.status)).getLast? = s'.shared.status id ∧
      timeline.isTerminal = t.currentStatus.isTerminal ∧
      (timeline.isTerminal = true → after = [] ∨ t.currentStatus = .completed ∧
        (after = [.reversing] ∨ after = [.reversing, .reversed])) := by
  have hstep : ∀ {s}, Reach (Step Env) (system ops d₀) s → HistoryOk id s.shared := fun hr =>
    (historyOk_of_reach lax_anyChange (granted_noAssumption (R := rules noAssumption ops anyChange))
      hwf h₀ (hr.mono fun _ _ _ h => stepIf_of_step h)).2
  have hok := hstep hr
  have hok' := hstep (hr.trans hr')
  have he := ext_of_reach hwf hr hr'
  cases ht : s.shared.transfer id with
  | none => simp [Service.getTimeline, Repo.getOwnerAndStatus, ht] at h
  | some t =>
    by_cases hc : t.customerId = session.customerId
    case neg => simp [Service.getTimeline, Repo.getOwnerAndStatus, ht, hc, Option.filter] at h
    simp only [Service.getTimeline, Repo.getOwnerAndStatus, ht, Option.map_some, hc, Option.filter,
      decide_true, if_true, Except.ok.injEq] at h
    obtain ⟨rows, r, hrows, hst⟩ := hok.last ht
    obtain ⟨t', ht'⟩ := Engine.transfer_isSome_ext he ht
    have hseq := hok'.inSequence ht'
    have hstatuses : timeline.history.map (·.status) =
        ((s'.shared.historyOf id).map HistoryRow.strip).map (·.status) := by
      rw [← h, hok'.numbered.getHistory, List.map_map, List.map_map]
      rfl
    have hmem : t.currentStatus ∈ timeline.history.map (·.status) := by
      -- The row of the status is still there when the history is read.
      have hr : r ∈ s.shared.historyOf id := by simp [hrows]
      obtain ⟨hin, hid⟩ := List.mem_filter.1 hr
      have hr' : r ∈ s'.shared.historyOf id := List.mem_filter.2 ⟨he.history r hin, hid⟩
      rw [hstatuses, List.map_map, ← hst]
      exact List.mem_map_of_mem (f := fun r : HistoryRow => r.strip.status) hr'
    obtain ⟨before, after, hsplit⟩ := List.append_of_mem hmem
    have hchain : List.IsChain Edge (timeline.history.map (·.status)) := hstatuses ▸ hseq.edges
    refine ⟨t, before, after, rfl, hc, hsplit, hstatuses ▸ hseq.first, hchain, ?_, by rw [← h],
      fun hterm => ?_⟩
    · rw [hstatuses, hseq.last, World.status, ht']
      rfl
    · rw [hsplit] at hchain
      refine after_terminal hchain.right_of_append ?_
      rw [← hterm, ← h]

/-- A transfer is read at `AWAITING_FUNDS`, and its history when it has been completed. -/
theorem timeline_of_completion :
    ∃ s s' t timeline before after, Reach (Step Env) (system completedOps (sampleWorld "NG")) s ∧
      Reach (Step Env) s s' ∧ s.shared.transfer 103 = some t ∧
      Service.getTimeline sampleSession 103 s.shared s'.shared = .ok timeline ∧
      timeline.history.map (·.status) = before ++ t.currentStatus :: after ∧
      timeline.isTerminal = false ∧ s'.shared.status 103 = some .completed := by
  have h : ((play [0, 1, 2] (schedule [(0, 15), (1, 41)])
      (system completedOps (sampleWorld "NG"))).any fun s =>
        (play [0, 1, 2] (schedule [(2, 48)]) s).any fun s' =>
          (Service.getTimeline sampleSession 103 s.shared s'.shared).toOption.any (!·.isTerminal) &&
            decide (s'.shared.status 103 = some .completed)) = true := by decide +kernel
  obtain ⟨s, hs, h⟩ := (Option.any_eq_true ..).1 h
  obtain ⟨s', hs', h⟩ := (Option.any_eq_true ..).1 h
  rw [Bool.and_eq_true, decide_eq_true_eq] at h
  obtain ⟨timeline, htl, hopen⟩ := (Option.any_eq_true ..).1 h.1
  have hr : Reach (Step Env) (system completedOps (sampleWorld "NG")) s :=
    reach_of_play (by decide) (env_schedule _) hs
  have hr' : Reach (Step Env) s s' := reach_of_play (by decide) (env_schedule _) hs'
  have hok : Service.getTimeline sampleSession 103 s.shared s'.shared = .ok timeline := by
    cases he : Service.getTimeline sampleSession 103 s.shared s'.shared with
    | error e => rw [he] at htl; cases htl
    | ok tl => rw [he] at htl; cases htl; rfl
  obtain ⟨t, before, after, ht, -, hsplit, -⟩ := timeline_of_reach (wf_sampleWorld "NG")
    (.of_new (wf_sampleWorld "NG") rfl) hr hr' hok
  exact ⟨s, s', t, timeline, before, after, hr, hr', ht, hok, hsplit, by simpa using hopen, h.2⟩

end Kimana
