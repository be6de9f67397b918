import Kimana.Transfers.Engine
import Kimana.Ledger.Posting

/-!
# Paths of a transfer

What a transaction writes, in brief, when it takes a transfer through a list of statuses
(`pathBrief`): for each the history row, the status and the postings of the transition.

* `legFor`, `refundFor` : the posting table.
* `statusIn_pathBrief` : the status a path ends in.
* `about_pathBrief` : a path leaves every other transfer alone.
-/

namespace Kimana.Engine

open ReadCommitted Table TransferStatus Util Ledger

/-- One step of a path; `payee` is the name a payout is described with. -/
structure PathStep where
  target : TransferStatus
  payload : Option JObj
  payee : String

/-- An entry of a transfer, as far as it is decided beforehand. -/
def entryOf (t : TransferRow) (currency : CurrencyCode) (amountMinor : ℤ) (what : String) :
    LedgerEntry :=
  Ledger.posted (.transfer t.id) amountMinor (.fiat currency) (entryText t what)

/-- The name a payout of a transfer is described with. -/
def payeeOf (d : World) (t : TransferRow) : String :=
  ((d.recipients.find? fun r => r.id = t.recipientId).map (·.accountName)).getD "beneficiary"

/-- What a transition posts. -/
def legFor (t : TransferRow) (payee : String) (source target : TransferStatus) :
    List LedgerEntry :=
  match target with
  | .funded => [entryOf t t.sendCurrency (negI64 t.sendAmountMinor) "funded"]
  | .settled => [entryOf t t.receiveCurrency t.receiveAmountMinor "converted"]
  | .completed => [entryOf t t.receiveCurrency (negI64 t.receiveAmountMinor) ("paid to " ++ payee)]
  | .reversing =>
    match source with
    | .settled | .payingOut =>
      [entryOf t t.receiveCurrency (negI64 t.receiveAmountMinor) "conversion reversed"]
    | _ => []
  | _ => []

/-- What is posted before a transition. -/
def refundFor (t : TransferRow) (target : TransferStatus) : List LedgerEntry :=
  if target = .reversed then [entryOf t t.sendCurrency t.sendAmountMinor "reversed"] else []

/-- The history row of a transition. -/
def historyFor (t : TransferRow) (target : TransferStatus) (payload : Option JObj) : HistoryRow :=
  ⟨t.id, 0, target, 0, none, payload⟩

/-- The audit row of a transition. -/
def auditFor (t : TransferRow) (source : TransferStatus) (st : PathStep) : AuditRow :=
  (stateChangeAudit t.id none source st.target st.payload).strip

/-- The payload of a step says nothing of a status. -/
def PathStep.Plain (st : PathStep) : Prop := ∀ p, st.payload = some p → p.get "status" = none

/-- An audit row that names two statuses. -/
def changeRow (id : Uuid) (source target : TransferStatus) : AuditRow :=
  { actorId := none
    actorRole := none
    action := stateChange
    entityType := "transfer"
    entityId := id
    before := some [("status", .str source.asStr)]
    after := some [("status", .str target.asStr)] }

/-- The audit row of a plain step. -/
theorem auditFor_of_plain {t : TransferRow} {source : TransferStatus} {st : PathStep}
    (h : st.Plain) : auditFor t source st = changeRow t.id source st.target := by
  have hget : ∀ (fields o : JObj), fields.get "status" = none →
      (fields.foldl (fun o f => o.insert f.1 f.2) o).get "status" = o.get "status" := by
    intro fields o hf
    induction fields generalizing o with
    | nil => rfl
    | cons f fields ih =>
      rw [JObj.get, List.lookup_cons] at hf
      split at hf
      · cases hf
      · rename_i hne
        rw [List.foldl_cons, ih _ hf, JObj.get_insert_of_ne fun he => by simp [he] at hne]
  have hplain : (st.payload.getD []).get "status" = none := by
    cases hp : st.payload with
    | none => rfl
    | some p => exact h p hp
  simp only [auditFor, stateChangeAudit, AuditRow.strip, Option.map_some, hget _ _ hplain]
  rfl

theorem brief_changeAudit (id : Uuid) (actor : Option Uuid) (source target : TransferStatus)
    (payload : Option JObj) :
    (Write.insertAudit (stateChangeAudit id actor source target payload)).brief =
      some (.insertAudit (stateChangeAudit id none source target payload).strip) := by
  simp [Write.brief, stateChangeAudit, stateChange, AuditRow.strip]

/-- What a transition writes. -/
def transitionBrief (t : TransferRow) (source : TransferStatus) (st : PathStep) : List Write :=
  .insertHistory (historyFor t st.target st.payload) :: .setStatus t.id st.target 0 ::
    ((legFor t st.payee source st.target).map .insertEntry ++ [.insertAudit (auditFor t source st)])

/-- What a path writes. -/
def pathBrief (t : TransferRow) : TransferStatus → List PathStep → List Write
  | _, [] => []
  | source, st :: steps => (refundFor t st.target).map .insertEntry ++
      (transitionBrief t source st ++ pathBrief t st.target steps)

/-- The status a path ends in. -/
def pathEnd (source : TransferStatus) (steps : List PathStep) : TransferStatus :=
  steps.foldl (fun _ st => st.target) source

@[simp] theorem pathEnd_nil (s : TransferStatus) : pathEnd s [] = s := rfl

@[simp] theorem pathEnd_cons (s : TransferStatus) (st : PathStep) (steps : List PathStep) :
    pathEnd s (st :: steps) = pathEnd st.target steps := rfl

/-- A path that goes anywhere ends in one of its targets. -/
theorem pathEnd_mem (s : TransferStatus) {steps : List PathStep} (h : steps ≠ []) :
    pathEnd s steps ∈ steps.map (·.target) := by
  induction steps generalizing s with
  | nil => exact absurd rfl h
  | cons st steps ih =>
    rw [pathEnd_cons, List.map_cons]
    by_cases hs : steps = []
    · simp [hs]
    · exact List.mem_cons_of_mem _ (ih _ hs)

/-- The entries a path posts. -/
def pathEntries (t : TransferRow) : TransferStatus → List PathStep → List LedgerEntry
  | _, [] => []
  | source, st :: steps => refundFor t st.target ++
      (legFor t st.payee source st.target ++ pathEntries t st.target steps)

theorem filterMap_entry_map (es : List LedgerEntry) :
    (es.map Write.insertEntry).filterMap Write.entry = es := by
  induction es with
  | nil => rfl
  | cons e es ih => simp [Write.entry, ih]

theorem entry_transitionBrief (t : TransferRow) (source : TransferStatus) (st : PathStep) :
    (transitionBrief t source st).filterMap Write.entry = legFor t st.payee source st.target := by
  simp only [transitionBrief, List.filterMap_cons, List.filterMap_append, filterMap_entry_map,
    Write.entry, List.filterMap_nil, List.append_nil]

theorem entry_pathBrief (t : TransferRow) (source : TransferStatus) (steps : List PathStep) :
    (pathBrief t source steps).filterMap Write.entry = pathEntries t source steps := by
  induction steps generalizing source with
  | nil => rfl
  | cons st steps ih =>
    rw [pathBrief, List.filterMap_append, List.filterMap_append, filterMap_entry_map,
      entry_transitionBrief, ih, pathEntries]

/-- The history rows a path appends. -/
def pathHistory (t : TransferRow) (steps : List PathStep) : List HistoryRow :=
  steps.map fun st => historyFor t st.target st.payload

theorem filterMap_historyRow_map (es : List LedgerEntry) :
    (es.map Write.insertEntry).filterMap Write.historyRow = [] := by
  induction es with
  | nil => rfl
  | cons e es ih => simp [Write.historyRow]

theorem historyRow_pathBrief (t : TransferRow) (source : TransferStatus)
    (steps : List PathStep) :
    (pathBrief t source steps).filterMap Write.historyRow = pathHistory t steps := by
  induction steps generalizing source with
  | nil => rfl
  | cons st steps ih =>
    simp only [pathBrief, pathHistory, transitionBrief, List.filterMap_append, List.cons_append,
      List.filterMap_cons, List.filterMap_nil, filterMap_historyRow_map, ih, Write.historyRow,
      List.map_cons, List.nil_append]

/-- The audit rows a path appends. -/
def pathAudits (t : TransferRow) : TransferStatus → List PathStep → List AuditRow
  | _, [] => []
  | source, st :: steps => auditFor t source st :: pathAudits t st.target steps

theorem filterMap_change_map (es : List LedgerEntry) :
    (es.map Write.insertEntry).filterMap Write.change = [] := by
  induction es with
  | nil => rfl
  | cons e es ih => simp [Write.change]

theorem change_pathBrief (t : TransferRow) (source : TransferStatus) (steps : List PathStep) :
    (pathBrief t source steps).filterMap Write.change = pathAudits t source steps := by
  induction steps generalizing source with
  | nil => rfl
  | cons st steps ih =>
    have ha : Write.change (.insertAudit (auditFor t source st)) = some (auditFor t source st) :=
      rfl
    have hh : ∀ r, Write.change (.insertHistory r) = none := fun _ => rfl
    have hs : ∀ id s now, Write.change (.setStatus id s now) = none := fun _ _ _ => rfl
    simp only [pathBrief, pathAudits, transitionBrief, List.filterMap_append, List.cons_append,
      List.filterMap_cons, List.filterMap_nil, filterMap_change_map, ih, ha, hh, hs,
      List.nil_append]

/-- Every entry of a path is of its transfer. -/
theorem source_of_mem_pathEntries {t : TransferRow} {source : TransferStatus}
    {steps : List PathStep} {e : LedgerEntry} (h : e ∈ pathEntries t source steps) :
    e.source = .transfer t.id := by
  induction steps generalizing source with
  | nil => cases h
  | cons st steps ih =>
    simp only [pathEntries, List.mem_append] at h
    rcases h with h | h | h
    · simp only [refundFor] at h
      split at h
      · rw [List.mem_singleton.1 h]; rfl
      · cases h
    · simp only [legFor] at h
      split at h <;> try split at h
      all_goals first
        | (rw [List.mem_singleton.1 h]; rfl)
        | cases h
    · exact ih h

/-- Every write of a path is about its transfer. -/
theorem about_pathBrief {t : TransferRow} {source : TransferStatus} {steps : List PathStep}
    {w : Write} (h : w ∈ pathBrief t source steps) :
    (∃ e, w = .insertEntry e ∧ e.source = .transfer t.id) ∨
      (∃ r, w = .insertHistory r ∧ r.transferId = t.id) ∨ (∃ s, w = .setStatus t.id s 0) ∨
      ∃ a, w = .insertAudit a ∧ a.entityId = t.id := by
  induction steps generalizing source with
  | nil => cases h
  | cons st steps ih =>
    have hes : ∀ e ∈ pathEntries t source [st], e.source = .transfer t.id :=
      fun e he => source_of_mem_pathEntries he
    simp only [pathEntries, List.append_nil, List.mem_append] at hes
    simp only [pathBrief, transitionBrief, List.mem_append, List.mem_cons, List.mem_map,
      List.not_mem_nil, or_false] at h
    rcases h with ⟨e, he, rfl⟩ | (rfl | rfl | ⟨e, he, rfl⟩ | rfl) | h
    · exact .inl ⟨e, rfl, hes e (.inl he)⟩
    · exact .inr (.inl ⟨_, rfl, rfl⟩)
    · exact .inr (.inr (.inl ⟨_, rfl⟩))
    · exact .inl ⟨e, rfl, hes e (.inr he)⟩
    · exact .inr (.inr (.inr ⟨_, rfl, rfl⟩))
    · exact ih h

/-- A path writes only entries, history rows, statuses and audit rows. -/
theorem filterMap_pathBrief {α : Type} {f : Write → Option α} (he : ∀ e, f (.insertEntry e) = none)
    (hh : ∀ r, f (.insertHistory r) = none) (hs : ∀ id s now, f (.setStatus id s now) = none)
    (ha : ∀ a, f (.insertAudit a) = none) (t : TransferRow) (source : TransferStatus)
    (steps : List PathStep) : (pathBrief t source steps).filterMap f = [] := by
  refine List.filterMap_eq_nil_iff.2 fun w hw => ?_
  obtain ⟨e, rfl, -⟩ | ⟨r, rfl, -⟩ | ⟨s, rfl⟩ | ⟨a, rfl, -⟩ := about_pathBrief hw
  · exact he e
  · exact hh r
  · exact hs _ s 0
  · exact ha a

/-! ### The status of a transfer -/

/-- In `v` the transfer `t` stands at a status. -/
def Stands (t : TransferRow) (s : TransferStatus) (v : World) : Prop :=
  ∃ row, v.transfer t.id = some row ∧ row.core = t.core ∧ row.currentStatus = s

theorem Stands.self {v : World} {t : TransferRow} (h : v.transfer t.id = some t) :
    Stands t t.currentStatus v := ⟨t, h, rfl, rfl⟩

theorem Stands.of_eq {t : TransferRow} {s : TransferStatus} {v v' : World}
    (h : Stands t s v) (he : v.transfer t.id = v'.transfer t.id) : Stands t s v' := by
  obtain ⟨row, hr, hc, hs⟩ := h
  exact ⟨row, he ▸ hr, hc, hs⟩

theorem Stands.status {t : TransferRow} {s : TransferStatus} {v : World} (h : Stands t s v) :
    v.status t.id = some s := by
  obtain ⟨row, hr, -, hs⟩ := h
  simp [World.status, hr, hs]

/-- Where a transfer stands after any writes. -/
theorem Stands.applyAll {t : TransferRow} {s : TransferStatus} {v : World} (h : Stands t s v)
    (ws : List Write) : Stands t (statusIn t.id s ws) (applyAll ws v) := by
  obtain ⟨row, hr, hc, rfl⟩ := h
  obtain ⟨row', hr', hc', hs'⟩ := transfer_applyAll_some hr ws
  exact ⟨row', hr', hc'.trans hc, hs'⟩

theorem Stands.owner {t : TransferRow} {s : TransferStatus} {v : World} (h : Stands t s v) :
    v.Owner (.transfer t.id) t.customerId := by
  obtain ⟨row, hr, hc, -⟩ := h
  exact ⟨row, (World.transfer_mem hr).1, TransferRow.id_of_core hc,
    TransferRow.customerId_of_core hc⟩

theorem statusIn_entries (id : Uuid) (s : TransferStatus) (es : List LedgerEntry) :
    statusIn id s (es.map .insertEntry) = s := by
  induction es with
  | nil => rfl
  | cons e es ih => exact ih

theorem statusIn_pathBrief (t : TransferRow) (source : TransferStatus) (steps : List PathStep) :
    statusIn t.id source (pathBrief t source steps) = pathEnd source steps := by
  induction steps generalizing source with
  | nil => rfl
  | cons st steps ih =>
    rw [pathEnd_cons, ← ih, statusIn, pathBrief, transitionBrief]
    have h₁ := statusIn_entries t.id source (refundFor t st.target)
    have h₂ := statusIn_entries t.id st.target (legFor t st.payee source st.target)
    rw [statusIn] at h₁ h₂
    simp only [List.foldl_append, List.foldl_cons, h₁, Write.statusOf, if_true, h₂]
    rfl

end Kimana.Engine
