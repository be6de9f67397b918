import Kimana.World.Schema

/-!
# What a list of writes adds

The tables that only grow, after a list of writes (`ledger_applyAll` and its companions), and the
row of a transfer after writes that are about another (`transferRows_applyAll`).

* `transfer_applyAll_some` : the row of a transfer after any writes.

`brief` says what a transaction wrote without what is generated on the way: entry ids, times,
positions, running balances, the accounts it opened and the audit rows of no status change.
-/

namespace Kimana

open ReadCommitted Table

/-! ### Tables that only grow -/

/-- The ledger entry a write inserts. -/
def Write.entry : Write → Option LedgerEntry
  | insertEntry e => some e
  | _ => none

/-- The history row a write inserts. -/
def Write.historyRow : Write → Option HistoryRow
  | insertHistory h => some h
  | _ => none

/-- The account a write opens. -/
def Write.account : Write → Option AccountRow
  | insertAccount a => some a
  | _ => none

/-- The payment a write inserts. -/
def Write.payment : Write → Option InboundPayment
  | insertInbound p => some p
  | _ => none

/-- The event a write records. -/
def Write.event : Write → Option SettlementEvent
  | insertEvent e => some e
  | _ => none

/-- The trade a write inserts. -/
def Write.trade : Write → Option TradeRow
  | insertTrade t => some t
  | _ => none

/-- The transfer a write is about: it inserts or changes its row. -/
def Write.transferId : Write → Option Uuid
  | insertTransfer row => some row.id
  | setStatus id _ _ => some id
  | setSettlementRef id _ => some id
  | _ => none

variable {ws vs : List Write} {d : World}

/-- A table to which each write appends what `f` says holds, after a list of writes, what `f` says
of each in order. -/
theorem append_applyAll {α : Type} {table : World → List α} {f : Write → Option α}
    (h : ∀ (w : Write) d, table (w.apply d) = table d ++ (f w).toList) (ws : List Write)
    (d : World) : table (applyAll ws d) = table d ++ ws.filterMap f := by
  induction ws generalizing d with
  | nil => simp
  | cons w ws ih =>
    rw [applyAll_cons, ih]
    change table (w.apply d) ++ _ = _
    rw [h, List.append_assoc]
    cases hw : f w <;> simp [hw]

theorem ledger_applyAll (ws : List Write) (d : World) :
    (applyAll ws d).ledger = d.ledger ++ ws.filterMap Write.entry :=
  append_applyAll (fun w d => by cases w <;> simp [Write.apply, Write.entry]) ws d

theorem history_applyAll (ws : List Write) (d : World) :
    (applyAll ws d).history = d.history ++ ws.filterMap Write.historyRow :=
  append_applyAll (fun w d => by cases w <;> simp [Write.apply, Write.historyRow]) ws d

theorem accounts_applyAll (ws : List Write) (d : World) :
    (applyAll ws d).accounts = d.accounts ++ ws.filterMap Write.account :=
  append_applyAll (fun w d => by cases w <;> simp [Write.apply, Write.account]) ws d

theorem recipients_applyAll (ws : List Write) (d : World) :
    (applyAll ws d).recipients = d.recipients := by
  induction ws generalizing d with
  | nil => rfl
  | cons w ws ih =>
    rw [applyAll_cons, ih]
    cases w <;> rfl

theorem inbound_applyAll (ws : List Write) (d : World) :
    (applyAll ws d).inbound = d.inbound ++ ws.filterMap Write.payment :=
  append_applyAll (fun w d => by cases w <;> simp [Write.apply, Write.payment]) ws d

theorem events_applyAll (ws : List Write) (d : World) :
    (applyAll ws d).events = d.events ++ ws.filterMap Write.event :=
  append_applyAll (fun w d => by cases w <;> simp [Write.apply, Write.event]) ws d

theorem trades_applyAll (ws : List Write) (d : World) :
    (applyAll ws d).trades = d.trades ++ ws.filterMap Write.trade :=
  append_applyAll (fun w d => by cases w <;> simp [Write.apply, Write.trade]) ws d

theorem entriesOfTransfer_applyAll (ws : List Write) (d : World) (id : Uuid) :
    (applyAll ws d).entriesOfTransfer id = d.entriesOfTransfer id ++
      (ws.filterMap Write.entry).filter fun e => e.source = .transfer id := by
  simp [World.entriesOfTransfer, ledger_applyAll]

theorem historyOf_applyAll (ws : List Write) (d : World) (id : Uuid) :
    (applyAll ws d).historyOf id = d.historyOf id ++
      (ws.filterMap Write.historyRow).filter fun h => h.transferId = id := by
  simp [World.historyOf, history_applyAll]

theorem balance_applyAll (ws : List Write) (d : World) (acct : Uuid) :
    (applyAll ws d).balance acct = d.balance acct +
      (((ws.filterMap Write.entry).filter fun e => e.accountId = acct).map
        (·.amountMinor)).sum := by
  simp [World.balance, World.entriesOf, ledger_applyAll]

/-! ### Transfers -/

/-- A write that is about no transfer, or about another one. -/
theorem Write.transferRows_apply {w : Write} {id : Uuid} (h : w.transferId ≠ some id) (d : World) :
    (w.apply d).transferRows id = d.transferRows id := by
  cases w <;> try rfl
  case insertTransfer row =>
    have hne : row.id ≠ id := by simpa [Write.transferId] using h
    simp [World.transferRows, Write.apply, hne]
  case setStatus id' s now =>
    have hne : id' ≠ id := by simpa [Write.transferId] using h
    exact (d.transferRows_setStatus ..).trans (updateWhere_transferRows hne.symm)
  case setSettlementRef id' ref =>
    have hne : id' ≠ id := by simpa [Write.transferId] using h
    exact (d.transferRows_setSettlementRef ..).trans (updateWhere_transferRows hne.symm)

theorem transferRows_applyAll {id : Uuid} (h : ∀ w ∈ ws, w.transferId ≠ some id) (d : World) :
    (applyAll ws d).transferRows id = d.transferRows id := by
  induction ws generalizing d with
  | nil => rfl
  | cons w ws ih =>
    rw [applyAll_cons, ih fun v hv => h v (List.mem_cons_of_mem _ hv)]
    exact w.transferRows_apply (h w List.mem_cons_self) d

theorem transfer_applyAll {id : Uuid} (h : ∀ w ∈ ws, w.transferId ≠ some id) (d : World) :
    (applyAll ws d).transfer id = d.transfer id := by
  rw [World.transfer_eq, World.transfer_eq, transferRows_applyAll h]

theorem transfer_setStatus {id : Uuid} {t : TransferRow} (h : d.transfer id = some t)
    (s : TransferStatus) (now : Time) :
    ((Write.setStatus id s now).apply d).transfer id = some (t.withStatus s now) := by
  have hid : t.id = id := (World.transfer_mem h).2
  have : (updateWhere (·.id = id) (·.withStatus s now) d.transfers).find? (·.id = id) = _ :=
    find?_updateWhere fun _ => rfl
  refine this.trans ?_
  change (d.transfer id).map _ = _
  simp [h, hid]

/-- The status a write leaves a transfer in. -/
def Write.statusOf (id : Uuid) (s : TransferStatus) : Write → TransferStatus
  | setStatus id' s' _ => if id' = id then s' else s
  | _ => s

/-- The status a list of writes leaves a transfer in. -/
def statusIn (id : Uuid) (s : TransferStatus) (ws : List Write) : TransferStatus :=
  ws.foldl (Write.statusOf id) s

/-- A write changes of an existing transfer only the status, the time and the vault's key. -/
theorem transfer_apply {id : Uuid} {t : TransferRow} (h : d.transfer id = some t) (w : Write) :
    ∃ t', (w.apply d).transfer id = some t' ∧ t'.core = t.core ∧
      t'.currentStatus = w.statusOf id t.currentStatus := by
  have hid : t.id = id := (World.transfer_mem h).2
  cases w <;> try exact ⟨t, h, rfl, rfl⟩
  case insertTransfer row =>
    refine ⟨t, ?_, rfl, rfl⟩
    rw [World.transfer] at h ⊢
    simp [Write.apply, h]
  case setStatus id' s now =>
    by_cases hne : id' = id
    · subst hne
      exact ⟨_, transfer_setStatus h s now, rfl, by simp [Write.statusOf, TransferRow.withStatus]⟩
    · refine ⟨t, ?_, rfl, by simp [Write.statusOf, hne]⟩
      rw [World.transfer_eq, Write.transferRows_apply (by simpa [Write.transferId]),
        ← World.transfer_eq, h]
  case setSettlementRef id' ref =>
    have : (updateWhere (·.id = id') (·.withRef ref) d.transfers).find? (·.id = id) = _ :=
      find?_updateWhere fun _ => rfl
    refine ⟨_, this.trans (congrArg _ h), ?_, ?_⟩ <;> dsimp only <;> split <;> rfl

theorem transfer_applyAll_some {id : Uuid} {t : TransferRow} (h : d.transfer id = some t)
    (ws : List Write) : ∃ t', (applyAll ws d).transfer id = some t' ∧ t'.core = t.core ∧
      t'.currentStatus = statusIn id t.currentStatus ws := by
  induction ws generalizing d t with
  | nil => exact ⟨t, h, rfl, rfl⟩
  | cons w ws ih =>
    obtain ⟨t₁, h₁, hc₁, hs₁⟩ := transfer_apply h w
    obtain ⟨t₂, h₂, hc₂, hs₂⟩ := ih h₁
    exact ⟨t₂, h₂, hc₂.trans hc₁, by rw [hs₂, hs₁]; rfl⟩

/-- A transaction moves a transfer only along the table. -/
theorem goes_applyAll {ℓ : List Key} {ids : List ℕ} {ws : List Write} (hv : Valid ℓ ids d ws)
    {id : Uuid} {t : TransferRow} (h : d.transfer id = some t) :
    ∃ t', (applyAll ws d).transfer id = some t' ∧
      Relation.ReflTransGen TransferStatus.Goes t.currentStatus t'.currentStatus := by
  induction ws generalizing d t with
  | nil => exact ⟨t, h, .refl⟩
  | cons w ws ih =>
    obtain ⟨t₁, h₁, -, hs₁⟩ := transfer_apply h w
    obtain ⟨t₂, h₂, hgo⟩ := ih hv.2 h₁
    refine ⟨t₂, h₂, .trans ?_ hgo⟩
    rw [hs₁]
    cases w <;> try exact .refl
    case setStatus id' s now =>
      simp only [Write.statusOf]
      split
      case isFalse => exact .refl
      case isTrue hid =>
        obtain ⟨t₀, ht₀, hall⟩ := hv.1.ok
        rw [hid, h] at ht₀
        cases ht₀
        exact .single hall

/-- So it moves only up. -/
theorem rank_le_applyAll {ℓ : List Key} {ids : List ℕ} {ws : List Write} (hv : Valid ℓ ids d ws)
    {id : Uuid} {t : TransferRow} (h : d.transfer id = some t) :
    ∃ t', (applyAll ws d).transfer id = some t' ∧
      t.currentStatus.rank ≤ t'.currentStatus.rank := by
  obtain ⟨t', ht', hgo⟩ := goes_applyAll hv h
  exact ⟨t', ht', TransferStatus.rank_le_of_goes hgo⟩

/-! ### What a transaction wrote, in brief -/

/-- An entry without what is generated when it is posted. -/
def LedgerEntry.strip (e : LedgerEntry) : LedgerEntry :=
  { e with id := 0, accountId := 0, runningBalanceMinor := 0, reversalOfEntryId := none,
           postedAt := 0 }

/-- A history row without its position and time. -/
def HistoryRow.strip (h : HistoryRow) : HistoryRow := { h with position := 0, enteredAt := 0 }

/-- The action of the audit rows of status changes. -/
def stateChange : String := "transfer.state_change"

/-- An audit row without its actor, down to the statuses. -/
def AuditRow.strip (a : AuditRow) : AuditRow :=
  { a with actorId := none, actorRole := none,
           after := a.after.map fun o => [("status", (o.get "status").getD .null)] }

/-- A write in brief. -/
def Write.brief : Write → Option Write
  | insertAccount _ => none
  | insertAudit a => if a.action = stateChange then some (insertAudit a.strip) else none
  | insertEntry e => some (insertEntry e.strip)
  | insertHistory h => some (insertHistory h.strip)
  | setStatus id s _ => some (setStatus id s 0)
  | payCollection id _ => some (payCollection id 0)
  | cancelCollection id _ => some (cancelCollection id 0)
  | w => some w

/-- The writes of a transaction in brief. -/
def brief (ws : List Write) : List Write := ws.filterMap Write.brief

@[simp] theorem brief_nil : brief [] = [] := rfl

@[simp] theorem brief_append (ws vs : List Write) : brief (ws ++ vs) = brief ws ++ brief vs :=
  List.filterMap_append ..

@[simp] theorem brief_cons (w : Write) (ws : List Write) :
    brief (w :: ws) = w.brief.toList ++ brief ws := by
  cases h : w.brief <;> simp [brief, h]

/-- What a projection that brief writes keep, up to `g`, finds in the writes of a transaction. -/
theorem filterMap_brief {α : Type} {f : Write → Option α} {g : α → α}
    (h : ∀ w : Write, w.brief.bind f = (f w).map g) (ws : List Write) :
    (brief ws).filterMap f = (ws.filterMap f).map g := by
  induction ws with
  | nil => rfl
  | cons w ws ih =>
    have hw := h w
    cases hb : w.brief <;> cases hf : f w <;> rw [hb, hf] at hw <;>
      simp_all [brief]

namespace Write

@[simp] theorem brief_insertEntry (e : LedgerEntry) :
    (insertEntry e).brief = some (insertEntry e.strip) := rfl

@[simp] theorem brief_insertHistory (h : HistoryRow) :
    (insertHistory h).brief = some (insertHistory h.strip) := rfl

@[simp] theorem brief_setStatus (id : Uuid) (s : TransferStatus) (now : Time) :
    (setStatus id s now).brief = some (setStatus id s 0) := rfl

@[simp] theorem brief_insertTransfer (row : TransferRow) :
    (insertTransfer row).brief = some (insertTransfer row) := rfl

@[simp] theorem brief_setSettlementRef (id : Uuid) (ref : B256) :
    (setSettlementRef id ref).brief = some (setSettlementRef id ref) := rfl

@[simp] theorem brief_consumeQuote (id transferId : Uuid) :
    (consumeQuote id transferId).brief = some (consumeQuote id transferId) := rfl

@[simp] theorem brief_insertTrade (row : TradeRow) :
    (insertTrade row).brief = some (insertTrade row) := rfl

end Write

theorem Write.brief_of_action {a : AuditRow} (h : a.action ≠ stateChange) :
    (insertAudit a).brief = none := by simp [brief, h]

theorem Write.brief_insertAudit (a : AuditRow) : (insertAudit a).brief = none ∨
    (insertAudit a).brief = some (insertAudit a.strip) := by
  by_cases h : a.action = stateChange <;> simp [brief, h]

/-- A projection that does not look at audit rows. -/
theorem filterMap_brief_of_audit {α : Type} {f : Write → Option α} {g : α → α}
    (ha : ∀ a, f (.insertAudit a) = none)
    (h : ∀ w : Write, (∃ a, w = .insertAudit a) ∨ w.brief.bind f = (f w).map g) (ws : List Write) :
    (brief ws).filterMap f = (ws.filterMap f).map g := by
  refine filterMap_brief (fun w => ?_) ws
  obtain ⟨a, rfl⟩ | hw := h w
  · rcases Write.brief_insertAudit a with hb | hb <;> rw [hb, ha] <;> simp [ha]
  · exact hw

theorem entries_brief (ws : List Write) :
    (brief ws).filterMap Write.entry = (ws.filterMap Write.entry).map LedgerEntry.strip :=
  filterMap_brief_of_audit (fun _ => rfl)
    (fun w => by cases w <;> first | exact .inr rfl | exact .inl ⟨_, rfl⟩) ws

theorem balance_of_brief {ws : List Write} (h : brief ws = []) (d : World) (acct : Uuid) :
    (applyAll ws d).balance acct = d.balance acct := by
  have := entries_brief ws
  rw [h, List.filterMap_nil, eq_comm, List.map_eq_nil_iff] at this
  rw [balance_applyAll, this]
  simp

theorem historyRows_brief (ws : List Write) :
    (brief ws).filterMap Write.historyRow = (ws.filterMap Write.historyRow).map HistoryRow.strip :=
  filterMap_brief_of_audit (fun _ => rfl)
    (fun w => by cases w <;> first | exact .inr rfl | exact .inl ⟨_, rfl⟩) ws

theorem payments_brief (ws : List Write) :
    (brief ws).filterMap Write.payment = ws.filterMap Write.payment := by
  rw [filterMap_brief_of_audit (g := id) (fun _ => rfl)
    (fun w => by cases w <;> first | exact .inr rfl | exact .inl ⟨_, rfl⟩), List.map_id]

/-- The audit row of a status change that a write inserts. -/
def Write.change : Write → Option AuditRow
  | insertAudit a => if a.action = stateChange then some a else none
  | _ => none

/-- The audit rows of a transfer's status changes. -/
def World.stateChanges (d : World) (id : Uuid) : List AuditRow :=
  d.audit.filter fun a => a.action = stateChange && a.entityId = id

theorem stateChanges_applyAll (ws : List Write) (d : World) (id : Uuid) :
    (applyAll ws d).stateChanges id = d.stateChanges id ++
      (ws.filterMap Write.change).filter fun a => a.entityId = id := by
  have h := @append_applyAll _ (fun d => d.audit.filter fun a => a.action = stateChange)
    Write.change (fun w d => by
      cases w <;> simp [Write.apply, Write.change]
      case insertAudit a => by_cases ha : a.action = stateChange <;> simp [ha]) ws d
  have hsplit : ∀ d : World, d.stateChanges id =
      (d.audit.filter fun a => a.action = stateChange).filter
        fun a => a.entityId = id := fun d => by
    rw [List.filter_filter, World.stateChanges]
    exact List.filter_congr fun a _ => Bool.and_comm ..
  rw [hsplit, h, List.filter_append, ← hsplit]

theorem changes_brief (ws : List Write) :
    (brief ws).filterMap Write.change = (ws.filterMap Write.change).map AuditRow.strip := by
  refine filterMap_brief (fun w => ?_) ws
  cases w <;> try rfl
  case insertAudit a =>
    by_cases ha : a.action = stateChange
    · simp [Write.brief, Write.change, ha, AuditRow.strip]
    · simp [Write.brief, Write.change, ha]

theorem events_brief (ws : List Write) :
    (brief ws).filterMap Write.event = ws.filterMap Write.event := by
  rw [filterMap_brief_of_audit (g := id) (fun _ => rfl)
    (fun w => by cases w <;> first | exact .inr rfl | exact .inl ⟨_, rfl⟩), List.map_id]

theorem trades_brief (ws : List Write) :
    (brief ws).filterMap Write.trade = ws.filterMap Write.trade := by
  rw [filterMap_brief_of_audit (g := id) (fun _ => rfl)
    (fun w => by cases w <;> first | exact .inr rfl | exact .inl ⟨_, rfl⟩), List.map_id]

theorem statusIn_brief (id : Uuid) (s : TransferStatus) (ws : List Write) :
    statusIn id s (brief ws) = statusIn id s ws := by
  induction ws generalizing s with
  | nil => rfl
  | cons w ws ih =>
    cases w with
    | insertAudit a =>
      rw [brief_cons]
      rcases Write.brief_insertAudit a with hb | hb <;> rw [hb] <;> exact ih _
    | _ => exact ih _

theorem transferId_brief {id : Uuid} (h : ∀ w ∈ brief ws, w.transferId ≠ some id) :
    ∀ w ∈ ws, w.transferId ≠ some id := by
  intro w hw
  cases hb : w.brief with
  | none => cases w <;> simp_all [Write.brief, Write.transferId]
  | some v =>
    have := h v (List.mem_filterMap.2 ⟨w, hw, hb⟩)
    cases w with
    | insertAudit a => simp [Write.transferId]
    | _ => cases hb <;> exact this

/-! ### Vault keys -/

/-- The transfer with an id, and no other, has a vault key. -/
def World.HasRef (d : World) (ref : B256) (id : Uuid) : Prop :=
  (∃ t ∈ d.transfers, t.settlementRef = some ref) ∧
    ∀ t ∈ d.transfers, t.settlementRef = some ref → t.id = id

/-- A vault key is never given to a second transfer. -/
theorem World.HasRef.apply {ref : B256} {id : Uuid} (h : d.HasRef ref id) {w : Write}
    {ℓ : List Key} {ids : List ℕ} (hv : w.Valid ℓ ids d) : (w.apply d).HasRef ref id := by
  obtain ⟨⟨t₀, ht₀, hr₀⟩, hall⟩ := h
  cases w
  case insertTransfer row =>
    refine ⟨⟨t₀, List.mem_append_left _ ht₀, hr₀⟩, fun t ht hr => ?_⟩
    rcases List.mem_append.1 ht with ht | ht
    · exact hall t ht hr
    · rw [List.mem_singleton.1 ht, hv.ok.1] at hr
      cases hr
  case setStatus tid s now =>
    refine ⟨⟨_, mem_updateWhere ht₀, by split <;> exact hr₀⟩, fun t ht hr => ?_⟩
    obtain ⟨t₁, ht₁, rfl⟩ := of_mem_updateWhere ht
    by_cases hp : decide (t₁.id = tid) = true
    · rw [if_pos hp] at hr ⊢
      exact hall t₁ ht₁ hr
    · rw [if_neg hp] at hr ⊢
      exact hall t₁ ht₁ hr
  case setSettlementRef tid r =>
    obtain ⟨-, hnone, hfree⟩ := hv.ok
    refine ⟨⟨_, mem_updateWhere ht₀, ?_⟩, fun t ht hr => ?_⟩
    · split
      case isFalse => exact hr₀
      case isTrue htid =>
        rw [hnone t₀ (List.mem_filter.2 ⟨ht₀, htid⟩)] at hr₀
        cases hr₀
    · obtain ⟨t₁, ht₁, rfl⟩ := of_mem_updateWhere ht
      by_cases hp : decide (t₁.id = tid) = true
      · rw [if_pos hp] at hr
        cases hr
        exact absurd hr₀ (by simpa using List.any_eq_false.1 hfree t₀ ht₀)
      · rw [if_neg hp] at hr ⊢
        exact hall t₁ ht₁ hr
  all_goals exact ⟨⟨t₀, ht₀, hr₀⟩, hall⟩

theorem World.HasRef.applyAll {ref : B256} {id : Uuid} {ℓ : List Key} {ids : List ℕ}
    {ws : List Write} {d : World} (h : d.HasRef ref id) (hv : Valid ℓ ids d ws) :
    (applyAll ws d).HasRef ref id := by
  induction ws generalizing d with
  | nil => exact h
  | cons w ws ih => exact ih (h.apply hv.1) hv.2

end Kimana
