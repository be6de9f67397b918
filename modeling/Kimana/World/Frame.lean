import Kimana.Write
import Kimana.Transfers.StateMachine
import Kimana.Util
import Mathlib.Tactic.Common

/-!
# Frames

What a write needs, what it promises and what it leaves alone.

* `Write.keys` : the locks a transaction must hold for a write; `Write.Ok` : what must be true of
  the database it is carried out on; `Valid` : both, for the writes of a transaction in order.
* `World.seen` : what the holder of a lock relies on.
* `Agree` : two worlds that look the same to a transaction.  What others commit is agreeable
  (`Valid.agree_others`), and what was valid stays valid (`Valid.agree`).
-/

namespace Kimana

open ReadCommitted Table Util

/-! ### What a lock protects -/

/-- The part of the database that a lock protects. -/
inductive Seen
  | nothing
  | transfer (rows : List TransferRow) (history : List HistoryRow)
  | entries (rows : List LedgerEntry)
  | quote (row : Option QuoteRow)
  | collection (row : Option CollectionRow) (payment : Option InboundPayment)
  | account (id : Option Uuid)
  | transferKey (id : Option Uuid)
  | taken (b : Bool)
  | trade (row : Option TradeRow)
  | payment (row : Option InboundPayment)
  | event (row : Option SettlementEvent)

/-- What the holder of a lock relies on. -/
def World.seen (d : World) : Key → Seen
  | .customer _ => .nothing
  | .transfer id => .transfer (d.transferRows id) (d.historyOf id)
  | .account id => .entries (d.entriesOf id)
  | .quote id => .quote (d.quote id)
  | .collection id => .collection (d.collection id) (d.paymentFor id)
  | .accountKey c currency => .account (d.accountOf c currency)
  | .transferKey c key => .transferKey ((d.transferByKey c key).map (·.id))
  | .transferReference r => .taken (d.transfers.any fun t => t.reference = r)
  | .settlementRef r => .taken (d.transfers.any fun t => t.settlementRef = some r)
  | .tradeKey c key => .trade (d.tradeByKey c key)
  | .tradeReference r => .taken (d.trades.any fun t => t.reference = r)
  | .paymentKey p i => .payment (d.paymentByKey p i)
  | .eventKey h i => .event (d.eventByKey h i)

/-- The columns of a transfer that never change. -/
def TransferRow.core (t : TransferRow) : TransferRow :=
  { t with currentStatus := .created, updatedAt := 0, settlementRef := none }

/-- The columns of a quote that never change. -/
def QuoteRow.core (q : QuoteRow) : QuoteRow := { q with consumedByTransferId := none }

/-- The columns of a payment request that never change. -/
def CollectionRow.core (c : CollectionRow) : CollectionRow :=
  { c with status := .pending, paidAt := none, cancelledAt := none }

/-- The customer on whose account an entry of a source is posted. -/
def World.Owner (d : World) : EntrySource → Uuid → Prop
  | .transfer id, c => ∃ t ∈ d.transfers, t.id = id ∧ t.customerId = c
  | .settlementTrade id, c => ∃ t ∈ d.trades, t.id = id ∧ t.customerId = c
  | .inboundPayment id, c => ∃ p ∈ d.inbound, p.id = id ∧ p.customerId = c

/-- No row has this id. -/
structure World.Unused (d : World) (n : Uuid) : Prop where
  transfer : ∀ t ∈ d.transfers, t.id ≠ n
  account : ∀ a ∈ d.accounts, a.id ≠ n
  entry : ∀ e ∈ d.ledger, e.id ≠ n
  trade : ∀ t ∈ d.trades, t.id ≠ n
  payment : ∀ p ∈ d.inbound, p.id ≠ n

/-! ### Writes -/

/-- The locks a transaction holds when it carries out a write. -/
def Write.keys : Write → List Key
  | insertTransfer row => [.transfer row.id, .transferReference row.reference,
      .transferKey row.customerId row.idempotencyKey]
  | setStatus id _ _ => [.transfer id]
  | setSettlementRef id ref => [.transfer id, .settlementRef ref]
  | insertHistory row => [.transfer row.transferId]
  | insertAccount row => [.accountKey row.customerId row.currency]
  | insertEntry row => [.account row.accountId]
  | insertAudit _ => []
  | consumeQuote id _ => [.quote id]
  | insertTrade row => [.tradeKey row.customerId row.idempotencyKey, .tradeReference row.reference]
  | insertInbound row => .paymentKey row.provider row.providerPaymentId ::
      (row.collectionId.map Key.collection).toList
  | payCollection id _ => [.collection id]
  | cancelCollection id _ => [.collection id]
  | insertEvent row => [.eventKey row.txHash row.logIndex]
  | saveCursor _ => []

/-- The row id a write publishes. -/
def Write.publishes : Write → Option Uuid
  | insertTransfer row => some row.id
  | insertAccount row => some row.id
  | insertEntry row => some row.id
  | insertTrade row => some row.id
  | insertInbound row => some row.id
  | _ => none

/-- What is true of the database a write is carried out on. -/
def Write.Ok : Write → World → Prop
  | insertTransfer row, d => row.settlementRef = none ∧
      d.transfers.any (fun t => t.reference = row.reference) = false ∧
      d.transferByKey row.customerId row.idempotencyKey = none ∧
      ∃ r ∈ d.recipients, r.id = row.recipientId
  | setStatus id status _, d => ∃ t, d.transfer id = some t ∧ status ∈ t.currentStatus.allowed
  | setSettlementRef id ref, d => (∃ t, d.transfer id = some t) ∧
      (∀ t ∈ d.transferRows id, t.settlementRef = none) ∧
      d.transfers.any (fun t => t.settlementRef = some ref) = false
  | insertHistory row, d => (∃ t, d.transfer row.transferId = some t) ∧
      row.position = d.nextPosition row.transferId
  | insertAccount row, d => d.accountOf row.customerId row.currency = none
  | insertEntry row, d => (FitsI64 (d.balance row.accountId) ∧
        row.runningBalanceMinor = asI64 (d.balance row.accountId + row.amountMinor)) ∧
      ∃ a ∈ d.accounts, a.id = row.accountId ∧ a.currency = row.currency ∧
        d.Owner row.source a.customerId
  | insertAudit _, _ => True
  | consumeQuote id transferId, d => (∃ q, d.quote id = some q ∧ q.consumedByTransferId = none) ∧
      ∃ t ∈ d.transfers, t.id = transferId
  | insertTrade row, d => d.tradeByKey row.customerId row.idempotencyKey = none ∧
      d.trades.any (fun t => t.reference = row.reference) = false
  | insertInbound row, d => d.paymentByKey row.provider row.providerPaymentId = none ∧
      0 < row.amountMinor ∧ ∀ c, row.collectionId = some c → d.paymentFor c = none ∧
        ∃ r, d.collection c = some r ∧ r.customerId = row.customerId
  | payCollection id _, d => (∃ r, d.collection id = some r) ∧ (d.paymentFor id).isSome
  | cancelCollection id _, d => ∃ r, d.collection id = some r ∧ r.status = .pending
  | insertEvent row, d => d.eventByKey row.txHash row.logIndex = none ∧
      ∃ t ∈ d.transfers, t.id = row.transferId
  | saveCursor _, _ => True

/-- A transaction that holds locks `ℓ` and drew `ids` may carry out a write. -/
structure Write.Valid (w : Write) (ℓ : List Key) (ids : List ℕ) (d : World) : Prop where
  locked : ∀ k ∈ w.keys, k ∈ ℓ
  ok : w.Ok d
  fresh : ∀ n, w.publishes = some n → n ∈ ids ∧ d.Unused n

/-- A transaction that holds locks `ℓ` and drew `ids` may carry out its writes in order. -/
def Valid (ℓ : List Key) (ids : List ℕ) : World → List Write → Prop
  | _, [] => True
  | d, w :: ws => w.Valid ℓ ids d ∧ Valid ℓ ids (w.apply d) ws

theorem valid_append {ℓ : List Key} {ids : List ℕ} {d : World} {ws vs : List Write} :
    Valid ℓ ids d (ws ++ vs) ↔ Valid ℓ ids d ws ∧ Valid ℓ ids (applyAll ws d) vs := by
  induction ws generalizing d with
  | nil => exact ⟨fun h => ⟨trivial, h⟩, And.right⟩
  | cons w ws ih =>
    simp only [List.cons_append, Valid, ih, applyAll_cons, and_assoc]
    exact Iff.rfl

theorem Write.Valid.mono {w : Write} {ℓ ℓ' : List Key} {ids ids' : List ℕ} {d : World}
    (h : w.Valid ℓ ids d) (hℓ : ∀ k ∈ ℓ, k ∈ ℓ') (hids : ∀ n ∈ ids, n ∈ ids') :
    w.Valid ℓ' ids' d :=
  ⟨fun k hk => hℓ k (h.locked k hk), h.ok, fun n hn => ⟨hids n (h.fresh n hn).1, (h.fresh n hn).2⟩⟩

theorem Valid.mono {ℓ ℓ' : List Key} {ids ids' : List ℕ} {ws : List Write} {d : World}
    (h : Valid ℓ ids d ws) (hℓ : ∀ k ∈ ℓ, k ∈ ℓ') (hids : ∀ n ∈ ids, n ∈ ids') :
    Valid ℓ' ids' d ws := by
  induction ws generalizing d with
  | nil => trivial
  | cons w ws ih => exact ⟨h.1.mono hℓ hids, ih h.2⟩

/-- What every valid write keeps, the writes of a transaction keep. -/
theorem Valid.invariant {ℓ : List Key} {ids : List ℕ} {ws : List Write} {d : World}
    {I : World → Prop} (h : Valid ℓ ids d ws) (h₀ : I d)
    (hstep : ∀ (w : Write) d, I d → w.Valid ℓ ids d → I (w.apply d)) : I (applyAll ws d) := by
  induction ws generalizing d with
  | nil => exact h₀
  | cons w ws ih => exact ih h.2 (hstep w d h₀ h.1)

/-! ### What a write leaves alone -/

theorem World.transfer_eq (d : World) (id : Uuid) : d.transfer id = (d.transferRows id).head? := by
  simp [World.transfer, World.transferRows]

theorem World.transferRows_setStatus (d : World) (id id' : Uuid) (s : TransferStatus)
    (now : Time) : ((Write.setStatus id s now).apply d).transferRows id' =
      updateWhere (·.id = id) (·.withStatus s now) (d.transferRows id') :=
  filter_updateWhere (f := fun t : TransferRow => t.withStatus s now) fun _ => rfl

theorem World.transferRows_setSettlementRef (d : World) (id id' : Uuid) (ref : B256) :
    ((Write.setSettlementRef id ref).apply d).transferRows id' =
      updateWhere (·.id = id) (·.withRef ref) (d.transferRows id') :=
  filter_updateWhere (f := fun t : TransferRow => t.withRef ref) fun _ => rfl

theorem World.quote_consumeQuote (d : World) (id id' t : Uuid) :
    ((Write.consumeQuote id t).apply d).quote id' = (d.quote id').map fun q =>
      if q.id = id && q.consumedByTransferId.isNone then q.consumedBy t else q :=
  find?_updateWhere (f := fun q : QuoteRow => q.consumedBy t) fun _ => rfl

theorem World.collection_payCollection (d : World) (id id' : Uuid) (now : Time) :
    ((Write.payCollection id now).apply d).collection id' =
      (d.collection id').map fun c => if decide (c.id = id) then c.asPaid now else c :=
  find?_updateWhere (f := fun c : CollectionRow => c.asPaid now) fun _ => rfl

theorem World.collection_cancelCollection (d : World) (id id' : Uuid) (now : Time) :
    ((Write.cancelCollection id now).apply d).collection id' =
      (d.collection id').map fun c => if decide (c.id = id) then c.asCancelled now else c :=
  find?_updateWhere (f := fun c : CollectionRow => c.asCancelled now) fun _ => rfl

theorem updateWhere_transferRows {d : World} {id id' : Uuid} {f : TransferRow → TransferRow}
    (h : id' ≠ id) : updateWhere (·.id = id) f (d.transferRows id') = d.transferRows id' := by
  refine updateWhere_of_disjoint fun t ht => ?_
  simp only [World.transferRows, List.mem_filter, decide_eq_true_eq] at ht
  simpa [ht.2] using h

/-- A key that no row with the id has is taken or not, whatever is stored in those rows. -/
theorem any_withRef {d : World} {id : Uuid} {ref r : B256} (hne : r ≠ ref)
    (h : ∀ t ∈ d.transferRows id, t.settlementRef = none) :
    ((Write.setSettlementRef id ref).apply d).transfers.any (fun t => t.settlementRef = some r) =
      d.transfers.any fun t => t.settlementRef = some r := by
  simp only [Write.apply, updateWhere, List.any_map]
  rw [Bool.eq_iff_iff, List.any_eq_true, List.any_eq_true]
  refine exists_congr fun t => and_congr_right fun ht => ?_
  have := h t
  simp only [World.transferRows, List.mem_filter, ht, true_and, decide_eq_true_eq] at this
  simp only [Function.comp_apply, TransferRow.withRef]
  grind

theorem any_withRef_self {d : World} {id : Uuid} {ref : B256} (h : ∃ t, d.transfer id = some t) :
    ((Write.setSettlementRef id ref).apply d).transfers.any
      (fun t => t.settlementRef = some ref) = true := by
  obtain ⟨t, ht⟩ := h
  have hid : t.id = id := by simpa using List.find?_some ht
  refine List.any_eq_true.2 ⟨_, mem_updateWhere (List.mem_of_find?_eq_some ht), ?_⟩
  simp [hid, TransferRow.withRef]

/-- A write leaves alone what the locks it does not need protect. -/
theorem Write.seen_apply {w : Write} {d : World} (hok : w.Ok d) {k : Key} (hk : k ∉ w.keys) :
    (w.apply d).seen k = d.seen k := by
  cases w <;> cases k <;> try rfl
  all_goals simp only [Write.keys, List.mem_cons, List.not_mem_nil, or_false] at hk
  case setSettlementRef.settlementRef id ref r =>
    exact congrArg Seen.taken (any_withRef (by grind) hok.2.1)
  case insertTransfer.settlementRef row ref =>
    simp [World.seen, Write.apply, hok.1]
  case setStatus.transferKey | setSettlementRef.transferKey =>
    exact congrArg Seen.transferKey (map_find?_updateWhere (fun _ => rfl) fun _ => rfl)
  case setStatus.transferReference | setSettlementRef.transferReference | setStatus.settlementRef =>
    exact congrArg Seen.taken (any_updateWhere fun _ => rfl)
  case setStatus.transfer =>
    exact congrArg (Seen.transfer · _)
      ((d.transferRows_setStatus ..).trans (updateWhere_transferRows (by grind)))
  case setSettlementRef.transfer =>
    exact congrArg (Seen.transfer · _)
      ((d.transferRows_setSettlementRef ..).trans (updateWhere_transferRows (by grind)))
  case consumeQuote.quote =>
    refine congrArg Seen.quote (find?_updateWhere_of_disjoint (fun _ => rfl) ?_)
    grind
  case payCollection.collection | cancelCollection.collection =>
    refine congrArg (Seen.collection · _) (find?_updateWhere_of_disjoint (fun _ => rfl) ?_)
    grind
  all_goals
    simp only [World.seen, Write.apply, World.transferRows, World.historyOf, World.transferByKey,
      World.accountOf, World.entriesOf, World.tradeByKey, World.collection, World.paymentFor,
      World.paymentByKey, World.eventByKey, List.find?_append, List.filter_append, List.any_append]
    grind

/-- What a write makes of what a lock protects is determined by what its own locks and that lock
protect. -/
theorem Write.seen_congr {w : Write} {d d' : World} (hok : w.Ok d) (hok' : w.Ok d')
    (hw : ∀ k ∈ w.keys, d.seen k = d'.seen k) {k : Key} (hk : d.seen k = d'.seen k) :
    (w.apply d).seen k = (w.apply d').seen k := by
  by_cases hkw : k ∉ w.keys
  · rw [Write.seen_apply hok hkw, Write.seen_apply hok' hkw, hk]
  rw [not_not] at hkw
  cases w <;> cases k <;>
    simp only [Write.keys, List.mem_cons, List.not_mem_nil, or_false, reduceCtorEq, false_or,
      or_self, Option.mem_toList, Option.map_eq_some_iff,  and_false, exists_false] at hkw
  case setStatus.transfer id s now id' =>
    obtain ⟨hr, hh⟩ := Seen.transfer.inj hk
    simp only [World.seen, World.transferRows_setStatus, hr]
    exact congrArg (Seen.transfer _) hh
  case setSettlementRef.transfer =>
    obtain ⟨hr, hh⟩ := Seen.transfer.inj hk
    simp only [World.seen, World.transferRows_setSettlementRef, hr]
    exact congrArg (Seen.transfer _) hh
  case setSettlementRef.settlementRef id ref r =>
    cases Key.settlementRef.inj hkw
    exact congrArg Seen.taken
      ((any_withRef_self hok.1).trans (any_withRef_self hok'.1).symm)
  case consumeQuote.quote =>
    simp only [World.seen, World.quote_consumeQuote, Seen.quote.inj hk]
  case payCollection.collection =>
    obtain ⟨hr, hp⟩ := Seen.collection.inj hk
    simp only [World.seen, World.collection_payCollection, hr]
    exact congrArg (Seen.collection _) hp
  case cancelCollection.collection =>
    obtain ⟨hr, hp⟩ := Seen.collection.inj hk
    simp only [World.seen, World.collection_cancelCollection, hr]
    exact congrArg (Seen.collection _) hp
  all_goals
    simp only [World.seen, Write.apply, World.transferRows, World.historyOf, World.transferByKey,
      World.accountOf, World.entriesOf, World.tradeByKey, World.collection, World.paymentFor,
      World.paymentByKey, World.eventByKey, List.find?_append, List.filter_append, List.any_append,
      Seen.transfer.injEq, Seen.transferKey.injEq, Seen.taken.injEq, Seen.account.injEq,
      Seen.entries.injEq, Seen.trade.injEq, Seen.collection.injEq, Seen.payment.injEq,
      Seen.event.injEq, Option.map_or] at hk ⊢
    grind

/-! ### What only grows -/

/-- Rows are never deleted, and their immutable columns never change. -/
structure Ext (d d' : World) : Prop where
  transfers : ∀ t ∈ d.transfers, ∃ t' ∈ d'.transfers, t'.core = t.core
  quotes : ∀ q ∈ d.quotes, ∃ q' ∈ d'.quotes, q'.core = q.core
  collections : ∀ c ∈ d.collections, ∃ c' ∈ d'.collections, c'.core = c.core
  recipients : ∀ r ∈ d.recipients, r ∈ d'.recipients
  history : ∀ h ∈ d.history, h ∈ d'.history
  accounts : ∀ a ∈ d.accounts, a ∈ d'.accounts
  ledger : ∀ e ∈ d.ledger, e ∈ d'.ledger
  trades : ∀ t ∈ d.trades, t ∈ d'.trades
  inbound : ∀ p ∈ d.inbound, p ∈ d'.inbound
  events : ∀ e ∈ d.events, e ∈ d'.events

theorem Ext.refl (d : World) : Ext d d :=
  ⟨fun t h => ⟨t, h, rfl⟩, fun q h => ⟨q, h, rfl⟩, fun c h => ⟨c, h, rfl⟩, fun _ h => h,
    fun _ h => h, fun _ h => h, fun _ h => h, fun _ h => h, fun _ h => h, fun _ h => h⟩

theorem Ext.trans {d₁ d₂ d₃ : World} (h : Ext d₁ d₂) (h' : Ext d₂ d₃) : Ext d₁ d₃ where
  transfers t ht := by
    obtain ⟨t₂, ht₂, e₂⟩ := h.transfers t ht
    obtain ⟨t₃, ht₃, e₃⟩ := h'.transfers t₂ ht₂
    exact ⟨t₃, ht₃, e₃.trans e₂⟩
  quotes q hq := by
    obtain ⟨q₂, hq₂, e₂⟩ := h.quotes q hq
    obtain ⟨q₃, hq₃, e₃⟩ := h'.quotes q₂ hq₂
    exact ⟨q₃, hq₃, e₃.trans e₂⟩
  collections c hc := by
    obtain ⟨c₂, hc₂, e₂⟩ := h.collections c hc
    obtain ⟨c₃, hc₃, e₃⟩ := h'.collections c₂ hc₂
    exact ⟨c₃, hc₃, e₃.trans e₂⟩
  recipients r hr := h'.recipients r (h.recipients r hr)
  history r hr := h'.history r (h.history r hr)
  accounts r hr := h'.accounts r (h.accounts r hr)
  ledger r hr := h'.ledger r (h.ledger r hr)
  trades r hr := h'.trades r (h.trades r hr)
  inbound r hr := h'.inbound r (h.inbound r hr)
  events r hr := h'.events r (h.events r hr)

theorem updateWhere_core {α β : Type} {g : α → β} {p : α → Bool} {f : α → α} {rows : List α}
    (hg : ∀ r, g (f r) = g r) : ∀ r ∈ rows, ∃ r' ∈ updateWhere p f rows, g r' = g r := by
  intro r hr
  refine ⟨_, mem_updateWhere hr, ?_⟩
  split <;> simp [hg]

theorem updateWhere_core_congr {α β : Type} {g : α → β} {p : α → Bool} {f : α → α}
    {rows rows' : List α} (hg : ∀ r, g (f r) = g r)
    (h : ∀ r ∈ rows, ∃ r' ∈ rows', g r' = g r) :
    ∀ r ∈ updateWhere p f rows, ∃ r' ∈ updateWhere p f rows', g r' = g r := by
  intro r hr
  obtain ⟨r₀, hr₀, rfl⟩ := of_mem_updateWhere hr
  obtain ⟨r₁, hr₁, e⟩ := h r₀ hr₀
  obtain ⟨r₂, hr₂, e'⟩ := updateWhere_core (p := p) hg r₁ hr₁
  refine ⟨r₂, hr₂, e'.trans (e.trans ?_)⟩
  split <;> simp [hg]

theorem TransferRow.id_of_core {t t' : TransferRow} (h : t'.core = t.core) : t'.id = t.id :=
  (congrArg TransferRow.id h :)

theorem TransferRow.customerId_of_core {t t' : TransferRow} (h : t'.core = t.core) :
    t'.customerId = t.customerId := (congrArg TransferRow.customerId h :)

theorem TransferRow.sendCurrency_of_core {t t' : TransferRow} (h : t'.core = t.core) :
    t'.sendCurrency = t.sendCurrency := (congrArg TransferRow.sendCurrency h :)

theorem TransferRow.sendAmountMinor_of_core {t t' : TransferRow} (h : t'.core = t.core) :
    t'.sendAmountMinor = t.sendAmountMinor := (congrArg TransferRow.sendAmountMinor h :)

theorem TransferRow.idempotencyKey_of_core {t t' : TransferRow} (h : t'.core = t.core) :
    t'.idempotencyKey = t.idempotencyKey := (congrArg TransferRow.idempotencyKey h :)

/-- Writes only add. -/
theorem Write.ext (w : Write) (d : World) : Ext d (w.apply d) := by
  cases w
  case setStatus | setSettlementRef =>
    exact { Ext.refl d with transfers := updateWhere_core fun _ => rfl }
  case consumeQuote => exact { Ext.refl d with quotes := updateWhere_core fun _ => rfl }
  case payCollection | cancelCollection =>
    exact { Ext.refl d with collections := updateWhere_core fun _ => rfl }
  case insertTransfer =>
    exact { Ext.refl d with transfers := fun t ht => ⟨t, List.mem_append_left _ ht, rfl⟩ }
  case insertHistory => exact { Ext.refl d with history := fun _ h => List.mem_append_left _ h }
  case insertAccount => exact { Ext.refl d with accounts := fun _ h => List.mem_append_left _ h }
  case insertEntry => exact { Ext.refl d with ledger := fun _ h => List.mem_append_left _ h }
  case insertTrade => exact { Ext.refl d with trades := fun _ h => List.mem_append_left _ h }
  case insertInbound => exact { Ext.refl d with inbound := fun _ h => List.mem_append_left _ h }
  case insertEvent => exact { Ext.refl d with events := fun _ h => List.mem_append_left _ h }
  case insertAudit | saveCursor => exact { Ext.refl d with }

theorem ext_applyAll (ws : List Write) (d : World) : Ext d (applyAll ws d) := by
  induction ws generalizing d with
  | nil => exact .refl d
  | cons w ws ih => exact (w.ext d).trans (ih _)

theorem append_mono {α : Type} {l l' : List α} {r : α} (h : ∀ x ∈ l, x ∈ l') :
    ∀ x ∈ l ++ [r], x ∈ l' ++ [r] := by
  simp only [List.mem_append]
  exact fun x hx => hx.imp_left (h x)

/-- A write keeps one world an extension of another. -/
theorem Write.ext_congr (w : Write) {d d' : World} (h : Ext d d') :
    Ext (w.apply d) (w.apply d') := by
  cases w
  case setStatus | setSettlementRef =>
    exact { h with transfers := updateWhere_core_congr (fun _ => rfl) h.transfers }
  case consumeQuote id t =>
    refine { h with quotes := fun q hq => ?_ }
    obtain ⟨q₀, hq₀, rfl⟩ := of_mem_updateWhere hq
    obtain ⟨q₁, hq₁, e⟩ := h.quotes q₀ hq₀
    refine ⟨_, mem_updateWhere hq₁, ?_⟩
    split <;> split <;> exact e
  case payCollection | cancelCollection =>
    exact { h with collections := updateWhere_core_congr (fun _ => rfl) h.collections }
  case insertTransfer row =>
    refine { h with transfers := fun t ht => ?_ }
    rcases List.mem_append.1 ht with ht | ht
    · obtain ⟨t', ht', e⟩ := h.transfers t ht
      exact ⟨t', List.mem_append_left _ ht', e⟩
    · exact ⟨t, List.mem_append_right _ ht, rfl⟩
  case insertHistory => exact { h with history := append_mono h.history }
  case insertAccount => exact { h with accounts := append_mono h.accounts }
  case insertEntry => exact { h with ledger := append_mono h.ledger }
  case insertTrade => exact { h with trades := append_mono h.trades }
  case insertInbound => exact { h with inbound := append_mono h.inbound }
  case insertEvent => exact { h with events := append_mono h.events }
  case insertAudit | saveCursor => exact { h with }

theorem World.Owner.ext {d d' : World} (h : Ext d d') {s : EntrySource} {c : Uuid}
    (ho : d.Owner s c) : d'.Owner s c := by
  cases s with
  | transfer id =>
    obtain ⟨t, ht, rfl, rfl⟩ := ho
    obtain ⟨t', ht', e⟩ := h.transfers t ht
    exact ⟨t', ht', TransferRow.id_of_core e, TransferRow.customerId_of_core e⟩
  | settlementTrade id =>
    obtain ⟨t, ht, e⟩ := ho
    exact ⟨t, h.trades t ht, e⟩
  | inboundPayment id =>
    obtain ⟨p, hp, e⟩ := ho
    exact ⟨p, h.inbound p hp, e⟩

/-! ### Agreement -/

/-- To a transaction that holds locks `ℓ` and drew `ids`, `d'` is `d` with more rows. -/
structure Agree (ℓ : List Key) (ids : List ℕ) (d d' : World) : Prop where
  seen : ∀ k ∈ ℓ, d.seen k = d'.seen k
  ext : Ext d d'
  unused : ∀ n ∈ ids, d.Unused n → d'.Unused n

theorem Agree.refl (ℓ : List Key) (ids : List ℕ) (d : World) : Agree ℓ ids d d :=
  ⟨fun _ _ => rfl, .refl d, fun _ _ h => h⟩

theorem Agree.trans {ℓ : List Key} {ids : List ℕ} {d₁ d₂ d₃ : World} (h : Agree ℓ ids d₁ d₂)
    (h' : Agree ℓ ids d₂ d₃) : Agree ℓ ids d₁ d₃ :=
  ⟨fun k hk => (h.seen k hk).trans (h'.seen k hk), h.ext.trans h'.ext,
    fun n hn hu => h'.unused n hn (h.unused n hn hu)⟩

theorem Agree.anti {ℓ ℓ' : List Key} {ids ids' : List ℕ} {d d' : World} (h : Agree ℓ' ids' d d')
    (hℓ : ∀ k ∈ ℓ, k ∈ ℓ') (hids : ∀ n ∈ ids, n ∈ ids') : Agree ℓ ids d d' :=
  ⟨fun k hk => h.seen k (hℓ k hk), h.ext, fun n hn => h.unused n (hids n hn)⟩

theorem Agree.transfer {ℓ : List Key} {ids : List ℕ} {d d' : World} (h : Agree ℓ ids d d')
    {id : Uuid} (hk : .transfer id ∈ ℓ) : d.transfer id = d'.transfer id := by
  rw [World.transfer_eq, World.transfer_eq, (Seen.transfer.inj (h.seen _ hk)).1]

theorem Agree.historyOf {ℓ : List Key} {ids : List ℕ} {d d' : World} (h : Agree ℓ ids d d')
    {id : Uuid} (hk : .transfer id ∈ ℓ) : d.historyOf id = d'.historyOf id :=
  (Seen.transfer.inj (h.seen _ hk)).2

theorem Agree.balance {ℓ : List Key} {ids : List ℕ} {d d' : World} (h : Agree ℓ ids d d')
    {id : Uuid} (hk : .account id ∈ ℓ) : d.balance id = d'.balance id := by
  rw [World.balance, World.balance, Seen.entries.inj (h.seen _ hk)]

/-- Others do not use an id that a write does not publish. -/
theorem World.Unused.apply {d : World} {n : ℕ} (h : d.Unused n) {w : Write}
    (hw : w.publishes ≠ some n) : (w.apply d).Unused n := by
  cases w
  case setStatus | setSettlementRef =>
    refine { h with transfer := fun t ht => ?_ }
    obtain ⟨t₀, ht₀, rfl⟩ := of_mem_updateWhere ht
    split <;> exact h.transfer t₀ ht₀
  case insertTransfer row =>
    refine { h with transfer := fun t ht => ?_ }
    simp only [Write.apply, List.mem_append, List.mem_singleton] at ht
    rcases ht with ht | rfl
    · exact h.transfer t ht
    · simpa [Write.publishes] using hw
  case insertAccount row =>
    refine { h with account := fun t ht => ?_ }
    simp only [Write.apply, List.mem_append, List.mem_singleton] at ht
    rcases ht with ht | rfl
    · exact h.account t ht
    · simpa [Write.publishes] using hw
  case insertEntry row =>
    refine { h with entry := fun t ht => ?_ }
    simp only [Write.apply, List.mem_append, List.mem_singleton] at ht
    rcases ht with ht | rfl
    · exact h.entry t ht
    · simpa [Write.publishes] using hw
  case insertTrade row =>
    refine { h with trade := fun t ht => ?_ }
    simp only [Write.apply, List.mem_append, List.mem_singleton] at ht
    rcases ht with ht | rfl
    · exact h.trade t ht
    · simpa [Write.publishes] using hw
  case insertInbound row =>
    refine { h with payment := fun t ht => ?_ }
    simp only [Write.apply, List.mem_append, List.mem_singleton] at ht
    rcases ht with ht | rfl
    · exact h.payment t ht
    · simpa [Write.publishes] using hw
  all_goals exact { h with }

/-- An id that is unused after a write was unused before, and is not the one published. -/
theorem World.Unused.of_apply {d : World} {n : ℕ} {w : Write} (h : (w.apply d).Unused n) :
    d.Unused n ∧ w.publishes ≠ some n := by
  have hd : d.Unused n := by
    have he := w.ext d
    exact ⟨fun t ht => by
        obtain ⟨t', ht', e⟩ := he.transfers t ht
        exact TransferRow.id_of_core e ▸ h.transfer t' ht',
      fun a ha => h.account a (he.accounts a ha), fun e hm => h.entry e (he.ledger e hm),
      fun t ht => h.trade t (he.trades t ht), fun p hp => h.payment p (he.inbound p hp)⟩
  refine ⟨hd, ?_⟩
  cases w <;> simp only [Write.publishes, ne_eq, Option.some.injEq, reduceCtorEq, not_false_eq_true]
  case insertTransfer row =>
    exact h.transfer row (List.mem_append_right _ (List.mem_singleton.2 rfl))
  case insertAccount row => exact h.account row (List.mem_append_right _ (List.mem_singleton.2 rfl))
  case insertEntry row => exact h.entry row (List.mem_append_right _ (List.mem_singleton.2 rfl))
  case insertTrade row => exact h.trade row (List.mem_append_right _ (List.mem_singleton.2 rfl))
  case insertInbound row => exact h.payment row (List.mem_append_right _ (List.mem_singleton.2 rfl))

/-- What is true of the database for a write stays true when others commit. -/
theorem Write.Ok.agree {w : Write} {ids : List ℕ} {d d' : World} (hok : w.Ok d)
    (h : Agree w.keys ids d d') : w.Ok d' := by
  -- Each case reads back what its keys guard; references to rows stay since rows are never deleted.
  have hs := h.seen
  cases w
  case insertTransfer row =>
    obtain ⟨hr, ha, hk, r, hr', hid⟩ := hok
    have h₁ := Seen.taken.inj (hs (.transferReference row.reference) (by simp [Write.keys]))
    have h₂ := Seen.transferKey.inj
      (hs (.transferKey row.customerId row.idempotencyKey) (by simp [Write.keys]))
    refine ⟨hr, h₁ ▸ ha, ?_, r, h.ext.recipients r hr', hid⟩
    rw [hk, Option.map_none, eq_comm, Option.map_eq_none_iff] at h₂
    exact h₂
  case setStatus id s now =>
    obtain ⟨t, ht, hs'⟩ := hok
    exact ⟨t, h.transfer (List.mem_singleton.2 rfl) ▸ ht, hs'⟩
  case setSettlementRef id ref =>
    obtain ⟨⟨t, ht⟩, hn, ha⟩ := hok
    have h₁ := Seen.taken.inj (hs (.settlementRef ref) (by simp [Write.keys]))
    have h₂ := (Seen.transfer.inj (hs (.transfer id) (by simp [Write.keys]))).1
    have h₃ : d.transfer id = d'.transfer id := h.transfer (by simp [Write.keys])
    exact ⟨⟨t, h₃.symm.trans ht⟩, h₂ ▸ hn, h₁ ▸ ha⟩
  case insertHistory row =>
    obtain ⟨⟨t, ht⟩, hp⟩ := hok
    have hm : Key.transfer row.transferId ∈ (Write.insertHistory row).keys :=
      List.mem_singleton.2 rfl
    exact ⟨⟨t, h.transfer hm ▸ ht⟩, by rw [hp, World.nextPosition, World.nextPosition,
      h.historyOf hm]⟩
  case insertAccount row =>
    exact (Seen.account.inj (hs _ (List.mem_singleton.2 rfl))).symm.trans hok
  case insertEntry row =>
    obtain ⟨hb, a, ha, hid, hc, ho⟩ := hok
    exact ⟨h.balance (List.mem_singleton.2 rfl) ▸ hb, a, h.ext.accounts a ha, hid, hc, ho.ext h.ext⟩
  case insertAudit | saveCursor => trivial
  case consumeQuote id t =>
    obtain ⟨⟨q, hq, hn⟩, r, hr, hid⟩ := hok
    have h₁ := Seen.quote.inj (hs _ (List.mem_singleton.2 rfl))
    obtain ⟨r', hr', e⟩ := h.ext.transfers r hr
    exact ⟨⟨q, h₁ ▸ hq, hn⟩, r', hr', (TransferRow.id_of_core e).trans hid⟩
  case insertTrade row =>
    have h₁ := Seen.trade.inj
      (hs (.tradeKey row.customerId row.idempotencyKey) (by simp [Write.keys]))
    have h₂ := Seen.taken.inj (hs (.tradeReference row.reference) (by simp [Write.keys]))
    exact ⟨h₁ ▸ hok.1, h₂ ▸ hok.2⟩
  case insertInbound row =>
    obtain ⟨hn, hpos, hc⟩ := hok
    have h₁ := Seen.payment.inj
      (hs (.paymentKey row.provider row.providerPaymentId) (by simp [Write.keys]))
    refine ⟨h₁ ▸ hn, hpos, fun c hc' => ?_⟩
    have h₂ := Seen.collection.inj (hs (.collection c) (by simp [Write.keys, hc']))
    obtain ⟨hp, r, hr⟩ := hc c hc'
    exact ⟨h₂.2 ▸ hp, r, h₂.1 ▸ hr⟩
  case payCollection id now =>
    have h₁ := Seen.collection.inj (hs _ (List.mem_singleton.2 rfl))
    exact ⟨h₁.1 ▸ hok.1, h₁.2 ▸ hok.2⟩
  case cancelCollection id now =>
    obtain ⟨r, hr, hp⟩ := hok
    have h₁ := Seen.collection.inj (hs _ (List.mem_singleton.2 rfl))
    exact ⟨r, h₁.1 ▸ hr, hp⟩
  case insertEvent row =>
    obtain ⟨hn, t, ht, hid⟩ := hok
    have h₁ := Seen.event.inj (hs _ (List.mem_singleton.2 rfl))
    obtain ⟨t', ht', e⟩ := h.ext.transfers t ht
    exact ⟨h₁ ▸ hn, t', ht', (TransferRow.id_of_core e).trans hid⟩

/-- A write keeps two worlds in agreement. -/
theorem Agree.apply {ℓ : List Key} {ids : List ℕ} {d d' : World} (h : Agree ℓ ids d d')
    {w : Write} (hw : w.Valid ℓ ids d) : Agree ℓ ids (w.apply d) (w.apply d') := by
  have hs : ∀ k ∈ w.keys, d.seen k = d'.seen k := fun k hk => h.seen k (hw.locked k hk)
  have hok' : w.Ok d' := hw.ok.agree (h.anti hw.locked fun _ hn => hn)
  refine ⟨fun k hk => Write.seen_congr hw.ok hok' hs (h.seen k hk), w.ext_congr h.ext,
    fun n hn hu => ?_⟩
  obtain ⟨hu, hp⟩ := hu.of_apply
  exact (h.unused n hn hu).apply hp

/-- A write that may be carried out may still be carried out when others have committed. -/
theorem Write.Valid.agree {ℓ : List Key} {ids : List ℕ} {d d' : World} {w : Write}
    (hw : w.Valid ℓ ids d) (h : Agree ℓ ids d d') : w.Valid ℓ ids d' :=
  ⟨hw.locked, hw.ok.agree (h.anti hw.locked fun _ hn => hn),
    fun n hn => ⟨(hw.fresh n hn).1, h.unused n (hw.fresh n hn).1 (hw.fresh n hn).2⟩⟩

theorem Agree.applyAll {ℓ : List Key} {ids : List ℕ} {d d' : World} (h : Agree ℓ ids d d')
    {ws : List Write} (hws : Valid ℓ ids d ws) :
    Agree ℓ ids (applyAll ws d) (applyAll ws d') := by
  induction ws generalizing d d' with
  | nil => exact h
  | cons w ws ih => exact ih (h.apply hws.1) hws.2

/-- Writes that may be carried out may still be carried out when others have committed. -/
theorem Valid.agree {ℓ : List Key} {ids : List ℕ} {d d' : World} {ws : List Write}
    (hws : Valid ℓ ids d ws) (h : Agree ℓ ids d d') : Valid ℓ ids d' ws := by
  induction ws generalizing d d' with
  | nil => trivial
  | cons w ws ih => exact ⟨hws.1.agree h, ih hws.2 (h.apply hws.1)⟩

/-- What others commit is agreeable. -/
theorem Valid.agree_others {ℓ ℓ' : List Key} {ids ids' : List ℕ} {d : World} {ws : List Write}
    (hws : Valid ℓ' ids' d ws) (hℓ : ∀ k ∈ ℓ', k ∉ ℓ) (hids : ∀ n ∈ ids', n ∉ ids) :
    Agree ℓ ids d (applyAll ws d) := by
  induction ws generalizing d with
  | nil => exact .refl ℓ ids d
  | cons w ws ih =>
    refine Agree.trans ⟨fun k hk => ?_, w.ext d, fun n hn hu => hu.apply fun hp => ?_⟩ (ih hws.2)
    · exact (Write.seen_apply hws.1.ok fun hkw => hℓ k (hws.1.locked k hkw) hk).symm
    · exact hids n (hws.1.fresh n hp).1 hn

end Kimana
