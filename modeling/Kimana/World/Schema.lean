import Kimana.World.Frame
import Mathlib.Data.List.Nodup

/-!
# What the schema guarantees

`Wf` collects the primary keys, unique constraints and foreign keys the proofs rely on, and that
the generator of row ids is ahead of every id in use.

* `Wf.apply` : a valid write keeps them; `Wf.applyAll` : so do the writes of a transaction.
* `Wf.of_transfer_mem`, `Wf.accountOf_eq` : rows are found under their keys.
-/

namespace Kimana

open ReadCommitted Table

/-- The constraints of the schema. -/
structure Wf (d : World) : Prop where
  below : ∀ n, d.nextId ≤ n → d.Unused n
  transferIds : (d.transfers.map (·.id)).Nodup
  transferKeys : (d.transfers.map fun t => (t.customerId, t.idempotencyKey)).Nodup
  quoteIds : (d.quotes.map (·.id)).Nodup
  accountIds : (d.accounts.map (·.id)).Nodup
  accountKeys : (d.accounts.map fun a => (a.customerId, a.currency)).Nodup
  entryIds : (d.ledger.map (·.id)).Nodup
  tradeIds : (d.trades.map (·.id)).Nodup
  tradeKeys : (d.trades.map fun t => (t.customerId, t.idempotencyKey)).Nodup
  paymentIds : (d.inbound.map (·.id)).Nodup
  paymentKeys : (d.inbound.map fun p => (p.provider, p.providerPaymentId)).Nodup
  eventKeys : (d.events.map fun e => (e.txHash, e.logIndex)).Nodup
  entries : ∀ e ∈ d.ledger, ∃ a ∈ d.accounts, a.id = e.accountId ∧ a.currency = e.currency ∧
    d.Owner e.source a.customerId
  recipients : ∀ t ∈ d.transfers, ∃ r ∈ d.recipients, r.id = t.recipientId
  history : ∀ h ∈ d.history, ∃ t ∈ d.transfers, t.id = h.transferId
  consumed : ∀ q ∈ d.quotes, ∀ id, q.consumedByTransferId = some id →
    ∃ t ∈ d.transfers, t.id = id

theorem nodup_map_append {α β : Type} {f : α → β} {l : List α} {x : α} (h : (l.map f).Nodup)
    (hx : ∀ y ∈ l, f y ≠ f x) : ((l ++ [x]).map f).Nodup := by
  rw [List.map_append, List.nodup_append]
  refine ⟨h, List.nodup_singleton _, ?_⟩
  rintro _ hy _ hz rfl
  obtain ⟨y, hy, e⟩ := List.mem_map.1 hy
  exact hx y hy (e.trans (List.mem_singleton.1 hz))

theorem of_nodup_map {α β : Type} {f : α → β} {l : List α} (h : (l.map f).Nodup) {x y : α}
    (hx : x ∈ l) (hy : y ∈ l) (he : f x = f y) : x = y :=
  List.inj_on_of_nodup_map h hx hy he

/-- The rows with a row's key are that row. -/
theorem filter_of_nodup_map {α β : Type} [DecidableEq β] {f : α → β} {l : List α}
    (h : (l.map f).Nodup) {x : α} (hx : x ∈ l) : (l.filter fun y => f y = f x) = [x] := by
  induction l with
  | nil => cases hx
  | cons y l ih =>
    rw [List.map_cons, List.nodup_cons] at h
    rcases List.mem_cons.1 hx with rfl | hx
    · rw [List.filter_cons_of_pos (by simp), List.filter_eq_nil_iff.2 fun y hy => ?_]
      simp only [decide_eq_true_eq]
      exact fun he => h.1 (he ▸ List.mem_map_of_mem hy)
    · have hne : f y ≠ f x := fun he => h.1 (he ▸ List.mem_map_of_mem hx)
      rw [List.filter_cons_of_neg (by simpa using hne), ih h.2 hx]

theorem ne_of_find?_eq_none {α : Type} {p : α → Bool} {l : List α} (h : l.find? p = none) :
    ∀ x ∈ l, p x = false := by simpa using h

/-- The constraints only ask for rows that an extension still has. -/
theorem Wf.of_ext {d d' : World} (h : Wf d) (he : Ext d d')
    (hbelow : ∀ n, d'.nextId ≤ n → d'.Unused n)
    (htransfers : d'.transfers.map (fun t => (t.id, t.customerId, t.idempotencyKey, t.recipientId))
      = d.transfers.map fun t => (t.id, t.customerId, t.idempotencyKey, t.recipientId))
    (hquotes : d'.quotes = d.quotes) (haccounts : d'.accounts = d.accounts)
    (hledger : d'.ledger = d.ledger) (htrades : d'.trades = d.trades)
    (hinbound : d'.inbound = d.inbound) (hevents : d'.events = d.events)
    (hhistory : d'.history = d.history) : Wf d' := by
  have hmap : ∀ {β : Type} (g : Uuid × Uuid × String × Uuid → β),
      d'.transfers.map (fun t => g (t.id, t.customerId, t.idempotencyKey, t.recipientId)) =
        d.transfers.map fun t => g (t.id, t.customerId, t.idempotencyKey, t.recipientId) := by
    intro β g
    simpa [Function.comp_def] using congrArg (List.map g) htransfers
  have hid : ∀ {id}, (∃ t ∈ d.transfers, t.id = id) → ∃ t ∈ d'.transfers, t.id = id := by
    rintro id ⟨t, ht, rfl⟩
    obtain ⟨t', ht', e⟩ := he.transfers t ht
    exact ⟨t', ht', TransferRow.id_of_core e⟩
  refine ⟨hbelow, ?_, ?_, hquotes ▸ h.quoteIds, haccounts ▸ h.accountIds,
    haccounts ▸ h.accountKeys, hledger ▸ h.entryIds, htrades ▸ h.tradeIds, htrades ▸ h.tradeKeys,
    hinbound ▸ h.paymentIds, hinbound ▸ h.paymentKeys, hevents ▸ h.eventKeys, ?_, ?_, ?_, ?_⟩
  · exact hmap (·.1) ▸ h.transferIds
  · exact hmap (fun x => (x.2.1, x.2.2.1)) ▸ h.transferKeys
  · intro e hm
    obtain ⟨a, ha, h₁, h₂, ho⟩ := h.entries e (hledger ▸ hm)
    exact ⟨a, haccounts ▸ ha, h₁, h₂, ho.ext he⟩
  · intro t ht
    have : t.recipientId ∈ d.transfers.map (·.recipientId) :=
      hmap (·.2.2.2) ▸ List.mem_map_of_mem ht
    obtain ⟨t₀, ht₀, e⟩ := List.mem_map.1 this
    obtain ⟨r, hr, hid'⟩ := h.recipients t₀ ht₀
    exact ⟨r, he.recipients r hr, hid'.trans e⟩
  · exact fun r hr => hid (h.history r (hhistory ▸ hr))
  · exact fun q hq id hc => hid (h.consumed q (hquotes ▸ hq) id hc)

/-- A valid write keeps the constraints. -/
theorem Wf.apply {d : World} (h : Wf d) {w : Write} {ℓ : List Key} {ids : List ℕ}
    (hw : w.Valid ℓ ids d) (hids : ∀ n ∈ ids, n < d.nextId) : Wf (w.apply d) := by
  have hok := hw.ok
  have hfresh := hw.fresh
  have he := w.ext d
  have hbelow : ∀ n, (w.apply d).nextId ≤ n → (w.apply d).Unused n := by
    intro n hn
    have hn' : d.nextId ≤ n := by cases w <;> exact hn
    exact (h.below n hn').apply fun hp => absurd (hids n (hfresh n hp).1) (by omega)
  cases w
  case insertAudit | saveCursor | payCollection | cancelCollection =>
    exact h.of_ext he hbelow rfl rfl rfl rfl rfl rfl rfl rfl
  case setStatus | setSettlementRef =>
    exact h.of_ext he hbelow (map_updateWhere fun _ => rfl) rfl rfl rfl rfl rfl rfl rfl
  case insertTransfer row =>
    obtain ⟨-, -, hk, r, hr, hrid⟩ := hok
    obtain ⟨-, hu⟩ := hfresh row.id rfl
    have hk' := ne_of_find?_eq_none hk
    refine { h with below := hbelow, transferIds := ?_, transferKeys := ?_, entries := ?_
                    recipients := ?_, history := ?_, consumed := ?_ }
    · exact nodup_map_append h.transferIds hu.transfer
    · refine nodup_map_append h.transferKeys fun y hy e => ?_
      have := hk' y hy
      simp only [Prod.mk.injEq] at e
      simp [e.1, e.2] at this
    · intro e hm
      obtain ⟨a, ha, h₁, h₂, ho⟩ := h.entries e hm
      exact ⟨a, ha, h₁, h₂, ho.ext he⟩
    · intro t ht
      rcases List.mem_append.1 ht with ht | ht
      · exact h.recipients t ht
      · rw [List.mem_singleton.1 ht]; exact ⟨r, hr, hrid⟩
    · intro x hx
      obtain ⟨t, ht, e⟩ := h.history x hx
      exact ⟨t, List.mem_append_left _ ht, e⟩
    · intro q hq id hc
      obtain ⟨t, ht, e⟩ := h.consumed q hq id hc
      exact ⟨t, List.mem_append_left _ ht, e⟩
  case insertHistory row =>
    obtain ⟨⟨t, ht⟩, -⟩ := hok
    refine { h with below := hbelow, history := fun x hx => ?_ }
    rcases List.mem_append.1 hx with hx | hx
    · exact h.history x hx
    · rw [List.mem_singleton.1 hx]
      exact ⟨t, List.mem_of_find?_eq_some ht, by simpa using List.find?_some ht⟩
  case insertAccount row =>
    obtain ⟨-, hu⟩ := hfresh row.id rfl
    have hk' := ne_of_find?_eq_none (Option.map_eq_none_iff.1 hok)
    refine { h with below := hbelow, accountIds := ?_, accountKeys := ?_, entries := ?_ }
    · exact nodup_map_append h.accountIds hu.account
    · refine nodup_map_append h.accountKeys fun y hy e => ?_
      have := hk' y hy
      simp only [Prod.mk.injEq] at e
      simp [e.1, e.2] at this
    · intro e hm
      obtain ⟨a, ha, h₁, h₂, ho⟩ := h.entries e hm
      exact ⟨a, List.mem_append_left _ ha, h₁, h₂, ho.ext he⟩
  case insertEntry row =>
    obtain ⟨-, a, ha, h₁, h₂, ho⟩ := hok
    obtain ⟨-, hu⟩ := hfresh row.id rfl
    refine { h with below := hbelow, entryIds := nodup_map_append h.entryIds hu.entry
                    entries := fun e hm => ?_ }
    rcases List.mem_append.1 hm with hm | hm
    · obtain ⟨a, ha, h₁, h₂, ho⟩ := h.entries e hm
      exact ⟨a, ha, h₁, h₂, ho.ext he⟩
    · rw [List.mem_singleton.1 hm]; exact ⟨a, ha, h₁, h₂, ho.ext he⟩
  case consumeQuote id t =>
    obtain ⟨-, r, hr, hrid⟩ := hok
    have hq : (d.quotes.map (·.id)) = ((Write.consumeQuote id t).apply d).quotes.map (·.id) :=
      (map_updateWhere (f := fun q : QuoteRow => q.consumedBy t) fun _ => rfl).symm
    refine { h with below := hbelow, quoteIds := hq ▸ h.quoteIds
                    consumed := fun q hq id' hc => ?_ }
    obtain ⟨q₀, hq₀, rfl⟩ := of_mem_updateWhere hq
    split at hc
    · cases hc; exact ⟨r, hr, hrid⟩
    · exact h.consumed q₀ hq₀ id' hc
  case insertTrade row =>
    obtain ⟨hk, -⟩ := hok
    obtain ⟨-, hu⟩ := hfresh row.id rfl
    have hk' := ne_of_find?_eq_none hk
    refine { h with below := hbelow, tradeIds := nodup_map_append h.tradeIds hu.trade
                    tradeKeys := nodup_map_append h.tradeKeys fun y hy e => ?_
                    entries := fun e hm => ?_ }
    · have := hk' y hy
      simp only [Prod.mk.injEq] at e
      simp [e.1, e.2] at this
    · obtain ⟨a, ha, h₁, h₂, ho⟩ := h.entries e hm
      exact ⟨a, ha, h₁, h₂, ho.ext he⟩
  case insertInbound row =>
    obtain ⟨hk, -⟩ := hok
    obtain ⟨-, hu⟩ := hfresh row.id rfl
    have hk' := ne_of_find?_eq_none hk
    refine { h with below := hbelow, paymentIds := nodup_map_append h.paymentIds hu.payment
                    paymentKeys := nodup_map_append h.paymentKeys fun y hy e => ?_
                    entries := fun e hm => ?_ }
    · have := hk' y hy
      simp only [Prod.mk.injEq] at e
      simp [e.1, e.2] at this
    · obtain ⟨a, ha, h₁, h₂, ho⟩ := h.entries e hm
      exact ⟨a, ha, h₁, h₂, ho.ext he⟩
  case insertEvent row =>
    obtain ⟨hk, -⟩ := hok
    have hk' := ne_of_find?_eq_none hk
    refine { h with below := hbelow
                    eventKeys := nodup_map_append h.eventKeys fun y hy e => ?_ }
    have := hk' y hy
    simp only [Prod.mk.injEq] at e
    simp [e.1, e.2] at this

theorem nextId_apply (w : Write) (d : World) : (w.apply d).nextId = d.nextId :=
  Store.seq_apply w d

/-- The writes of a transaction keep the constraints. -/
theorem Wf.applyAll {d : World} (h : Wf d) {ws : List Write} {ℓ : List Key} {ids : List ℕ}
    (hws : Valid ℓ ids d ws) (hids : ∀ n ∈ ids, n < d.nextId) : Wf (applyAll ws d) := by
  induction ws generalizing d with
  | nil => exact h
  | cons w ws ih => exact ih (h.apply hws.1 hids) hws.2 (nextId_apply w d ▸ hids)

/-- Drawing an id keeps the constraints. -/
theorem Wf.bump {d : World} (h : Wf d) : Wf (bump d) :=
  { h with below := fun n hn => { h.below n (Nat.le_of_succ_le hn) with } }

/-! ### Rows under their keys -/

/-- A transfer is found under its id. -/
theorem Wf.of_transfer_mem {d : World} (h : Wf d) {t : TransferRow} (ht : t ∈ d.transfers) :
    d.transfer t.id = some t := by
  cases hf : d.transfer t.id with
  | none => simpa using ne_of_find?_eq_none hf t ht
  | some t' =>
    have hid : t'.id = t.id := by simpa using List.find?_some hf
    rw [of_nodup_map h.transferIds (List.mem_of_find?_eq_some hf) ht hid]

theorem World.transfer_mem {d : World} {id : Uuid} {t : TransferRow} (h : d.transfer id = some t) :
    t ∈ d.transfers ∧ t.id = id :=
  ⟨List.mem_of_find?_eq_some h, by simpa using List.find?_some h⟩

/-- A transfer made with a key is found under it. -/
theorem Wf.transferByKey_eq {d : World} (h : Wf d) {t : TransferRow} (ht : t ∈ d.transfers) :
    d.transferByKey t.customerId t.idempotencyKey = some t := by
  cases hf : d.transferByKey t.customerId t.idempotencyKey with
  | none => simpa using ne_of_find?_eq_none hf t ht
  | some t' =>
    have hk : t'.customerId = t.customerId ∧ t'.idempotencyKey = t.idempotencyKey := by
      simpa using List.find?_some hf
    rw [of_nodup_map h.transferKeys (List.mem_of_find?_eq_some hf) ht (Prod.ext hk.1 hk.2)]

/-- An account is found under its customer and currency. -/
theorem Wf.accountOf_eq {d : World} (h : Wf d) {a : AccountRow} (ha : a ∈ d.accounts) :
    d.accountOf a.customerId a.currency = some a.id := by
  rw [World.accountOf]
  cases hf : d.accounts.find? fun b => b.customerId = a.customerId && b.currency = a.currency with
  | none => simpa using ne_of_find?_eq_none hf a ha
  | some b =>
    have hk : b.customerId = a.customerId ∧ b.currency = a.currency := by
      simpa using List.find?_some hf
    rw [of_nodup_map h.accountKeys (List.mem_of_find?_eq_some hf) ha (Prod.ext hk.1 hk.2)]
    rfl

theorem World.accountOf_mem {d : World} {c : Uuid} {currency : LedgerCurrency} {id : Uuid}
    (h : d.accountOf c currency = some id) : ⟨id, c, currency⟩ ∈ d.accounts := by
  obtain ⟨a, ha, rfl⟩ := Option.map_eq_some_iff.1 h
  have hk : a.customerId = c ∧ a.currency = currency := by simpa using List.find?_some ha
  obtain ⟨rfl, rfl⟩ := hk
  exact List.mem_of_find?_eq_some ha

end Kimana
