import Kimana.Collections.Credit
import Kimana.Ledger.Solvency
import Kimana.Op.Tenant
import Mathlib.Algebra.BigOperators.Group.List.Basic

/-!
# Reconciliation

No table says what an account should hold: a balance is the sum of its entries, and payments,
trades and transfers are recorded apart from them.

* `standing` : the status a transfer's money is at: a rejected transfer keeps its debit, if it had
  one.
* `sum_fiber` : a sum is the sum of the sums over its keys.
* `funds_eq_books` : what the entries of an account come to, by what they were posted for.
* `reconciled_of_reach` : **the books agree** in every reachable state.
-/

namespace Kimana

open ReadCommitted Table Engine TransferStatus

/-! ### What a transfer has moved -/

/-- The transfer has been `FUNDED`. -/
def debited (hs : List HistoryRow) : Bool :=
  hs.any fun r => r.status = .funded

/-- The status that a transfer's money is at: a rejection leaves it where it was. -/
def standing (s : TransferStatus) (b : Bool) : TransferStatus :=
  if s = .rejected && b then .funded else s

/-- The statuses of a transfer that has been `FUNDED`. -/
def wasFunded (s : TransferStatus) : Bool := owes s || s = .reversed

/-- The entries `es` of a transfer at `s`, that has been debited or not. -/
structure KeptAt (t : TransferRow) (s : TransferStatus) (b : Bool) (es : List LedgerEntry) :
    Prop where
  funded : s ≠ .rejected → b = wasFunded s
  sum : ∀ cur, netIn es cur = held t cur (standing s b)

/-- A transition keeps the entries in step. -/
theorem KeptAt.step {t : TransferRow} {s : TransferStatus} {b : Bool} {es : List LedgerEntry}
    (h : KeptAt t s b es) {st : PathStep} (hall : st.target ∈ s.allowed) :
    KeptAt t st.target (b || decide (st.target = .funded))
      (es ++ (refundFor t st.target ++ legFor t st.payee s st.target)) := by
  have hlive : s ≠ .rejected := by
    rintro rfl
    cases hall
  have hb := h.funded hlive
  have hs : ∀ cur, netIn es cur = held t cur s := fun cur => by
    rw [h.sum, standing, if_neg (by simp [hlive])]
  obtain ⟨target, payload, payee⟩ := st
  by_cases hrej : target = .rejected
  · subst hrej
    refine ⟨fun hne => absurd rfl hne, fun cur => ?_⟩
    have hnone : refundFor t .rejected ++ legFor t payee s .rejected = [] := rfl
    rw [hnone, List.append_nil, hs, hb]
    -- Only these four can be rejected: two before the debit, two after it.
    cases s <;> simp only [allowed, List.mem_cons, List.not_mem_nil, or_false,
      reduceCtorEq] at hall <;>
      simp [standing, wasFunded, owes, held, sendMoved, receiveMoved]
  · refine ⟨fun _ => ?_, fun cur => ?_⟩
    · rw [hb]
      cases s <;> simp only [allowed, List.mem_cons, List.not_mem_nil, or_false] at hall <;>
        rcases hall with rfl | rfl | rfl <;> first | rfl | exact absurd rfl hrej
    · rw [netIn_append, hs, netIn_step t cur payee hall hrej, standing, if_neg (by simp [hrej])]

/-- So does an allowed path. -/
theorem KeptAt.path {t : TransferRow} {s : TransferStatus} {b : Bool} {es : List LedgerEntry}
    {steps : List PathStep} (h : KeptAt t s b es)
    (hp : pathAllowed s (steps.map (·.target)) = true) :
    KeptAt t (pathEnd s steps) (b || (steps.map (·.target)).any fun s => s = .funded)
      (es ++ pathEntries t s steps) := by
  induction steps generalizing s b es with
  | nil => simpa [pathEntries] using h
  | cons st steps ih =>
    simp only [List.map_cons, pathAllowed, Bool.and_eq_true, decide_eq_true_eq] at hp
    have := ih (h.step hp.1) hp.2
    simpa [pathEntries, List.append_assoc, Bool.or_assoc] using this

/-- The entries of a transfer are in step with its status and its history. -/
def Kept (t : TransferRow) (es : List LedgerEntry) (hs : List HistoryRow) : Prop :=
  KeptAt t t.currentStatus (debited hs) es

theorem debited_pathHistory (hs : List HistoryRow) (t : TransferRow) (steps : List PathStep) :
    debited (hs ++ pathHistory t steps) =
      (debited hs || (steps.map (·.target)).any fun s => s = .funded) := by
  rw [debited, List.any_append, pathHistory, List.any_map, List.any_map]
  rfl

theorem debited_strip (hs : List HistoryRow) : debited (hs.map .strip) = debited hs := by
  rw [debited, List.any_map]
  rfl

theorem held_core {t t' : TransferRow} (h : t'.core = t.core) : held t' = held t :=
  TransferRow.eq_of_core held (fun _ => rfl) h

section Commit

variable {A : Assumed} {op : Op} {d : World} {ws : List Write}

/-- A commit keeps every transfer's entries in step. -/
theorem kept_commit {old : Uuid → Prop} (h : Every old Kept d) (hwf : Wf d) {ℓ : List Key}
    {ids : List ℕ} (hv : Valid ℓ ids d ws) (hk : op.Commits A d ws) :
    Every old Kept (applyAll ws d) := by
  refine h.commit hwf hv hk ?_ ?_
  · intro t steps tail es hs t' hm htail htakes hold h hcore hst
    have hkept := KeptAt.path h hm.allowed
    rw [Kept, hst, debited_pathHistory]
    exact ⟨hkept.funded, held_core hcore ▸ hkept.sum⟩
  · intro _ _ _ _ _ _ _ _ t' _ _ hst
    rw [Kept, hst]
    exact ⟨fun _ => rfl, fun cur => by simp [standing, held, sendMoved, receiveMoved, debited]⟩

end Commit

/-! ### Sums by key -/

/-- A sum is the sum of the sums over its keys. -/
theorem sum_fiber {α κ : Type} [DecidableEq κ] (f : α → ℤ) (key : α → κ) {ks : List κ}
    (hn : ks.Nodup) {es : List α} (h : ∀ e ∈ es, key e ∈ ks) :
    (es.map f).sum = (ks.map fun k => ((es.filter fun e => key e = k).map f).sum).sum := by
  induction es with
  | nil => simp
  | cons e es ih =>
    have hone : (ks.map fun k => if key e = k then f e else 0).sum = f e := by
      rw [List.sum_map_eq_nsmul_single (key e) _ fun k hk _ => if_neg (Ne.symm hk),
        List.count_eq_one_of_mem hn (h e List.mem_cons_self), if_pos rfl, one_nsmul]
    have hsplit : ∀ k, (((e :: es).filter fun e => key e = k).map f).sum =
        (if key e = k then f e else 0) + ((es.filter fun e => key e = k).map f).sum := fun k => by
      rw [List.filter_cons]
      split <;> simp_all
    simp only [hsplit, List.sum_map_add, hone, List.map_cons, List.sum_cons,
      ih fun e he => h e (List.mem_cons_of_mem _ he)]

/-! ### The books -/

/-- What the payments of a customer brought in. -/
def World.paidIn (d : World) (customerId : Uuid) (currency : LedgerCurrency) : ℤ :=
  ((d.inbound.filter fun p => p.customerId = customerId).map fun p =>
    if .fiat p.currency = currency then p.amountMinor else 0).sum

/-- What the trades of a customer brought in, less what they cost. -/
def World.traded (d : World) (customerId : Uuid) (currency : LedgerCurrency) : ℤ :=
  ((d.trades.filter fun row => row.customerId = customerId).map fun row =>
    (if .fiat row.localCurrency = currency then SettlementWallet.localSigned row else 0) +
      if .usdc = currency then SettlementWallet.usdcSigned row else 0).sum

/-- What the transfers of a customer have moved. -/
def World.transferred (d : World) (customerId : Uuid) (currency : LedgerCurrency) : ℤ :=
  ((d.transfers.filter fun t => t.customerId = customerId).map fun t =>
    held t currency (standing t.currentStatus (debited (d.historyOf t.id)))).sum

/-- What the entries of a customer can have been posted for. -/
def World.sources (d : World) (customerId : Uuid) : List EntrySource :=
  (d.inbound.filter fun p => p.customerId = customerId).map (.inboundPayment ·.id) ++
    ((d.trades.filter fun row => row.customerId = customerId).map (.settlementTrade ·.id) ++
      (d.transfers.filter fun t => t.customerId = customerId).map (.transfer ·.id))

/-- The entries that were posted for something. -/
def World.entriesFrom (d : World) (src : EntrySource) : List LedgerEntry :=
  d.ledger.filter fun e => e.source = src

section Facts

variable {d : World}

theorem mem_sources {src : EntrySource} {c : Uuid} : src ∈ d.sources c ↔ d.Owner src c := by
  cases src <;> simp [World.sources, World.Owner, and_comm, and_assoc]

theorem Wf.nodup_sources (hwf : Wf d) (c : Uuid) : (d.sources c).Nodup := by
  have hkeys : ∀ {α : Type} {l : List α} {p : α → Bool} {key : α → Uuid} {mk : Uuid → EntrySource},
      (∀ i j, mk i = mk j → i = j) → (l.map key).Nodup →
        ((l.filter p).map fun x => mk (key x)).Nodup := by
    intro α l p key mk hinj hn
    have := (hn.sublist ((List.filter_sublist (p := p)).map key)).map hinj
    rwa [List.map_map] at this
  refine List.nodup_append'.2 ⟨hkeys (fun _ _ => EntrySource.inboundPayment.inj) hwf.paymentIds,
    List.nodup_append'.2 ⟨hkeys (fun _ _ => EntrySource.settlementTrade.inj) hwf.tradeIds,
      hkeys (fun _ _ => EntrySource.transfer.inj) hwf.transferIds, ?_⟩, ?_⟩
  · intro src h₁ h₂
    obtain ⟨row, -, rfl⟩ := List.mem_map.1 h₁
    simp at h₂
  · intro src h₁ h₂
    obtain ⟨p, -, rfl⟩ := List.mem_map.1 h₁
    simp at h₂

/-- The currency of an entry is that of its account. -/
theorem Wf.currency_of_account (hwf : Wf d) {e : LedgerEntry} (he : e ∈ d.ledger) {c : Uuid}
    {cur : LedgerCurrency} (ha : ⟨e.accountId, c, cur⟩ ∈ d.accounts) : e.currency = cur := by
  obtain ⟨b, hb, hid, hcur, -⟩ := hwf.entries e he
  rw [← hcur, of_nodup_map hwf.accountIds hb ha hid]

/-- The balance of a customer is the sum over what its entries were posted for. -/
theorem Wf.funds_eq_sum (hwf : Wf d) (c : Uuid) (cur : LedgerCurrency) :
    d.funds c cur = ((d.sources c).map fun src => netIn (d.entriesFrom src) cur).sum := by
  have hsource : ∀ e ∈ (d.holdings c).entries.filter fun e => e.currency = cur,
      e.source ∈ d.sources c := fun e he =>
    mem_sources.2 (ownsSource_iff.1 (List.mem_filter.1 (List.mem_of_mem_filter he)).2)
  rw [funds_eq_holdings hwf, netIn, sum_fiber _ (·.source) (hwf.nodup_sources c) hsource]
  congr 1
  refine List.map_congr_left fun src hsrc => ?_
  have howns : d.ownsSource c src = true := ownsSource_iff.2 (mem_sources.1 hsrc)
  rw [netIn, World.entriesFrom, World.holdings, List.filter_filter, List.filter_filter,
    List.filter_filter]
  congr 2
  refine List.filter_congr fun e _ => ?_
  by_cases hs : e.source = src <;> simp [hs, howns]

theorem netIn_payment (hwf : Wf d) (h : Collections.Credited d) {p : InboundPayment}
    (hp : p ∈ d.inbound) (cur : LedgerCurrency) :
    netIn (d.entriesFrom (.inboundPayment p.id)) cur =
      if .fiat p.currency = cur then p.amountMinor else 0 := by
  obtain ⟨e, he, hamount, hacct⟩ := Collections.credit_of_payment hwf h hp
  have hmem : e ∈ d.ledger := (List.mem_filter.1 (he ▸ List.mem_singleton_self e)).1
  rw [World.entriesFrom, he, netIn_cons, netIn_nil, hwf.currency_of_account hmem hacct, hamount,
    Int.add_zero]

theorem netIn_trade (hwf : Wf d) (h : SettlementWallet.Booked d) {row : TradeRow}
    (hrow : row ∈ d.trades) (cur : LedgerCurrency) :
    netIn (d.entriesFrom (.settlementTrade row.id)) cur =
      (if .fiat row.localCurrency = cur then SettlementWallet.localSigned row else 0) +
        if .usdc = cur then SettlementWallet.usdcSigned row else 0 := by
  obtain ⟨l, u, hlegs, hl, hu, hla, hua⟩ := SettlementWallet.legs_of_trade hwf h hrow
  have hmem : ∀ e ∈ [l, u], e ∈ d.ledger := fun e he => (List.mem_filter.1 (hlegs ▸ he)).1
  rw [World.entriesFrom, hlegs, netIn_cons, netIn_cons, netIn_nil,
    hwf.currency_of_account (hmem l (by simp)) hla, hwf.currency_of_account (hmem u (by simp)) hua,
    hl, hu, Int.add_zero]

theorem netIn_transfer (hwf : Wf d) (h : Every (fun _ => False) Kept d) {t : TransferRow}
    (ht : t ∈ d.transfers) (cur : LedgerCurrency) :
    netIn (d.entriesFrom (.transfer t.id)) cur =
      held t cur (standing t.currentStatus (debited (d.historyOf t.id))) := by
  have := (h t.id t (fun h => h) (hwf.of_transfer_mem ht)).sum cur
  rwa [netIn_strip, debited_strip] at this

/-- The balance of a customer, from its payments, trades and transfers. -/
theorem funds_eq_books (hwf : Wf d) (hc : Collections.Credited d) (hb : SettlementWallet.Booked d)
    (hk : Every (fun _ => False) Kept d) (c : Uuid) (cur : LedgerCurrency) :
    d.funds c cur = d.paidIn c cur + d.traded c cur + d.transferred c cur := by
  have hpaid : ∀ p ∈ d.inbound.filter (fun p => p.customerId = c), _ = _ := fun p hp =>
    netIn_payment hwf hc (List.mem_of_mem_filter hp) cur
  have htraded : ∀ row ∈ d.trades.filter (fun row => row.customerId = c), _ = _ := fun row hrow =>
    netIn_trade hwf hb (List.mem_of_mem_filter hrow) cur
  have hmoved : ∀ t ∈ d.transfers.filter (fun t => t.customerId = c), _ = _ := fun t ht =>
    netIn_transfer hwf hk (List.mem_of_mem_filter ht) cur
  rw [hwf.funds_eq_sum, World.sources, List.map_append, List.map_append, List.sum_append,
    List.sum_append, List.map_map, List.map_map, List.map_map, World.paidIn, World.traded,
    World.transferred, ← List.map_congr_left hpaid, ← List.map_congr_left htraded,
    ← List.map_congr_left hmoved, Int.add_assoc]
  rfl

end Facts

/-! ### Every reachable state -/

/-- The ledger records what the tables do. -/
structure Reconciled (d : World) : Prop where
  credited : Collections.Credited d
  booked : SettlementWallet.Booked d
  kept : Every (fun _ => False) Kept d

variable {ι : Type} [DecidableEq ι] {ops : ι → Op} {d₀ : World}

/-- **The books agree**: in every state that any calls reach, however their statements interleave,
the balance of a customer in a currency is what its payments brought in, with its trades and with
what its transfers have moved at the statuses they stand at. -/
theorem reconciled_of_reach (hwf : Wf d₀) (h₀ : Reconciled d₀)
    {s : Sys ι World Write Key Label Failure Answer} (hr : Reach (Step Env) (system ops d₀) s)
    (c : Uuid) (cur : LedgerCurrency) :
    s.shared.funds c cur =
      s.shared.paidIn c cur + s.shared.traded c cur + s.shared.transferred c cur := by
  have h := invariant_of_reach (I := Reconciled) lax_anyChange granted_noAssumption hwf h₀
    (fun _ h => ⟨h.credited, h.booked, h.kept⟩)
    (fun d d' h he => by cases he <;> exact ⟨h.credited, h.booked, h.kept⟩) (fun _ _ _ => True)
    (fun i ℓ ids d ws hwf _ hi hv hk _ =>
      ⟨hi.credited.commit hk, hi.booked.commit hk, kept_commit hi.kept hwf hv hk⟩)
    (fun e s s' h => ⟨stepIf_of_step h, trivial⟩) hr
  exact funds_eq_books h.1 h.2.credited h.2.booked h.2.kept c cur

/-- A transfer is rejected after it was funded: its debit stays in the books. -/
theorem reconciled_of_cancellation :
    ∃ s, Reach (Step Env) (system cancelledOps (sampleWorld "NG")) s ∧
      s.shared.paidIn 1 (.fiat .usd) = 10000 ∧ s.shared.transferred 1 (.fiat .usd) = -10000 ∧
      s.shared.funds 1 (.fiat .usd) = s.shared.paidIn 1 (.fiat .usd) +
        s.shared.traded 1 (.fiat .usd) + s.shared.transferred 1 (.fiat .usd) := by
  obtain ⟨s, hr, hs⟩ := exists_reach cancelledOps (sampleWorld "NG") [0, 1, 2, 3]
    [(0, 15), (1, 41), (2, 22), (3, 5)] (fun s => s.shared.paidIn 1 (.fiat .usd) = 10000 &&
      s.shared.transferred 1 (.fiat .usd) = -10000) (by decide) (by decide +kernel)
  simp only [Bool.and_eq_true, decide_eq_true_eq] at hs
  refine ⟨s, hr, hs.1, hs.2, reconciled_of_reach (wf_sampleWorld "NG") ⟨rfl, rfl, ?_⟩ hr 1 _⟩
  intro id t _ ht
  cases ht

end Kimana
