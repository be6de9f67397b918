import Kimana.Op.Funds

/-!
# The settlement wallet's book

The trade legs in the ledger are, one for one, the legs of the recorded trades, and nothing else
touches a USDC account.

* `Booked` : that correspondence, in brief.
* `walletSum` : what a customer bought less what it converted.
* `booked_of_reach` : **the wallet**: its book is complete, its balance is the sum of its trades and
  never negative, in every reachable state.
-/

namespace Kimana.SettlementWallet

open ReadCommitted Table Engine

/-- The entry is a leg of a trade. -/
def isLeg (e : LedgerEntry) : Bool :=
  match e.source with
  | .settlementTrade _ => true
  | _ => false

/-- The trade legs in the ledger are those of the recorded trades. -/
def Booked (d : World) : Prop :=
  (d.ledger.map .strip).filter isLeg = d.trades.flatMap tradeEntries

/-- The signed USDC amount of a trade. -/
def usdcSigned (row : TradeRow) : ℤ :=
  match row.kind with
  | .buy => row.usdcAmountMinor
  | .convert => -row.usdcAmountMinor

/-- The signed local amount of a trade. -/
def localSigned (row : TradeRow) : ℤ :=
  match row.kind with
  | .buy => -row.localAmountMinor
  | .convert => row.localAmountMinor

/-- What a customer bought less what it converted. -/
def walletSum (trades : List TradeRow) (customerId : Uuid) : ℤ :=
  ((trades.filter fun t => t.customerId = customerId).map usdcSigned).sum

/-- The balance of every customer's USDC account is the sum of its trades and not negative. -/
structure WalletOk (d : World) : Prop where
  booked : Booked d
  sum : ∀ c, d.funds c .usdc = walletSum d.trades c
  nonneg : ∀ c, 0 ≤ d.funds c .usdc

/-- The legs of a trade are the signed amounts. -/
theorem tradeEntries_amounts (row : TradeRow) :
    ∃ text, tradeEntries row =
      [Ledger.posted (.settlementTrade row.id) (localSigned row) (.fiat row.localCurrency) text,
        Ledger.posted (.settlementTrade row.id) (usdcSigned row) .usdc text] := by
  simp only [tradeEntries, legs, localSigned, usdcSigned]
  cases row.kind <;> exact ⟨_, rfl⟩

/-! ### One commit -/

section Commit

variable {A : Assumed} {op : Op} {d : World} {ws : List Write}

/-- A commit adds the legs of the trade it inserts. -/
theorem legs_brief (h : op.Commits A d ws) :
    ((brief ws).filterMap Write.entry).filter isLeg =
      ((brief ws).filterMap Write.trade).flatMap tradeEntries := by
  have hpath : ∀ {t steps tail}, Moves d ws t steps tail →
      (tail = [] ∨ ∃ ev, tail = [.insertEvent ev]) →
      ((brief ws).filterMap Write.entry).filter isLeg =
        ((brief ws).filterMap Write.trade).flatMap tradeEntries := fun hm ht => by
    have hnone : (brief ws).filterMap Write.trade = [] :=
      hm.filterMap ht (fun _ => rfl) (fun _ => rfl) (fun _ _ _ => rfl) (fun _ => rfl) fun _ => rfl
    rw [hnone, List.flatMap_nil, List.filter_eq_nil_iff]
    exact fun e he => by simp [isLeg, hm.source ht e he]
  cases op with
  | executeTrade =>
    obtain ⟨row, -, ht⟩ := h
    obtain ⟨text, hlegs⟩ := tradeEntries_amounts row
    rw [ht.brief, hlegs]
    simp only [List.map_cons, List.map_nil, List.filterMap_cons, Write.entry, Write.trade,
      List.filterMap_nil, List.flatMap_cons, List.flatMap_nil, hlegs]
    rfl
  | cancelCollection state session id answer =>
    have hb : brief ws = [.cancelCollection id 0] := h.1
    rw [hb]
    rfl
  | applyInbound | receiveYellowcard | receiveBridge =>
    obtain ⟨row, -, hb⟩ := h
    rw [hb]
    cases row.collectionId <;> rfl
  | createTransfer =>
    obtain ⟨_, _, _, _, hc⟩ | ⟨_, t, steps, -, hm, -⟩ := h
    · rw [hc.brief]; rfl
    · exact hpath hm (.inl rfl)
  | runOnce =>
    obtain ⟨_, _, _, _, _, _, t, steps, hr⟩ | ⟨_, _, rfl⟩ := h
    · exact hpath hr.moves (.inr ⟨_, rfl⟩)
    · rfl
  | _ =>
    obtain ⟨t, steps, -, hm, -⟩ := h
    exact hpath hm (.inl rfl)

theorem Booked.commit (h : Booked d) (hk : op.Commits A d ws) : Booked (applyAll ws d) := by
  have hb := legs_brief hk
  rw [entries_brief, trades_brief] at hb
  rw [Booked, ledger_applyAll, trades_applyAll, List.map_append, List.filter_append, hb, h,
    List.flatMap_append]

/-- The legs of a path are in currencies a customer can name. -/
theorem netIn_path_usdc (t : TransferRow) (source : TransferStatus) (steps : List PathStep) :
    netIn (pathEntries t source steps) .usdc = 0 := by
  induction steps generalizing source with
  | nil => rfl
  | cons st steps ih =>
    have hrefund : netIn (refundFor t st.target) .usdc = 0 := by
      simp only [refundFor]
      split <;> rfl
    have hleg : netIn (legFor t st.payee source st.target) .usdc = 0 := by
      simp only [legFor]
      split <;> try rfl
      split <;> rfl
    rw [pathEntries, netIn_append, netIn_append, hrefund, hleg, ih]
    rfl

/-- The balance a trade debits is that of its customer. -/
theorem Trade.funds_le {row : TradeRow} (h : Trade d ws row) (hwf : Wf d)
    (hwf' : Wf (applyAll ws d))
    (hacct : ∃ acct, ⟨acct, row.customerId, debitCurrency row.kind row.localCurrency⟩ ∈
      (applyAll ws d).accounts) :
    debitMinor row.kind row.localAmountMinor row.usdcAmountMinor ≤
      d.funds row.customerId (debitCurrency row.kind row.localCurrency) := by
  obtain ⟨acct, hacct⟩ := hacct
  rw [hwf.funds_of_account hwf' (ext_applyAll ws d) hacct]
  exact h.funds acct hacct

/-- A trade has an account in each of its two currencies. -/
theorem Trade.account {row : TradeRow} (h : Trade d ws row) (hwf' : Wf (applyAll ws d)) :
    ∃ acct, ⟨acct, row.customerId, debitCurrency row.kind row.localCurrency⟩ ∈
      (applyAll ws d).accounts := by
  obtain ⟨text, hlegs⟩ := tradeEntries_amounts row
  have hmem : ∃ x ∈ tradeEntries row, x.source = .settlementTrade row.id ∧
      x.currency = debitCurrency row.kind row.localCurrency := by
    rw [hlegs]
    cases row.kind <;> simp [Ledger.posted, debitCurrency]
  obtain ⟨x, hx, hsrc, hcur⟩ := hmem
  have ho : (applyAll ws d).Owner x.source row.customerId := hsrc ▸ ⟨row, h.mem, rfl, rfl⟩
  rw [← hcur]
  exact exists_account hwf' (h.entries ▸ hx) ho

theorem WalletOk.commit (h : WalletOk d) (hwf : Wf d) (hwf' : Wf (applyAll ws d)) {ℓ : List Key}
    {ids : List ℕ} (hv : Valid ℓ ids d ws) (hk : op.Commits A d ws) : WalletOk (applyAll ws d) := by
  -- Only a trade posts USDC, so every other commit leaves the wallets alone.
  have hquiet : (∀ c, (applyAll ws d).funds c .usdc = d.funds c .usdc) →
      (brief ws).filterMap Write.trade = [] → WalletOk (applyAll ws d) := fun hf ht => by
    rw [trades_brief] at ht
    refine ⟨h.booked.commit hk, fun c => ?_, fun c => hf c ▸ h.nonneg c⟩
    rw [hf, trades_applyAll, ht, List.append_nil, h.sum]
  cases hk.posting hwf hwf' hv with
  | none hf ht => exact hquiet (fun c => hf c _) ht
  | path hm htail _ hf ht =>
    refine hquiet (fun c => ?_) ht
    rw [hf, netIn_path_usdc]
    split <;> exact Int.add_zero _
  | credit _ hf ht =>
    refine hquiet (fun c => ?_) ht
    rw [hf]
    split <;> exact Int.add_zero _
  | @trade row ht hf =>
    have hsum : ∀ c, (applyAll ws d).funds c .usdc =
        d.funds c .usdc + if c = row.customerId then usdcSigned row else 0 := fun c => by
      obtain ⟨text, hlegs⟩ := tradeEntries_amounts row
      rw [hf, hlegs]
      simp [Ledger.posted]
    refine ⟨h.booked.commit hk, fun c => ?_, fun c => ?_⟩
    · have htrades : (applyAll ws d).trades = d.trades ++ [row] := by
        rw [trades_applyAll, ← trades_brief, ht.brief]
        rfl
      rw [hsum, htrades, h.sum]
      by_cases hc : c = row.customerId
      · simp [walletSum, hc]
      · simp [walletSum, hc, Ne.symm hc]
    · rw [hsum]
      -- The trade debits what its check found under the account lock.
      have hle := ht.funds_le hwf hwf' (ht.account hwf')
      have hpos := ht.usdc
      have := h.nonneg c
      split
      case isFalse => omega
      case isTrue hc =>
        subst hc
        cases hkind : row.kind <;> simp only [usdcSigned, hkind]
        · omega
        · rw [hkind] at hle
          simp only [debitMinor, debitCurrency] at hle
          omega

end Commit

/-! ### What the book says -/

section Facts

variable {d : World}

theorem isLeg_tradeEntries {row : TradeRow} {e : LedgerEntry} (h : e ∈ tradeEntries row) :
    e.source = .settlementTrade row.id := by
  obtain ⟨text, hlegs⟩ := tradeEntries_amounts row
  rw [hlegs] at h
  simp only [List.mem_cons, List.not_mem_nil, or_false] at h
  rcases h with rfl | rfl <;> rfl

/-- The legs of one trade among those of all. -/
theorem filter_tradeEntries {trades : List TradeRow} (hn : (trades.map (·.id)).Nodup)
    {row : TradeRow} (hrow : row ∈ trades) :
    ((trades.flatMap tradeEntries).filter fun e => e.source = .settlementTrade row.id) =
      tradeEntries row := by
  induction trades with
  | nil => cases hrow
  | cons x trades ih =>
    rw [List.map_cons, List.nodup_cons] at hn
    have hrest : ∀ y ∈ trades, y.id = row.id → x ≠ row := by
      rintro y hy hid rfl
      exact hn.1 (hid ▸ List.mem_map_of_mem hy)
    rw [List.flatMap_cons, List.filter_append]
    rcases List.mem_cons.1 hrow with rfl | hrow
    · rw [List.filter_eq_self.2 fun e he => by simp [isLeg_tradeEntries he],
        List.filter_eq_nil_iff.2, List.append_nil]
      intro e he
      obtain ⟨y, hy, he⟩ := List.mem_flatMap.1 he
      simp only [isLeg_tradeEntries he, EntrySource.settlementTrade.injEq, decide_eq_true_eq]
      exact fun hid => hrest y hy hid rfl
    · have hne : x.id ≠ row.id := fun hid => hn.1 (hid ▸ List.mem_map_of_mem hrow)
      rw [List.filter_eq_nil_iff.2 fun e he => by simp [isLeg_tradeEntries he, hne], ih hn.2 hrow]
      rfl

/-- A trade has exactly two entries: its local and its USDC leg, on accounts of its customer. -/
theorem legs_of_trade (hwf : Wf d) (h : Booked d) {row : TradeRow} (hrow : row ∈ d.trades) :
    ∃ l u, (d.ledger.filter fun e => e.source = .settlementTrade row.id) = [l, u] ∧
      l.amountMinor = localSigned row ∧ u.amountMinor = usdcSigned row ∧
      ⟨l.accountId, row.customerId, .fiat row.localCurrency⟩ ∈ d.accounts ∧
      ⟨u.accountId, row.customerId, .usdc⟩ ∈ d.accounts := by
  have htwo : (d.ledger.filter fun e => e.source = .settlementTrade row.id).map .strip =
      tradeEntries row := by
    have hsub : (d.ledger.filter fun e => e.source = .settlementTrade row.id).map .strip =
        ((d.ledger.map .strip).filter isLeg).filter
          fun e => e.source = .settlementTrade row.id := by
      rw [List.filter_filter, List.filter_map]
      congr 1
      refine List.filter_congr fun e _ => ?_
      by_cases hs : e.source = .settlementTrade row.id <;> simp [isLeg, LedgerEntry.strip, hs]
    rw [hsub, h, filter_tradeEntries hwf.tradeIds hrow]
  obtain ⟨text, hlegs⟩ := tradeEntries_amounts row
  rw [hlegs] at htwo
  have hacct : ∀ e ∈ d.ledger.filter fun e => e.source = .settlementTrade row.id,
      ⟨e.accountId, row.customerId, e.currency⟩ ∈ d.accounts := by
    intro e he
    obtain ⟨he, hs⟩ := List.mem_filter.1 he
    obtain ⟨a, ha, hid, hcur, ho⟩ := hwf.entries e he
    have ho' : d.Owner (.settlementTrade row.id) row.customerId := ⟨row, hrow, rfl, rfl⟩
    rw [of_decide_eq_true hs] at ho
    rw [← hid, ← hcur, ← hwf.owner_eq ho' ho]
    exact ha
  generalize d.ledger.filter _ = es at htwo hacct ⊢
  obtain ⟨l, rest, rfl, hl, hrest⟩ := List.map_eq_cons_iff.1 htwo
  obtain ⟨u, rfl, hu⟩ := List.map_eq_singleton_iff.1 hrest
  have hlc : l.currency = .fiat row.localCurrency := (congrArg LedgerEntry.currency hl :)
  have huc : u.currency = .usdc := (congrArg LedgerEntry.currency hu :)
  exact ⟨l, u, rfl, (congrArg LedgerEntry.amountMinor hl :),
    (congrArg LedgerEntry.amountMinor hu :), hlc ▸ hacct l (by simp), huc ▸ hacct u (by simp)⟩

end Facts

/-! ### Every reachable state -/

variable {ι : Type} [DecidableEq ι] {ops : ι → Op} {d₀ : World}

/-- **The wallet**, in every state that any calls reach: a customer has one trade for a key, a trade
has exactly its two legs, and the balance of a USDC account is what its customer bought less what
it converted, and not negative. -/
theorem booked_of_reach (hwf : Wf d₀) (h₀ : WalletOk d₀)
    {s : Sys ι World Write Key Label Failure Answer} (hr : Reach (Step Env) (system ops d₀) s) :
    (s.shared.trades.map fun t => (t.customerId, t.idempotencyKey)).Nodup ∧
    (∀ row ∈ s.shared.trades, ∃ l u,
      (s.shared.ledger.filter fun e => e.source = .settlementTrade row.id) = [l, u] ∧
      l.amountMinor = localSigned row ∧ u.amountMinor = usdcSigned row ∧
      ⟨l.accountId, row.customerId, .fiat row.localCurrency⟩ ∈ s.shared.accounts ∧
      ⟨u.accountId, row.customerId, .usdc⟩ ∈ s.shared.accounts) ∧
    ∀ a ∈ s.shared.accounts, a.currency = .usdc →
      s.shared.balance a.id = walletSum s.shared.trades a.customerId ∧
        0 ≤ s.shared.balance a.id := by
  have h := invariant_of_reach (I := WalletOk) lax_anyChange granted_noAssumption hwf h₀
    (fun _ h => ⟨h.booked, h.sum, h.nonneg⟩)
    (fun d d' h he => by cases he <;> exact ⟨h.booked, h.sum, h.nonneg⟩) (fun _ _ _ => True)
    (fun i ℓ ids d ws hwf hwf' hi hv hk _ => hi.commit hwf hwf' hv hk)
    (fun e s s' h => ⟨stepIf_of_step h, trivial⟩) hr
  refine ⟨h.1.tradeKeys, fun row hrow => legs_of_trade h.1 h.2.booked hrow, fun a ha hcur => ?_⟩
  have hfunds := h.1.funds_eq ha
  rw [hcur] at hfunds
  exact ⟨hfunds ▸ h.2.sum a.customerId, hfunds ▸ h.2.nonneg a.customerId⟩

/-- Dollars come in, and USDC is bought. -/
def boughtOps : Fin 2 → Op
  | 0 => .applyInbound (samplePayment "payment" 10000)
  | 1 => .executeTrade sampleSession ⟨.buy, "purchase", .usd, 4000⟩ (.error .serverError) "trade"

/-- A purchase has its two legs, and leaves its amount on the USDC account. -/
theorem booked_of_purchase :
    ∃ s row a l u, Reach (Step Env) (system boughtOps (sampleWorld "NG")) s ∧
      s.shared.trades = [row] ∧ (s.calls 1).result? = some (.ok (.trade row)) ∧
      (s.shared.ledger.filter fun e => e.source = .settlementTrade row.id) = [l, u] ∧
      l.amountMinor = -4000 ∧ u.amountMinor = 4000 ∧ a ∈ s.shared.accounts ∧ a.currency = .usdc ∧
      s.shared.balance a.id = 4000 := by
  obtain ⟨s, hr, hs⟩ := exists_reach boughtOps (sampleWorld "NG") [0, 1] [(0, 15), (1, 27)]
    (fun s => (s.shared.accounts.any fun a => a.currency = .usdc && a.customerId = 1) &&
      walletSum s.shared.trades 1 = 4000 && s.shared.trades.length = 1 &&
      s.shared.trades.all fun row => (s.calls 1).result? = some (.ok (.trade row)) &&
        localSigned row = -4000 && usdcSigned row = 4000)
    (by decide) (by decide +kernel)
  simp only [Bool.and_eq_true, decide_eq_true_eq] at hs
  obtain ⟨⟨⟨haccount, hsum⟩, hlength⟩, hrows⟩ := hs
  obtain ⟨row, htrades⟩ := List.length_eq_one_iff.1 hlength
  have hmem : row ∈ s.shared.trades := htrades ▸ List.mem_singleton_self _
  have hrow := List.all_eq_true.1 hrows row hmem
  obtain ⟨a, ha, hc⟩ := List.any_eq_true.1 haccount
  simp only [Bool.and_eq_true, decide_eq_true_eq] at hc hrow
  have hok : WalletOk (sampleWorld "NG") := ⟨rfl, fun _ => rfl, fun _ => Int.le_refl _⟩
  obtain ⟨-, hlegs, hw⟩ := booked_of_reach (wf_sampleWorld "NG") hok hr
  obtain ⟨l, u, hlu, hl, hu, -⟩ := hlegs row hmem
  exact ⟨s, row, a, l, u, hr, htrades, hrow.1.1, hlu, hl.trans hrow.1.2, hu.trans hrow.2, ha, hc.1,
    (hw a ha hc.1).1.trans (hc.2 ▸ hsum)⟩

end Kimana.SettlementWallet
