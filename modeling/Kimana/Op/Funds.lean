import Kimana.Ledger.Balance
import Kimana.Op.Effect

/-!
# What an operation does to balances

`Op.Commits.posting` : every commit posts nothing, the legs of a path, the legs of a trade or the
credit of a payment, each for one customer (`Posting`).
-/

namespace Kimana

open ReadCommitted Table Engine

/-- What a commit does to the balances. -/
inductive Posting (A : Assumed) (op : Op) (d : World) (ws : List Write) : Prop
  | none : (∀ c cur, (applyAll ws d).funds c cur = d.funds c cur) →
      (brief ws).filterMap Write.trade = [] → Posting A op d ws
  | path {t : TransferRow} {steps : List PathStep} {tail : List Write} : Moves d ws t steps tail →
      (tail = [] ∨ ∃ ev, tail = [.insertEvent ev]) → op.Takes A d ws t steps →
      (∀ c cur, (applyAll ws d).funds c cur = d.funds c cur +
        if c = t.customerId then netIn (pathEntries t t.currentStatus steps) cur else 0) →
      (brief ws).filterMap Write.trade = [] → Posting A op d ws
  | trade {row : TradeRow} : SettlementWallet.Trade d ws row →
      (∀ c cur, (applyAll ws d).funds c cur = d.funds c cur +
        if c = row.customerId then netIn (SettlementWallet.tradeEntries row) cur else 0) →
      Posting A op d ws
  | credit {row : InboundPayment} : 0 < row.amountMinor →
      (∀ c cur, (applyAll ws d).funds c cur = d.funds c cur +
        if c = row.customerId then netIn [Collections.creditEntry row] cur else 0) →
      (brief ws).filterMap Write.trade = [] → Posting A op d ws

variable {A : Assumed} {op : Op} {d : World} {ws : List Write}

/-- A path posts its legs on accounts of its transfer's customer. -/
theorem Engine.Moves.funds {t : TransferRow} {steps : List PathStep} {tail : List Write}
    (h : Moves d ws t steps tail) (ht : tail = [] ∨ ∃ ev, tail = [.insertEvent ev]) (hwf : Wf d)
    (hwf' : Wf (applyAll ws d)) (c : Uuid) (cur : LedgerCurrency) :
    (applyAll ws d).funds c cur = d.funds c cur +
      if c = t.customerId then netIn (pathEntries t t.currentStatus steps) cur else 0 := by
  obtain ⟨t', ht', hcore, -⟩ := h.transfer ht
  obtain ⟨hm, hid⟩ := World.transfer_mem ht'
  have ho : (applyAll ws d).Owner (.transfer t.id) t.customerId :=
    ⟨t', hm, hid, TransferRow.customerId_of_core hcore⟩
  have hentries : (Kimana.brief ws).filterMap Write.entry =
      pathEntries t t.currentStatus steps := by
    have htail : tail.filterMap Write.entry = [] := by obtain rfl | ⟨ev, rfl⟩ := ht <;> rfl
    rw [h.brief, List.filterMap_append, htail, List.append_nil, entry_pathBrief]
  rw [← hentries]
  exact funds_of_source hwf hwf' (ext_applyAll ws d) (h.source ht) ho c cur

/-- The entries a trade adds are its legs. -/
theorem SettlementWallet.Trade.entries {row : TradeRow} (h : Trade d ws row) :
    (Kimana.brief ws).filterMap Write.entry = tradeEntries row := by
  rw [h.brief, List.filterMap_cons]
  exact filterMap_entry_map _

theorem SettlementWallet.Trade.mem {row : TradeRow} (h : Trade d ws row) :
    row ∈ (applyAll ws d).trades := by
  rw [trades_applyAll, ← trades_brief, h.brief]
  exact List.mem_append_right _ List.mem_cons_self

/-- A trade posts its legs on accounts of its customer. -/
theorem SettlementWallet.Trade.posts {row : TradeRow} (h : Trade d ws row) (hwf : Wf d)
    (hwf' : Wf (applyAll ws d)) (c : Uuid) (cur : LedgerCurrency) :
    (applyAll ws d).funds c cur = d.funds c cur +
      if c = row.customerId then netIn (tradeEntries row) cur else 0 := by
  have ho : (applyAll ws d).Owner (.settlementTrade row.id) row.customerId :=
    ⟨row, h.mem, rfl, rfl⟩
  rw [← h.entries]
  refine funds_of_source hwf hwf' (ext_applyAll ws d) (fun e he => ?_) ho c cur
  rw [h.entries] at he
  simp only [tradeEntries, List.mem_cons, List.not_mem_nil, or_false] at he
  rcases he with rfl | rfl <;> rfl

/-- Every commit posts for one customer. -/
theorem Op.Commits.posting (h : op.Commits A d ws) (hwf : Wf d) (hwf' : Wf (applyAll ws d))
    {ℓ : List Key} {ids : List ℕ} (hv : Valid ℓ ids d ws) : Posting A op d ws := by
  have hpath : ∀ {t steps tail}, Moves d ws t steps tail →
      (tail = [] ∨ ∃ ev, tail = [.insertEvent ev]) → op.Takes A d ws t steps → Posting A op d ws :=
    fun hm ht htakes => .path hm ht htakes (hm.funds ht hwf hwf')
      (hm.filterMap ht (fun _ => rfl) (fun _ => rfl) (fun _ _ _ => rfl) (fun _ => rfl) fun _ => rfl)
  have hnone : (brief ws).filterMap Write.entry = [] → (brief ws).filterMap Write.trade = [] →
      Posting A op d ws := fun he ht =>
    .none (funds_of_none hwf hwf' (ext_applyAll ws d) he) ht
  cases op with
  | executeTrade =>
    obtain ⟨row, -, ht⟩ := h
    exact .trade ht (ht.posts hwf hwf')
  | cancelCollection state session id answer =>
    have hb : brief ws = [.cancelCollection id 0] := h.1
    exact hnone (by rw [hb]; rfl) (by rw [hb]; rfl)
  | applyInbound | receiveYellowcard | receiveBridge =>
    obtain ⟨row, -, hb⟩ := h
    have hmem : row ∈ (applyAll ws d).inbound := by
      rw [inbound_applyAll, ← payments_brief, hb]
      exact List.mem_append_right _ List.mem_cons_self
    have hentries : (brief ws).filterMap Write.entry = [Collections.creditEntry row] := by
      rw [hb]
      cases row.collectionId <;> rfl
    -- The table refuses payments that are not positive, and this one was inserted.
    have hin : .insertInbound row ∈ ws := by
      have hrow : row ∈ ws.filterMap Write.payment := by
        rw [← payments_brief, hb]
        exact List.mem_cons_self
      obtain ⟨w, hw, hwr⟩ := List.mem_filterMap.1 hrow
      cases w <;> cases hwr
      exact hw
    have hpos : 0 < row.amountMinor := by
      obtain ⟨ws₁, ws₂, rfl⟩ := List.append_of_mem hin
      exact (valid_append.1 hv).2.1.ok.2.1
    have ho : (applyAll ws d).Owner (.inboundPayment row.id) row.customerId :=
      ⟨row, hmem, rfl, rfl⟩
    refine .credit hpos ?_ (by rw [hb]; cases row.collectionId <;> rfl)
    rw [← hentries]
    refine funds_of_source hwf hwf' (ext_applyAll ws d) (fun e he => ?_) ho
    rw [hentries, List.mem_singleton] at he
    exact he ▸ rfl
  | _ =>
    -- The calls on transfers: a path, a creation, or the cursor of a listener.
    cases h.kind with
    | path hm htail htakes => exact hpath hm htail htakes
    | create hop hc => exact hnone (by rw [hc.brief]; rfl) (by rw [hc.brief]; rfl)
    | apart ha =>
      first
        | (obtain ⟨t, steps, hid, hm, hok⟩ := h
           exact hpath hm (.inl rfl) ⟨hid, hok⟩)
        | (obtain ⟨_, _, _, _, hc⟩ | ⟨_, t, steps, -, hm, hadv⟩ := h
           · exact hnone (by rw [hc.brief]; rfl) (by rw [hc.brief]; rfl)
           · exact hpath hm (.inl rfl) hadv)
        | (obtain ⟨_, _, _, _, _, target, t, steps, hr⟩ | ⟨_, _, rfl⟩ := h
           · exact hpath hr.moves (.inr ⟨_, rfl⟩) ⟨target, _, hr.kind, rfl⟩
           · exact hnone rfl rfl)

end Kimana
