import Kimana.SettlementWallet.Book

/-!
# One commit, one customer

Which customer a statement is about is told from the row it names, and that may lead to the customer
over another row: the transfer of a history row, the source of an entry.

* `World.holdings` : the rows of a customer.
* `Write.Concerns` : the customer that a statement is about.
* `holdings_applyAll` : statements about one customer leave the holdings of the others alone.
* `isolated_of_reach` : **every commit is about one customer**, and one with a session's amounts
  about the session's.
-/

namespace Kimana

open ReadCommitted Table Engine

/-! ### Holdings -/

/-- The transfer is one of a customer. -/
def World.ownsTransfer (d : World) (c id : Uuid) : Bool :=
  d.transfers.any fun t => t.id = id && t.customerId = c

/-- The entry was posted for something of a customer. -/
def World.ownsSource (d : World) (c : Uuid) : EntrySource → Bool
  | .transfer id => d.ownsTransfer c id
  | .settlementTrade id => d.trades.any fun row => row.id = id && row.customerId = c
  | .inboundPayment id => d.inbound.any fun p => p.id = id && p.customerId = c

/-- The rows of a customer. -/
structure Holdings where
  transfers : List TransferRow
  history : List HistoryRow
  quotes : List QuoteRow
  entries : List LedgerEntry
  trades : List TradeRow
  collections : List CollectionRow
  inbound : List InboundPayment

def World.holdings (d : World) (c : Uuid) : Holdings where
  transfers := d.transfers.filter fun t => t.customerId = c
  history := d.history.filter fun h => d.ownsTransfer c h.transferId
  quotes := d.quotes.filter fun q => q.customerId = c
  entries := d.ledger.filter fun e => d.ownsSource c e.source
  trades := d.trades.filter fun row => row.customerId = c
  collections := d.collections.filter fun r => r.customerId = c
  inbound := d.inbound.filter fun p => p.customerId = c

theorem ownsSource_iff {d : World} {c : Uuid} {src : EntrySource} :
    d.ownsSource c src = true ↔ d.Owner src c := by
  cases src <;> simp [World.ownsSource, World.ownsTransfer, World.Owner]

/-- The balance of a customer is the sum of its entries. -/
theorem funds_eq_holdings {d : World} (hwf : Wf d) (c : Uuid) (cur : LedgerCurrency) :
    d.funds c cur = netIn (d.holdings c).entries cur := by
  cases hacc : d.accountOf c cur with
  | none =>
    -- Without an account there is no entry.
    have hnil : (d.holdings c).entries.filter (fun e => e.currency = cur) = [] := by
      refine List.filter_eq_nil_iff.2 fun e he => ?_
      obtain ⟨hmem, hs⟩ := List.mem_filter.1 he
      obtain ⟨a, ha, -, hcur, ho⟩ := hwf.entries e hmem
      have hcust := hwf.owner_eq (ownsSource_iff.1 hs) ho
      rw [decide_eq_true_eq, ← hcur]
      rintro rfl
      have := hwf.accountOf_eq ha
      rw [hcust, hacc] at this
      cases this
    rw [netIn, hnil, World.funds, hacc]
    rfl
  | some id =>
    have ha := World.accountOf_mem hacc
    rw [World.funds, hacc, Option.map_some, Option.getD_some, World.balance, World.entriesOf, netIn,
      World.holdings, List.filter_filter]
    congr 2
    refine List.filter_congr fun e he => ?_
    rw [Bool.eq_iff_iff, Bool.and_eq_true, decide_eq_true_eq, decide_eq_true_eq, and_comm]
    cases hs : d.ownsSource c e.source with
    | false =>
      refine iff_of_false (fun hid => ?_) (by simp)
      obtain ⟨b, hb, hbid, -, ho⟩ := hwf.entries e he
      rw [of_nodup_map hwf.accountIds hb ha (hbid.trans hid)] at ho
      rw [ownsSource_iff.2 ho] at hs
      cases hs
    | true =>
      have ho : ∀ c', d.Owner e.source c' → c' = c := fun c' => hwf.owner_eq (ownsSource_iff.1 hs)
      rw [hwf.account_iff ha he ho]
      exact and_congr_left fun _ => by simp

/-! ### Statements about a customer -/

/-- The customer that a statement is about, in the database it ends up in. -/
def Write.Concerns (d : World) (c : Uuid) : Write → Prop
  | insertTransfer row => row.customerId = c
  | setStatus id .. | setSettlementRef id _ => d.Owner (.transfer id) c
  | insertHistory row => d.Owner (.transfer row.transferId) c
  | insertEntry e => d.Owner e.source c
  | consumeQuote id _ => ∃ q ∈ d.quotes, q.id = id ∧ q.customerId = c
  | insertTrade row => row.customerId = c
  | insertInbound row => row.customerId = c
  | payCollection id _ | cancelCollection id _ => ∃ r ∈ d.collections, r.id = id ∧ r.customerId = c
  | _ => True

/-- A statement in brief is about the same customer. -/
theorem concerns_brief {d : World} {c : Uuid} {ws : List Write}
    (h : ∀ w ∈ brief ws, w.Concerns d c) : ∀ w ∈ ws, w.Concerns d c := by
  intro w hw
  cases hb : w.brief with
  | none => cases w <;> trivial
  | some b =>
    have hc := h b (List.mem_filterMap.2 ⟨w, hw, hb⟩)
    cases w <;> simp only [Write.brief] at hb
    all_goals first | trivial | (cases hb; exact hc)

/-- Rows that are changed keep their place among the rows of others. -/
theorem filter_updateWhere {α : Type} {p q : α → Bool} {f : α → α} {l : List α}
    (hf : ∀ x ∈ l, p x = true → q x = false ∧ q (f x) = false) :
    (updateWhere p f l).filter q = l.filter q := by
  induction l with
  | nil => rfl
  | cons x l ih =>
    have hrest := ih fun y hy => hf y (List.mem_cons_of_mem _ hy)
    have hx := hf x List.mem_cons_self
    simp only [updateWhere, List.map_cons, List.filter_cons] at hrest ⊢
    cases hp : p x with
    | false => simp [hrest]
    | true =>
      obtain ⟨h₁, h₂⟩ := hx hp
      simp [hrest, h₁, h₂]

theorem any_updateWhere {α : Type} {p q : α → Bool} {f : α → α} {l : List α}
    (hf : ∀ x, q (f x) = q x) : (updateWhere p f l).any q = l.any q := by
  rw [updateWhere, List.any_map]
  congr 1
  funext x
  simp only [Function.comp_apply]
  split
  · exact hf x
  · rfl

section Frame

variable {d d' : World} {c c₀ : Uuid}

/-- A row whose transfer concerns `c₀` is not one of `c`. -/
theorem ownsSource_of_ne (hwf' : Wf d') (he : Ext d d') {src : EntrySource} (ho : d'.Owner src c₀)
    (hne : c ≠ c₀) : d.ownsSource c src = false := by
  refine Bool.eq_false_iff.2 fun h => hne ?_
  exact hwf'.owner_eq ho ((ownsSource_iff.1 h).ext he)

/-- A row with the id of a row of `c₀` is of `c₀`, if ids are unique where rows keep their
customer. -/
theorem customer_of_id {α : Type} {rows rows' : List α} {key customer : α → Uuid} {id : Uuid}
    (hn : (rows'.map key).Nodup)
    (he : ∀ r ∈ rows, ∃ r' ∈ rows', key r' = key r ∧ customer r' = customer r)
    (h : ∃ r ∈ rows', key r = id ∧ customer r = c₀) {r : α} (hr : r ∈ rows) (hid : key r = id) :
    customer r = c₀ := by
  obtain ⟨r', hr', hid', hcust'⟩ := h
  obtain ⟨r₁, hr₁, hid₁, hcust₁⟩ := he r hr
  obtain rfl := of_nodup_map hn hr₁ hr' (hid₁.trans (hid.trans hid'.symm))
  exact hcust₁.symm.trans hcust'

/-- A change of transfers that are not of `c`. -/
theorem holdings_updateTransfers {g : TransferRow → TransferRow} {id : Uuid}
    (hg : ∀ t, (g t).id = t.id ∧ (g t).customerId = t.customerId)
    (hid : ∀ t ∈ d.transfers, t.id = id → t.customerId ≠ c) :
    World.holdings { d with transfers := updateWhere (·.id = id) g d.transfers } c =
      d.holdings c := by
  have howns : ∀ c', World.ownsTransfer
      { d with transfers := updateWhere (·.id = id) g d.transfers } c' =
        d.ownsTransfer c' := fun c' => by
    funext i
    exact any_updateWhere fun t => by rw [(hg t).1, (hg t).2]
  have hrows : (updateWhere (·.id = id) g d.transfers).filter (fun t => t.customerId = c) =
      d.transfers.filter fun t => t.customerId = c := by
    refine filter_updateWhere fun t ht hp => ?_
    simp [(hg t).2, hid t ht (of_decide_eq_true hp)]
  have hentries : World.ownsSource
      { d with transfers := updateWhere (·.id = id) g d.transfers } c = d.ownsSource c := by
    funext src
    cases src with
    | transfer i => exact congrFun (howns c) i
    | settlementTrade i | inboundPayment i => rfl
  simp only [World.holdings, howns, hrows, hentries]

/-- A change of payment requests that are not of `c`. -/
theorem holdings_updateCollections {g : CollectionRow → CollectionRow} {id : Uuid}
    (hg : ∀ r, (g r).customerId = r.customerId)
    (hid : ∀ r ∈ d.collections, r.id = id → r.customerId ≠ c) :
    World.holdings { d with collections := updateWhere (·.id = id) g d.collections } c =
      d.holdings c := by
  have hrows : (updateWhere (·.id = id) g d.collections).filter (fun r => r.customerId = c) =
      d.collections.filter fun r => r.customerId = c := by
    refine filter_updateWhere fun r hr hp => ?_
    simp [hg, hid r hr (of_decide_eq_true hp)]
  exact congrArg (fun rows => { d.holdings c with collections := rows }) hrows

/-- A statement about a customer leaves the holdings of the others alone. -/
theorem holdings_apply (hwf' : Wf d') (hcol : (d'.collections.map (·.id)).Nodup) {w : Write}
    (he : Ext d d') (hw : w.Concerns d' c₀) (hne : c ≠ c₀) :
    (w.apply d).holdings c = d.holdings c := by
  have hsource : ∀ {src}, d'.Owner src c₀ → d.ownsSource c src = false := fun ho =>
    ownsSource_of_ne hwf' he ho hne
  have htransfer : ∀ {id}, d'.Owner (.transfer id) c₀ →
      ∀ t ∈ d.transfers, t.id = id → t.customerId ≠ c := by
    rintro id ho t ht hid rfl
    have hown : d.ownsSource t.customerId (.transfer id) = true :=
      List.any_eq_true.2 ⟨t, ht, by simpa using hid⟩
    rw [hsource ho] at hown
    cases hown
  have hrequest : ∀ {id}, (∃ r ∈ d'.collections, r.id = id ∧ r.customerId = c₀) →
      ∀ r ∈ d.collections, r.id = id → r.customerId ≠ c := fun h r hr hid => by
    have hkeep : ∀ r ∈ d.collections, ∃ r' ∈ d'.collections, r'.id = r.id ∧
        r'.customerId = r.customerId := fun r hr => by
      obtain ⟨r', hr', hcore⟩ := he.collections r hr
      exact ⟨r', hr', (congrArg CollectionRow.id hcore :),
        (congrArg CollectionRow.customerId hcore :)⟩
    rw [customer_of_id hcol hkeep h hr hid]
    exact hne.symm
  cases w with
  | insertAccount | insertAudit | insertEvent | saveCursor => rfl
  | setStatus id s now => exact holdings_updateTransfers (fun _ => ⟨rfl, rfl⟩) (htransfer hw)
  | setSettlementRef id ref => exact holdings_updateTransfers (fun _ => ⟨rfl, rfl⟩) (htransfer hw)
  | insertTransfer row =>
    have hrow : row.customerId ≠ c := fun h => hne (h.symm.trans hw)
    have howns : ((Write.insertTransfer row).apply d).ownsTransfer c = d.ownsTransfer c := by
      funext i
      simp [World.ownsTransfer, Write.apply, hrow]
    have hentries : ((Write.insertTransfer row).apply d).ownsSource c = d.ownsSource c := by
      funext src
      cases src with
      | transfer i => exact congrFun howns i
      | settlementTrade i | inboundPayment i => rfl
    simp only [World.holdings, howns, hentries]
    simp [Write.apply, hrow]
  | insertHistory row =>
    -- A row of another's transfer is appended outside the history of `c`.
    have ho : d'.Owner (.transfer row.transferId) c₀ := hw
    have hrow : d.ownsTransfer c row.transferId = false := hsource ho
    have hfilter : (d.history ++ [row]).filter (fun h => d.ownsTransfer c h.transferId) =
        d.history.filter fun h => d.ownsTransfer c h.transferId := by
      simp [hrow]
    exact congrArg (fun rows => { d.holdings c with history := rows }) hfilter
  | insertEntry e =>
    have hrow : d.ownsSource c e.source = false := hsource hw
    have hfilter : (d.ledger ++ [e]).filter (fun e => d.ownsSource c e.source) =
        d.ledger.filter fun e => d.ownsSource c e.source := by
      simp [hrow]
    exact congrArg (fun rows => { d.holdings c with entries := rows }) hfilter
  | consumeQuote id t =>
    have hfilter : (updateWhere (fun q => q.id = id && q.consumedByTransferId.isNone)
        (·.consumedBy t) d.quotes).filter (fun q => q.customerId = c) =
          d.quotes.filter fun q => q.customerId = c := by
      refine filter_updateWhere fun q hq hp => ?_
      simp only [Bool.and_eq_true, decide_eq_true_eq] at hp
      have hkeep : ∀ q ∈ d.quotes, ∃ q' ∈ d'.quotes, q'.id = q.id ∧
          q'.customerId = q.customerId := fun q hq => by
        obtain ⟨q', hq', hcore⟩ := he.quotes q hq
        exact ⟨q', hq', (congrArg QuoteRow.id hcore :), (congrArg QuoteRow.customerId hcore :)⟩
      have hcust : q.customerId = c₀ := customer_of_id hwf'.quoteIds hkeep hw hq hp.1
      have hq : q.customerId ≠ c := hcust ▸ hne.symm
      have hc : (q.consumedBy t).customerId ≠ c := hq
      simp [hq, hc]
    exact congrArg (fun rows => { d.holdings c with quotes := rows }) hfilter
  | insertTrade row =>
    have hrow : row.customerId ≠ c := fun h => hne (h.symm.trans hw)
    have hentries : ((Write.insertTrade row).apply d).ownsSource c = d.ownsSource c := by
      funext src
      cases src with
      | settlementTrade i => simp [World.ownsSource, Write.apply, hrow]
      | transfer i | inboundPayment i => rfl
    simp only [World.holdings, hentries]
    simp [Write.apply, hrow, World.ownsTransfer]
  | insertInbound row =>
    have hrow : row.customerId ≠ c := fun h => hne (h.symm.trans hw)
    have hentries : ((Write.insertInbound row).apply d).ownsSource c = d.ownsSource c := by
      funext src
      cases src with
      | inboundPayment i => simp [World.ownsSource, Write.apply, hrow]
      | transfer i | settlementTrade i => rfl
    simp only [World.holdings, hentries]
    simp [Write.apply, hrow, World.ownsTransfer]
  | payCollection id now => exact holdings_updateCollections (fun _ => rfl) (hrequest hw)
  | cancelCollection id now => exact holdings_updateCollections (fun _ => rfl) (hrequest hw)

/-- So do statements about one customer in a row. -/
theorem holdings_applyAll {ws : List Write} (hwf' : Wf (applyAll ws d))
    (hcol : ((applyAll ws d).collections.map (·.id)).Nodup)
    (hws : ∀ w ∈ ws, w.Concerns (applyAll ws d) c₀) (hne : c ≠ c₀) :
    (applyAll ws d).holdings c = d.holdings c := by
  have hall : ∀ {d' : World}, Wf d' → (d'.collections.map (·.id)).Nodup → ∀ {ws d},
      Ext (applyAll ws d) d' → (∀ w ∈ ws, w.Concerns d' c₀) →
        (applyAll ws d).holdings c = d.holdings c := by
    intro d' hwf' hcol ws
    induction ws with
    | nil => exact fun _ _ => rfl
    | cons w ws ih =>
      intro d he hws
      rw [applyAll_cons] at he ⊢
      rw [ih he fun w hw => hws w (List.mem_cons_of_mem _ hw)]
      exact holdings_apply hwf' hcol (((w.ext d).trans (ext_applyAll ws _)).trans he)
        (hws w List.mem_cons_self) hne
  exact hall hwf' hcol (.refl _) hws

end Frame

/-! ### What a commit is about -/

/-- The session of an operation on a customer's own money. -/
def Op.session : Op → Option Session
  | executeTrade session .. => some session
  | cancelCollection _ session .. => some session
  | _ => none

section Commit

variable {A : Assumed} {op : Op} {d : World} {ws : List Write}

theorem concerns_path {t : TransferRow} {steps : List PathStep} {tail : List Write}
    (h : Moves d ws t steps tail) (ht : tail = [] ∨ ∃ ev, tail = [.insertEvent ev]) :
    ∀ w ∈ ws, w.Concerns (applyAll ws d) t.customerId := by
  obtain ⟨t', ht', hcore, -⟩ := h.transfer ht
  obtain ⟨hmem, hid⟩ := World.transfer_mem ht'
  have ho : (applyAll ws d).Owner (.transfer t.id) t.customerId :=
    ⟨t', hmem, hid, TransferRow.customerId_of_core hcore⟩
  refine concerns_brief fun w hw => ?_
  rw [h.brief, List.mem_append] at hw
  rcases hw with hw | hw
  · obtain ⟨e, rfl, hs⟩ | ⟨r, rfl, hr⟩ | ⟨s, rfl⟩ | ⟨a, rfl, -⟩ := about_pathBrief hw
    · rw [Write.Concerns, hs]
      exact ho
    · rw [Write.Concerns, hr]
      exact ho
    · exact ho
    · trivial
  · obtain rfl | ⟨ev, rfl⟩ := ht
    · cases hw
    · rw [List.mem_singleton.1 hw]
      trivial

/-- Every commit is about one customer. -/
theorem Op.Commits.concerns (h : op.Commits A d ws) {ℓ : List Key} {ids : List ℕ}
    (hv : Valid ℓ ids d ws) :
    ∃ c₀, (∀ session, op.session = some session → c₀ = session.customerId) ∧
      ∀ w ∈ ws, w.Concerns (applyAll ws d) c₀ := by
  -- A path concerns the owner of the transfer, whoever drives it.
  have hpath : op.session = none → ∀ {t steps tail}, Moves d ws t steps tail →
      (tail = [] ∨ ∃ ev, tail = [.insertEvent ev]) →
      ∃ c₀, (∀ session, op.session = some session → c₀ = session.customerId) ∧
        ∀ w ∈ ws, w.Concerns (applyAll ws d) c₀ := by
    intro hnone t steps tail hm ht
    refine ⟨t.customerId, fun session hs => ?_, concerns_path hm ht⟩
    rw [hnone] at hs
    cases hs
  have hcollection : ∀ {id : Uuid} {r : CollectionRow}, d.collection id = some r →
      ∃ r' ∈ (applyAll ws d).collections, r'.id = id ∧ r'.customerId = r.customerId := by
    intro id r hr
    obtain ⟨r', hr', hcore⟩ := (ext_applyAll ws d).collections r (List.mem_of_find?_eq_some hr)
    have hid : r.id = id := by simpa using List.find?_some hr
    exact ⟨r', hr', (congrArg CollectionRow.id hcore :).trans hid,
      (congrArg CollectionRow.customerId hcore :)⟩
  cases op with
  | executeTrade =>
    obtain ⟨row, hrow, ht⟩ := h
    refine ⟨row.customerId, fun _ hs => by cases hs; exact hrow.customerId,
      concerns_brief fun w hw => ?_⟩
    have ho : (applyAll ws d).Owner (.settlementTrade row.id) row.customerId :=
      ⟨row, ht.mem, rfl, rfl⟩
    rw [ht.brief, SettlementWallet.tradeEntries] at hw
    simp only [List.map_cons, List.map_nil, List.mem_cons, List.not_mem_nil, or_false] at hw
    rcases hw with rfl | rfl | rfl
    · exact rfl
    · exact ho
    · exact ho
  | cancelCollection state session id answer =>
    obtain ⟨hb, r, hr, hc, -, -⟩ := h
    refine ⟨session.customerId, fun _ hs => by cases hs; rfl, concerns_brief fun w hw => ?_⟩
    rw [hb, List.mem_singleton] at hw
    rw [hw, ← hc]
    exact hcollection hr
  | applyInbound | receiveYellowcard | receiveBridge =>
    obtain ⟨row, ⟨-, -, hsettles⟩, hb⟩ := h
    refine ⟨row.customerId, fun _ hs => (by cases hs), concerns_brief fun w hw => ?_⟩
    have hmem : row ∈ (applyAll ws d).inbound := by
      rw [inbound_applyAll, ← payments_brief, hb]
      exact List.mem_append_right _ List.mem_cons_self
    rw [hb] at hw
    simp only [List.cons_append, List.nil_append, List.mem_cons, Option.mem_toList,
      Option.map_eq_some_iff] at hw
    rcases hw with rfl | rfl | ⟨id, hid, rfl⟩
    · exact rfl
    · exact ⟨row, hmem, rfl, rfl⟩
    · -- A request is settled by a payment of its own customer only.
      obtain ⟨r, now, rfl, hdue, -⟩ := hsettles id hid
      rw [← hdue.customer]
      exact hcollection hdue.found
  | createTransfer state session input body bodies =>
    obtain ⟨q, r, id, now, hc⟩ | ⟨id, t, steps, -, hm, -⟩ := h
    case inr => exact hpath rfl hm (.inl rfl)
    obtain ⟨t, ht, hcore, -⟩ := hc.transfer hv
    obtain ⟨hmem, hid⟩ := World.transfer_mem ht
    have ho : (applyAll ws d).Owner (.transfer id) session.customerId :=
      ⟨t, hmem, hid, TransferRow.customerId_of_core hcore⟩
    refine ⟨session.customerId, fun _ hs => (by cases hs), concerns_brief fun w hw => ?_⟩
    rw [hc.brief] at hw
    simp only [List.mem_cons, List.not_mem_nil, or_false] at hw
    rcases hw with rfl | rfl | rfl | rfl
    · exact rfl
    · obtain ⟨q', hq', hq⟩ := (ext_applyAll ws d).quotes q (List.mem_of_find?_eq_some hc.quote)
      have hqid : q.id = input.quoteId := by simpa using List.find?_some hc.quote
      exact ⟨q', hq', (congrArg QuoteRow.id hq :).trans hqid,
        (congrArg QuoteRow.customerId hq :).trans hc.customer⟩
    · exact ho
    · exact ho
  | runOnce =>
    obtain ⟨_, _, _, _, _, _, t, steps, hr⟩ | ⟨_, _, rfl⟩ := h
    · exact hpath rfl hr.moves (.inr ⟨_, rfl⟩)
    · refine ⟨0, fun _ hs => (by cases hs), fun w hw => ?_⟩
      rw [List.mem_singleton.1 hw]
      trivial
  | _ =>
    obtain ⟨t, steps, -, hm, -⟩ := h
    exact hpath rfl hm (.inl rfl)

/-- No commit adds a payment request. -/
theorem collectionIds_applyAll (ws : List Write) (d : World) :
    (applyAll ws d).collections.map (·.id) = d.collections.map (·.id) := by
  induction ws generalizing d with
  | nil => rfl
  | cons w ws ih =>
    rw [applyAll_cons, ih]
    cases w <;> first | rfl | exact map_updateWhere fun _ => rfl

end Commit

/-! ### Every reachable state -/

variable {ι : Type} [DecidableEq ι] {ops : ι → Op} {d₀ : World}

/-- **Every commit is about one customer**: a step of any run, however the statements of the calls
interleave, leaves the transfers, histories, quotes, entries, trades, payment requests and payments
of all customers but one as they are, and their balances.  A trade or a cancellation is about its
session's. -/
theorem isolated_of_reach (hwf : Wf d₀) (hcol : (d₀.collections.map (·.id)).Nodup)
    {s s' : Sys ι World Write Key Label Failure Answer} {e : Event ι}
    (hr : Reach (Step Env) (system ops d₀) s) (hst : Step Env e s s') :
    ∃ c₀, (∀ i session, e = .go i → (ops i).session = some session → c₀ = session.customerId) ∧
      ∀ c, c ≠ c₀ → s'.shared.holdings c = s.shared.holdings c ∧
        ∀ cur, s'.shared.funds c cur = s.shared.funds c cur := by
  have hids : (s.shared.collections.map (·.id)).Nodup :=
    (invariant_of_reach (I := fun d => (d.collections.map (·.id)).Nodup) lax_anyChange
      granted_noAssumption hwf hcol (fun d h => (h : (d.collections.map (·.id)).Nodup))
      (fun d d' h he => by cases he <;> exact h)
      (fun _ _ _ => True) (fun i ℓ ids d ws _ _ hi _ _ _ => by rwa [collectionIds_applyAll])
      (fun e s s' h => ⟨stepIf_of_step h, trivial⟩) hr).2
  have hquiet : ∀ {d : World}, (∀ c, d.holdings c = s.shared.holdings c) →
      ∃ c₀, (∀ i session, e = .go i → (ops i).session = some session → c₀ = session.customerId) ∧
        ∀ c, c ≠ c₀ → d.holdings c = s.shared.holdings c := fun {d} hd => by
    cases e with
    | go i => exact ⟨(((ops i).session).map (·.customerId)).getD 0,
        fun j session hj hs => by cases hj; rw [hs]; rfl, fun c _ => hd c⟩
    | crash | env => exact ⟨0, fun j _ hj => (by cases hj), fun c _ => hd c⟩
  have hm := moved_of_reach hwf hr hst
  have hwf' := wf_of_reach hwf (hr.tail ⟨e, hst⟩)
  suffices h : ∃ c₀, (∀ i session, e = .go i → (ops i).session = some session →
      c₀ = session.customerId) ∧ ∀ c, c ≠ c₀ → s'.shared.holdings c = s.shared.holdings c by
    obtain ⟨c₀, hsession, hrest⟩ := h
    refine ⟨c₀, hsession, fun c hne => ⟨hrest c hne, fun cur => ?_⟩⟩
    rw [funds_eq_holdings hwf', funds_eq_holdings (wf_of_reach hwf hr), hrest c hne]
  generalize s'.shared = d' at hm hwf' ⊢
  cases hm with
  | go i d _ hch =>
    rcases hch with rfl | rfl | ⟨ws, rfl, hv, hk⟩
    · exact hquiet fun _ => rfl
    · exact hquiet fun _ => rfl
    · obtain ⟨c₀, hsession, hws⟩ := hk.concerns hv
      refine ⟨c₀, fun j session hj hs => ?_, fun c hne =>
        holdings_applyAll hwf' (by rwa [collectionIds_applyAll]) hws hne⟩
      cases hj
      exact hsession session hs
  | crash i => exact hquiet fun _ => rfl
  | env d he => exact hquiet fun _ => by cases he <;> rfl

/-- A purchase books for its customer; another one's holdings stay as they are. -/
theorem isolated_of_purchase :
    ∃ s s', Reach (Step Env) (system SettlementWallet.boughtOps (sampleWorld "NG")) s ∧
      Step Env (.go 1) s s' ∧ s'.shared.trades ≠ s.shared.trades ∧
      s'.shared.holdings 7 = s.shared.holdings 7 := by
  obtain ⟨s, s', hr, hst, h⟩ := exists_step SettlementWallet.boughtOps (sampleWorld "NG") [0, 1]
    [(0, 15), (1, 26)] 1 (fun s s' => decide (s'.shared.trades ≠ s.shared.trades)) (by decide)
    (by decide +kernel)
  obtain ⟨c₀, hsession, hrest⟩ := isolated_of_reach (wf_sampleWorld "NG") (by simp [sampleWorld])
    hr hst
  have hc : c₀ = sampleSession.customerId := hsession 1 _ rfl rfl
  exact ⟨s, s', hr, hst, of_decide_eq_true h, (hrest 7 (by rw [hc]; decide)).1⟩

end Kimana
