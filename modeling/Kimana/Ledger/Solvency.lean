import Kimana.SettlementWallet.Book
import Kimana.Transfers.Claim
import Kimana.Transfers.Funding
import Kimana.Transfers.Rejection

/-!
# Overdrafts in serial runs

Calls that run one after another cannot race.  The debits of a funding and of a trade are checked;
the debit of the receive account at `COMPLETED` or `REVERSING` is not, and the money credited there
at `SETTLED` can have been spent by a trade.

* `Serial` : calls run one after another.
* `overdrawn_of_spent` : a transfer completes after its money was spent.
* `solvent_of_reach` : **without that** no balance is negative, in every state of a serial run.
-/

namespace Kimana

open ReadCommitted Table Util Engine TransferStatus

/-! ### What a path moves -/

/-- The send amount has been debited and not refunded. -/
def owes : TransferStatus → Bool
  | .funded | .settling | .settled | .payingOut | .completed | .reversing => true
  | _ => false

/-- The receive amount has been credited and not debited. -/
def credited : TransferStatus → Bool
  | .settled | .payingOut => true
  | _ => false

/-- What a transfer at a status has moved in its send currency; the negation of `-2 ^ 63` is
itself. -/
def sendMoved (t : TransferRow) : TransferStatus → ℤ
  | .funded | .settling | .settled | .payingOut | .completed | .reversing =>
    negI64 t.sendAmountMinor
  | .reversed => negI64 t.sendAmountMinor + t.sendAmountMinor
  | _ => 0

/-- What it has moved in its receive currency. -/
def receiveMoved (t : TransferRow) : TransferStatus → ℤ
  | .settled | .payingOut => t.receiveAmountMinor
  | .completed | .reversing | .reversed => t.receiveAmountMinor + negI64 t.receiveAmountMinor
  | _ => 0

/-- What a transfer at a status has moved on its customer's account in a currency. -/
def held (t : TransferRow) (cur : LedgerCurrency) (s : TransferStatus) : ℤ :=
  (if .fiat t.sendCurrency = cur then sendMoved t s else 0) +
    if .fiat t.receiveCurrency = cur then receiveMoved t s else 0

/-- Amounts that are not negative have negations. -/
theorem held_of_nonneg {t : TransferRow} (hs : 0 ≤ t.sendAmountMinor)
    (hr : 0 ≤ t.receiveAmountMinor) (cur : LedgerCurrency) (s : TransferStatus) :
    held t cur s =
      (if .fiat t.sendCurrency = cur ∧ owes s = true then -t.sendAmountMinor else 0) +
        if .fiat t.receiveCurrency = cur ∧ credited s = true then t.receiveAmountMinor else 0 := by
  cases s <;>
    simp [held, owes, credited, sendMoved, receiveMoved, negI64_of_nonneg hs, negI64_of_nonneg hr]

/-- A transition posts the difference. -/
theorem netIn_step (t : TransferRow) (cur : LedgerCurrency) {source target : TransferStatus}
    (payee : String) (h : target ∈ source.allowed) (hrej : target ≠ .rejected) :
    held t cur source + netIn (refundFor t target ++ legFor t payee source target) cur =
      held t cur target := by
  cases source <;> simp only [allowed, List.mem_cons, List.not_mem_nil, or_false] at h <;>
    rcases h with rfl | rfl | rfl <;>
    simp [held, sendMoved, receiveMoved, refundFor, legFor, entryOf, Ledger.posted] at hrej ⊢ <;>
    split_ifs <;> omega

/-- So does an allowed path that does not end in `REJECTED`. -/
theorem netIn_path (t : TransferRow) (cur : LedgerCurrency) {source : TransferStatus}
    {steps : List PathStep} (h : pathAllowed source (steps.map (·.target)) = true)
    (hrej : pathEnd source steps ≠ .rejected) :
    held t cur source + netIn (pathEntries t source steps) cur =
      held t cur (pathEnd source steps) := by
  induction steps generalizing source with
  | nil => simp [pathEntries]
  | cons st steps ih =>
    simp only [List.map_cons, pathAllowed, Bool.and_eq_true, decide_eq_true_eq] at h
    have htarget : st.target ≠ .rejected := by
      intro hr
      rw [pathEnd_cons, hr] at hrej
      cases steps with
      | nil => exact hrej rfl
      | cons st' steps => simp [hr, pathAllowed, allowed] at h
    have hstep := netIn_step t cur st.payee h.1 htarget
    have hrest := ih h.2 hrej
    rw [pathEnd_cons, pathEntries, netIn_append, netIn_append]
    rw [netIn_append] at hstep
    omega

/-- A path on which the send amount becomes debited goes through `FUNDED`. -/
theorem funded_mem_path {source : TransferStatus} {path : List TransferStatus}
    (h : pathAllowed source path = true) (hs : owes source = false)
    (he : owes (path.getLastD source) = true) : .funded ∈ path := by
  induction path generalizing source with
  | nil => rw [List.getLastD_nil, hs] at he; cases he
  | cons target path ih =>
    simp only [pathAllowed, Bool.and_eq_true, decide_eq_true_eq] at h
    by_cases hf : target = .funded
    · exact hf ▸ List.mem_cons_self
    · refine List.mem_cons_of_mem _ (ih h.2 ?_ (by rwa [List.getLastD_cons] at he))
      have hall := h.1
      cases source <;> simp only [allowed, List.mem_cons, List.not_mem_nil, or_false, owes,
        Bool.true_eq_false] at hall hs <;> rcases hall with rfl | rfl | rfl <;>
        first | rfl | exact absurd rfl hf

/-! ### Balances -/

/-- A change that takes a transfer out of `SETTLED` and `PAYING_OUT` finds its receive amount on the
customer's receive account. -/
def covered (d d' : World) : Bool :=
  d.transfers.all fun t => !credited t.currentStatus ||
    match d'.transfer t.id with
    | none => true
    | some t' => credited t'.currentStatus ||
      decide (t.receiveAmountMinor ≤ d.funds t.customerId (.fiat t.receiveCurrency))

/-- Such a change. -/
def Covered (d d' : World) : Prop := covered d d' = true

theorem Covered.le {d d' : World} (h : Covered d d') {id : Uuid} {t t' : TransferRow}
    (ht : d.transfer id = some t) (ht' : d'.transfer id = some t')
    (hc : credited t.currentStatus = true) (hc' : credited t'.currentStatus = false) :
    t.receiveAmountMinor ≤ d.funds t.customerId (.fiat t.receiveCurrency) := by
  obtain ⟨hm, rfl⟩ := World.transfer_mem ht
  have := List.all_eq_true.1 h t hm
  simpa [hc, ht', hc'] using this

/-- No balance is negative, and neither is an amount of a quote or a transfer. -/
structure Solvent (d : World) : Prop where
  funds : ∀ c cur, 0 ≤ d.funds c cur
  quotes : ∀ q ∈ d.quotes, 0 ≤ q.sendAmountMinor ∧ 0 ≤ q.receiveAmountMinor
  transfers : ∀ t ∈ d.transfers, 0 ≤ t.sendAmountMinor ∧ 0 ≤ t.receiveAmountMinor

/-! ### One commit -/

section Commit

variable {op : Op} {d : World} {ws : List Write}

/-- The amounts stay what they are, and a created transfer has those of its quote. -/
theorem Solvent.amounts (h : Solvent d) {A : Assumed} (hk : op.Commits A d ws) :
    (∀ q ∈ (applyAll ws d).quotes, 0 ≤ q.sendAmountMinor ∧ 0 ≤ q.receiveAmountMinor) ∧
      ∀ t ∈ (applyAll ws d).transfers, 0 ≤ t.sendAmountMinor ∧ 0 ≤ t.receiveAmountMinor := by
  have hamount : ∀ {t t' : TransferRow}, t'.core = t.core →
      0 ≤ t.sendAmountMinor ∧ 0 ≤ t.receiveAmountMinor →
      0 ≤ t'.sendAmountMinor ∧ 0 ≤ t'.receiveAmountMinor := fun hc ht =>
    (TransferRow.eq_of_core (fun t => 0 ≤ t.sendAmountMinor ∧ 0 ≤ t.receiveAmountMinor)
      (fun _ => rfl) hc).mpr ht
  refine ⟨fun q hq => ?_, fun t ht => ?_⟩
  · obtain ⟨q₀, hq₀, hc⟩ := quotes_applyAll ws d q hq
    have h₀ := h.quotes q₀ hq₀
    rwa [show q.sendAmountMinor = q₀.sendAmountMinor from (congrArg QuoteRow.sendAmountMinor hc :),
      show q.receiveAmountMinor = q₀.receiveAmountMinor from
        (congrArg QuoteRow.receiveAmountMinor hc :)]
  · -- A transfer was there before, or a creation copied the amounts of its quote.
    have hmem := List.mem_map_of_mem (f := (·.core)) ht
    rw [cores_applyAll, List.mem_append] at hmem
    rcases hmem with hmem | hmem
    · obtain ⟨t₀, ht₀, hc⟩ := List.mem_map.1 hmem
      exact hamount hc.symm (h.transfers t₀ ht₀)
    · obtain ⟨row, hrow, hc⟩ := List.mem_map.1 hmem
      refine hamount hc.symm ?_
      rw [← created_brief] at hrow
      have hpath : ∀ {t : TransferRow} {steps tail}, Moves d ws t steps tail →
          (tail = [] ∨ ∃ ev, tail = [.insertEvent ev]) → (brief ws).filterMap Write.created = [] :=
        fun hm htail => hm.filterMap htail (fun _ => rfl) (fun _ => rfl) (fun _ _ _ => rfl)
          (fun _ => rfl) fun _ => rfl
      cases hk.kind with
      | path hm htail =>
        rw [hpath hm htail] at hrow
        cases hrow
      | create hop hcr =>
        rw [hcr.brief] at hrow
        simp only [List.filterMap_cons, Write.created, List.filterMap_nil, List.mem_singleton]
          at hrow
        subst hrow
        exact h.quotes _ (List.mem_of_find?_eq_some hcr.quote)
      | apart ha =>
        obtain ⟨w, hw, hwrow⟩ := List.mem_filterMap.1 hrow
        have := ha.transfer w hw
        cases w <;> cases hwrow
        cases this

/-- A commit whose checks can be trusted, and which finds its receive amount, overdraws nothing. -/
theorem Solvent.commit (h : Solvent d) (hwf : Wf d) (hwf' : Wf (applyAll ws d)) {ℓ : List Key}
    {ids : List ℕ} (hv : Valid ℓ ids d ws) (hk : op.Commits fundsAssumed d ws)
    (hop : ∀ cfg, op ≠ .runOnce cfg) (hcov : Covered d (applyAll ws d)) :
    Solvent (applyAll ws d) := by
  obtain ⟨hquotes, htransfers⟩ := h.amounts hk
  refine ⟨fun c cur => ?_, hquotes, htransfers⟩
  have hnn := h.funds c cur
  cases hk.posting hwf hwf' hv with
  | none hf => rwa [hf]
  | @credit row hpos hf =>
    have hcredit : 0 ≤ netIn [Collections.creditEntry row] cur := by
      simp only [netIn_cons, netIn_nil, Collections.creditEntry, Ledger.posted]
      split <;> omega
    rw [hf]
    split <;> omega
  | @trade row ht hf =>
    obtain ⟨text, hlegs⟩ := SettlementWallet.tradeEntries_amounts row
    have hle := ht.funds_le hwf hwf' (ht.account hwf')
    have hu := ht.usdc
    have hl := ht.localAmount
    rw [hf, hlegs]
    split
    case isFalse => omega
    case isTrue hc =>
      subst hc
      simp only [netIn_cons, netIn_nil, Ledger.posted]
      -- The debited leg is covered; the other one is a credit.
      cases hkind : row.kind <;> rw [hkind] at hle <;>
        simp only [SettlementWallet.debitMinor, SettlementWallet.debitCurrency] at hle <;>
        simp only [SettlementWallet.localSigned, SettlementWallet.usdcSigned, hkind]
      · by_cases hcur : LedgerCurrency.fiat row.localCurrency = cur
        · subst hcur
          simp only [if_true]
          split <;> omega
        · rw [if_neg hcur]
          split <;> omega
      · by_cases hcur : LedgerCurrency.usdc = cur
        · subst hcur
          simp only [if_true]
          split <;> omega
        · rw [if_neg hcur]
          split <;> omega
  | @path t steps tail hm htail htakes hf =>
    obtain ⟨hsend, hrecv⟩ := h.transfers t (World.transfer_mem hm.found).1
    rw [hf]
    split
    case isFalse => omega
    case isTrue hc =>
    subst hc
    by_cases hmem : .funded ∈ steps.map (·.target)
    · -- The debit of a funding, which was checked.
      obtain ⟨state, hadv⟩ := htakes.funded hmem
      cases hadv with
      | stay => simp at hmem
      | reject => simp at hmem
      | forward st hfwd _ _ hfunds =>
        have htarget : st.target = .funded := by simpa [eq_comm] using hmem
        have hs := eq_awaitingFunds_of_forwardStep (htarget ▸ hfwd)
        obtain ⟨acct, hacct, hle, -⟩ :=
          hm.funded htail (.forward st hfwd ‹_› ‹_› hfunds ‹_›) hwf hwf'
          htarget hs
        have hbal := hwf.funds_of_account hwf' (ext_applyAll ws d) (World.accountOf_mem hacct)
        have hentries : pathEntries t t.currentStatus [st] =
            [entryOf t t.sendCurrency (-t.sendAmountMinor) "funded"] := by
          simp [pathEntries, refundFor, legFor, htarget, negI64_of_nonneg hsend]
        rw [hentries]
        simp only [netIn_cons, netIn_nil, entryOf, Ledger.posted]
        split
        case isFalse => omega
        case isTrue hcur =>
          subst hcur
          omega
    · by_cases hrej : pathEnd t.currentStatus steps = .rejected
      · -- A rejection posts nothing.
        have hentries : pathEntries t t.currentStatus steps = [] := by
          by_cases hnil : steps = []
          · rw [hnil]; rfl
          · obtain ⟨⟨st, rfl, hst⟩, -⟩ := htakes.rejected hop (hrej ▸ pathEnd_mem _ hnil)
            simp [pathEntries, refundFor, legFor, hst]
        rw [hentries, netIn_nil]
        omega
      · have hnet := netIn_path t cur hm.allowed hrej
        obtain ⟨t', ht', -, hend⟩ := hm.transfer htail
        have hcover := hcov.le hm.found ht'
        rw [hend] at hcover
        have howes : owes (pathEnd t.currentStatus steps) = true → owes t.currentStatus = true := by
          intro he
          by_contra hs
          rw [pathEnd_eq] at he
          exact hmem (funded_mem_path hm.allowed (by simpa using hs) he)
        generalize netIn _ cur = net at hnet ⊢
        rw [held_of_nonneg hsend hrecv, held_of_nonneg hsend hrecv] at hnet
        by_cases hcs : .fiat t.sendCurrency = cur <;>
          by_cases hcr : .fiat t.receiveCurrency = cur <;>
          cases h₁ : owes t.currentStatus <;> cases h₂ : owes (pathEnd t.currentStatus steps) <;>
          cases h₃ : credited t.currentStatus <;>
          cases h₄ : credited (pathEnd t.currentStatus steps) <;>
          simp only [h₁, h₂, h₃, h₄, hcs, hcr, and_true, and_false, if_true, if_false,
            Bool.false_eq_true, forall_const, false_implies] at hnet hcover howes <;>
          omega

end Commit

/-! ### Every serial run -/

/-- A program that begins by looking at the database, if it does anything. -/
def Looks {E A : Type} (p : Prog World Write Key Label E A) : Prop :=
  (∃ f, p = .query f) ∨ (∃ a, p = .ret a) ∨ ∃ e, p = .fail e

theorem Looks.wrap {E A : Type} {e : E → Failure} {a : A → Answer}
    {p : Prog World Write Key Label E A} (h : Looks p) : Looks (wrap e a p) := by
  obtain ⟨f, rfl⟩ | ⟨x, rfl⟩ | ⟨x, rfl⟩ := h
  · exact .inl ⟨_, rfl⟩
  · exact .inr (.inl ⟨_, rfl⟩)
  · exact .inr (.inr ⟨_, rfl⟩)

/-- Every operation does. -/
theorem looks_prog (op : Op) : Looks op.prog := by
  have hfail : ∀ {E A : Type} {e : E}, Looks (.fail e : Prog World Write Key Label E A) :=
    .inr (.inr ⟨_, rfl⟩)
  have hquery : ∀ {E A : Type} {f}, Looks (.query f : Prog World Write Key Label E A) :=
    .inl ⟨_, rfl⟩
  cases op <;> refine .wrap ?_
  case createTransfer =>
    unfold Service.createTransfer
    split
    · exact hfail
    · exact hquery
  case executeTrade =>
    unfold SettlementWallet.executeTrade
    split
    · exact hfail
    · exact hquery
  case receiveYellowcard state w =>
    unfold Collections.receiveYellowcard
    repeat' split
    all_goals first | exact hfail | exact hquery | exact .inr (.inl ⟨_, rfl⟩)
  case receiveBridge state w =>
    unfold Collections.receiveBridge
    repeat' split
    all_goals first | exact hfail | exact hquery | exact .inr (.inl ⟨_, rfl⟩)
  all_goals exact hquery

/-- A call at rest relies on no balance. -/
theorem funds_of_resting {op : Op} {c : Call World Write Key Label Failure Answer}
    (h : c.Resting op.prog) : c.label.funds = none := by
  obtain rfl | ⟨r, made, rfl⟩ | ⟨made, rfl⟩ := h
  · obtain ⟨f, hf⟩ | ⟨a, hf⟩ | ⟨e, hf⟩ := looks_prog op <;> rw [hf] <;> rfl
  · rfl
  · rfl

variable {ι : Type} [DecidableEq ι] {ops : ι → Op} {d₀ : World}

/-- No step of a serial run lowers a balance that another call relies on. -/
theorem keepsFunds_of_serial {e : Event ι} {s s' : Sys ι World Write Key Label Failure Answer}
    (h : Serial (fun i => (ops i).prog) e s) (hst : Step Env e s s') :
    StepIf KeepsFunds e s s' := by
  refine ⟨hst, fun j hj => ?_⟩
  cases e with
  | go i =>
    have hrest := h i rfl j (by rintro rfl; exact hj rfl)
    rw [KeepsFunds, fundsKept, funds_of_resting hrest]
  | crash i =>
    obtain ⟨p, loc, w, -, rfl⟩ := hst
    rw [KeepsFunds, fundsKept]
    split
    · rfl
    · exact decide_eq_true (Int.le_refl _)
  | env =>
    obtain ⟨d, he, rfl⟩ := hst
    rw [KeepsFunds, fundsKept]
    split
    · rfl
    · exact decide_eq_true (by cases he <;> exact Int.le_refl _)

/-- **Solvency**, in every state of a serial run in which a transfer that leaves `SETTLED` or
`PAYING_OUT` finds its receive amount on the receive account: no balance is negative. -/
theorem solvent_of_reach (hwf : Wf d₀) (hops : ∀ i cfg, ops i ≠ .runOnce cfg)
    (hbal : ∀ a ∈ d₀.accounts, 0 ≤ d₀.balance a.id)
    (hq : ∀ q ∈ d₀.quotes, 0 ≤ q.sendAmountMinor ∧ 0 ≤ q.receiveAmountMinor)
    (ht : ∀ t ∈ d₀.transfers, 0 ≤ t.sendAmountMinor ∧ 0 ≤ t.receiveAmountMinor)
    {s : Sys ι World Write Key Label Failure Answer}
    (hr : Reach (fun e s s' => Step Env e s s' ∧ Serial (fun i => (ops i).prog) e s ∧
      Covered s.shared s'.shared) (system ops d₀) s) : ∀ a ∈ s.shared.accounts,
        0 ≤ s.shared.balance a.id := by
  have h₀ : Solvent d₀ := by
    refine ⟨fun c cur => ?_, hq, ht⟩
    by_cases ha : ∃ acct, ⟨acct, c, cur⟩ ∈ d₀.accounts
    · obtain ⟨acct, ha⟩ := ha
      have heq : d₀.funds c cur = d₀.balance acct := hwf.funds_eq ha
      exact heq ▸ hbal _ ha
    · rw [World.funds, World.accountOf, List.find?_eq_none.2]
      · exact Int.le_refl _
      · rintro ⟨acct, c', cur'⟩ ha' hx
        simp only [Bool.and_eq_true, decide_eq_true_eq] at hx
        obtain ⟨rfl, rfl⟩ := hx
        exact ha ⟨acct, ha'⟩
  have h := invariant_of_reach (I := Solvent) lax_keepsFunds granted_keepsFunds hwf h₀
    (fun _ h => ⟨h.funds, h.quotes, h.transfers⟩)
    (fun d d' h he => by cases he <;> exact ⟨h.funds, h.quotes, h.transfers⟩)
    (fun _ d d' => Covered d d')
    (fun i ℓ ids d ws hwf hwf' hi hv hk hcov => hi.commit hwf hwf' hv hk (hops i) hcov)
    (fun e s s' h => ⟨keepsFunds_of_serial h.2.1 h.1, h.2.2⟩) hr
  exact fun a ha => h.1.funds_eq ha ▸ h.2.funds _ _

/-! ### Serial schedules -/

/-- Operations that run one after another, each to its end, to a state that passes a test. -/
theorem exists_serial (ops : ι → Op) (d : World) (c : World → World → Bool) (is : List ι)
    (turns : List (ι × ℕ)) (P : Sys ι World Write Key Label Failure Answer → Bool)
    (his : ∀ i, i ∈ is) (h : (playTurns c is turns (system ops d)).any P = true) :
    ∃ s, Reach (fun e s s' => Step Env e s s' ∧ Serial (fun i => (ops i).prog) e s ∧
      c s.shared s'.shared = true) (system ops d) s ∧ P s = true := by
  obtain ⟨s, hs, hP⟩ := (Option.any_eq_true ..).1 h
  exact ⟨s, reach_of_playTurns his (fun _ => .inl rfl) hs, hP⟩

/-- Dollars come in, a transfer is created and taken to `SETTLED`, its naira are traded for USDC,
and the transfer goes on. -/
def spentOps : Fin 8 → Op
  | 0 => .applyInbound (samplePayment "payment" 10000)
  | 1 => sampleCreate false "transfer" 3
  | 2 | 3 | 4 | 6 | 7 => .advanceOnce (sampleState false) 103 none "step"
  | 5 => .executeTrade sampleSession ⟨.buy, "purchase", .ngn, 15000000⟩
      (.ok ⟨1500 * 10 ^ 8, .live⟩) "trade"

/-- It completes, and the naira account is overdrawn. -/
theorem overdrawn_of_spent :
    ∃ s a, Reach (fun e s s' => Step Env e s s' ∧ Serial (fun i => (spentOps i).prog) e s)
        (system spentOps (sampleWorld "NG")) s ∧ (sampleWorld "NG").accounts = [] ∧
      a ∈ s.shared.accounts ∧ s.shared.balance a.id = -15000000 := by
  obtain ⟨s, hr, hs⟩ := exists_serial spentOps (sampleWorld "NG") (fun _ _ => true)
    (List.finRange 8) [(0, 15), (1, 41), (2, 12), (3, 5), (4, 14), (5, 27), (6, 5), (7, 11)]
    (fun s => s.shared.accounts.any fun a => s.shared.balance a.id = -15000000)
    (by simp) (by decide +kernel)
  obtain ⟨a, ha, h⟩ := List.any_eq_true.1 hs
  exact ⟨s, a, hr.mono fun _ _ _ h => ⟨h.1, h.2.1⟩, rfl, ha, of_decide_eq_true h⟩

/-- Without the trade the naira are there when the transfer completes. -/
theorem solvent_of_kept :
    ∃ s a, Reach (fun e s s' => Step Env e s s' ∧ Serial (fun i => (spentOps i).prog) e s ∧
        Covered s.shared s'.shared) (system spentOps (sampleWorld "NG")) s ∧
      a ∈ s.shared.accounts ∧ a.currency = .fiat .ngn ∧ 0 ≤ s.shared.balance a.id := by
  obtain ⟨s, hr, hs⟩ := exists_serial spentOps (sampleWorld "NG") covered
    (List.finRange 8) [(0, 15), (1, 41), (2, 12), (3, 5), (4, 14), (6, 5), (7, 11)]
    (fun s => s.shared.accounts.any fun a => a.currency = .fiat .ngn) (by simp) (by decide +kernel)
  obtain ⟨a, ha, h⟩ := List.any_eq_true.1 hs
  refine ⟨s, a, hr, ha, of_decide_eq_true h, solvent_of_reach (wf_sampleWorld "NG") ?_ ?_ ?_ ?_ hr
    a ha⟩
  · intro i cfg hop
    fin_cases i <;> cases hop
  · simp [sampleWorld]
  · simp [sampleWorld, sampleQuote]
  · simp [sampleWorld]

end Kimana
