import Kimana.Ledger.Posting
import Kimana.SettlementWallet

/-!
# Trades under interference

`executeTrade_spec` : a call commits at most one trade (`Trade`): its two legs, the debited one
covered by the account's balance.
-/

namespace Kimana.SettlementWallet

open ReadCommitted Table Ledger

/-- The currency a trade debits. -/
def debitCurrency : TradeKind → CurrencyCode → LedgerCurrency
  | .buy, c => .fiat c
  | .convert, _ => .usdc

/-- The amount a trade debits. -/
def debitMinor : TradeKind → ℤ → ℤ → ℤ
  | .buy, localMinor, _ => localMinor
  | .convert, _, usdcMinor => usdcMinor

/-- The entries of a trade. -/
def tradeEntries (row : TradeRow) : List LedgerEntry :=
  let (localSigned, usdcSigned, description) :=
    legs row.kind row.localAmountMinor row.usdcAmountMinor
  [posted (.settlementTrade row.id) localSigned (.fiat row.localCurrency) description,
    posted (.settlementTrade row.id) usdcSigned .usdc description]

/-- What a trade commits. -/
structure Trade (d : World) (ws : List Write) (row : TradeRow) : Prop where
  usdc : 0 < row.usdcAmountMinor
  localAmount : 0 < row.localAmountMinor
  brief : brief ws = .insertTrade row :: (tradeEntries row).map .insertEntry
  funds : ∀ acct, ⟨acct, row.customerId, debitCurrency row.kind row.localCurrency⟩ ∈
    (applyAll ws d).accounts →
      debitMinor row.kind row.localAmountMinor row.usdcAmountMinor ≤ d.balance acct

/-- The trade is the one asked for, at the rate the feed answered. -/
structure Ordered (session : Session) (input : TradeInput) (feed : Except ApiError WalletRate)
    (row : TradeRow) : Prop where
  customerId : row.customerId = session.customerId
  kind : row.kind = input.kind
  localCurrency : row.localCurrency = input.localCurrency
  entered : 0 < input.amountMinor
  amounts : ∃ rate, usdcRate feed input.localCurrency = .ok rate ∧
    (row.usdcAmountMinor, row.localAmountMinor) = amounts input.kind input.amountMinor rate.rate

/-- What `executeTrade` commits. -/
def TradeCommits (session : Session) (input : TradeInput) (feed : Except ApiError WalletRate)
    (d : World) (ws : List Write) : Prop :=
  ∃ row, Ordered session input feed row ∧ Trade d ws row

variable {ι : Type} {R : Rules ι World Key Label} {i : ι} {loc : Loc} {d : World}

theorem brief_tradeAudit (session : Session) (row : TradeRow) (balance : ℤ) :
    (Write.insertAudit (tradeAudit session row balance)).brief = none := by
  refine Write.brief_of_action ?_
  cases h : row.kind <;> simp [tradeAudit, h, stateChange]

/-- The insert of a trade takes the key, or finds it taken. -/
theorem insertTrade_spec (hR : Framed R) (h : InTx loc d) (row : TradeRow) :
    wp R i (fun r loc' d' => (r = none ∧ Ran R loc d loc' d' []) ∨
        ∃ id, r = some { row with id } ∧ Ran R loc d loc' d' [.insertTrade { row with id }])
      (fun _ loc' d' => Failed loc loc' d') (insertTrade row) loc d := by
  simp only [insertTrade, Prog.bind_eq, Tx.lock, Tx.read, Tx.fresh, Tx.write, Prog.pure_eq,
    Prog.bind]
  refine (Ran.refl h).wp_lock hR fun _ d₁ _ _ h₁ => h₁.wp_read hR fun d₂ _ h₂ => ?_
  split
  case isTrue => exact .inl ⟨rfl, h₂⟩
  case isFalse hkey =>
    refine (Ran.refl h₂.inTx).wp_lock hR fun _ d₃ _ _ h₃ => h₃.wp_read hR fun d₄ _ h₄ => ?_
    split
    case isTrue => exact (h₂.trans h₄).failed
    case isFalse href =>
      refine (Ran.refl h₄.inTx).wp_fresh hR fun id d₅ hr₅ hu h₅ => ?_
      have ha₄ := (h₄.agree_view hR).seen (.tradeKey row.customerId row.idempotencyKey)
        List.mem_cons_self
      have ha₅ := h₄.inTx.agree_view hR hr₅
      have hk₅ := ha₅.seen (.tradeKey row.customerId row.idempotencyKey)
        (List.mem_cons_of_mem _ List.mem_cons_self)
      have hr₅' := ha₅.seen (.tradeReference row.reference) List.mem_cons_self
      have hnone : (view loc d₂).tradeByKey row.customerId row.idempotencyKey = none := by
        simpa using hkey
      refine h₅.wp_write (w := .insertTrade { row with id }) ⟨by simp [Write.keys],
        ⟨(Seen.trade.inj (ha₄.trans hk₅)).symm.trans hnone,
          (Seen.taken.inj hr₅').symm.trans (by simpa using href)⟩, ?_⟩
        fun h₆ => .inr ⟨id, rfl, (h₂.trans h₄).trans h₆⟩
      rintro _ ⟨⟩
      exact ⟨List.mem_cons_self, hu⟩

/-- The account a trade debits, among the two it opened. -/
theorem debit_account (kind : TradeKind) (localMinor usdcMinor : ℤ) {localAcct usdcAcct c : Uuid}
    {currency : CurrencyCode} {v : World} (hl : ⟨localAcct, c, .fiat currency⟩ ∈ v.accounts)
    (hu : ⟨usdcAcct, c, .usdc⟩ ∈ v.accounts) :
    ⟨(debit kind localAcct usdcAcct currency localMinor usdcMinor).1, c,
        debitCurrency kind currency⟩ ∈ v.accounts ∧
      (debit kind localAcct usdcAcct currency localMinor usdcMinor).2.1 =
        debitMinor kind localMinor usdcMinor := by
  cases kind
  · exact ⟨hl, rfl⟩
  · exact ⟨hu, rfl⟩

/-- The trade's transaction: the check holds at commit, as the account stays locked. -/
theorem trade_spec (hR : Framed R) {session : Session} {input : TradeInput}
    {feed : Except ApiError WalletRate} {rate : WalletRate} {usdcMinor localMinor : ℤ}
    {body : String} (hg : Grants R i (TradeCommits session input feed)) (h : Idle loc d)
    (hentered : 0 < input.amountMinor) (hrate : usdcRate feed input.localCurrency = .ok rate)
    (ham : amounts input.kind input.amountMinor rate.rate = (usdcMinor, localMinor))
    (hu : 0 < usdcMinor) (hl : 0 < localMinor) :
    wp R i (fun _ _ d' => Wf d') (fun _ _ _ => True)
      (trade session input rate usdcMinor localMinor body) loc d := by
  refine wp_begin hR h fun conn d₁ _ h₁ => ?_
  refine wp_bind_of (getOrCreateAccount_spec hR h₁.inTx _ _) (fun _ _ _ _ => trivial) ?_
  rintro localAcct loc₂ d₂ ⟨ws₂, h₂, hb₂, hlocal⟩
  refine wp_bind_of (getOrCreateAccountByCode_spec hR h₂.inTx _ _) (fun _ _ _ _ => trivial) ?_
  rintro usdcAcct loc₃ d₃ ⟨ws₃, h₃, hb₃, husdc⟩
  have hlocal₃ := (h₃.ext_view hR).accounts _ hlocal
  have h₁₃ := h₂.trans h₃
  have hp₃ : loc₃.pending = ws₂ ++ ws₃ := by rw [h₁₃.pending, h₁.pending]; rfl
  have hb₃' : brief (ws₂ ++ ws₃) = [] := by rw [brief_append, hb₂, hb₃]; rfl
  obtain ⟨hacct, hamount⟩ := debit_account input.kind localMinor usdcMinor hlocal₃ husdc
  simp only [Prog.bind_eq, Tx.lock, Tx.mark, Tx.rollback, Tx.write, Tx.commit, Prog.pure_eq,
    Prog.bind]
  -- Both kinds of trade lock and check the account that they debit.
  generalize debit input.kind localAcct usdcAcct input.localCurrency localMinor usdcMinor = what
    at hacct hamount ⊢
  obtain ⟨acct, minor, label⟩ := what
  dsimp only at hacct hamount ⊢
  subst hamount
  refine (Ran.refl h₃.inTx).wp_lock hR fun _ d₄ _ _ h₄ => ?_
  have hin₄ := h₄.inTx.relabel (l := loc₃.label.withCheck
    (some (acct, debitMinor input.kind localMinor usdcMinor))) h₄.inTx.calm
  refine wp_mark.2 (wp_bind_of (accountBalanceMinor_spec hR hin₄
    ((h₄.ext_view hR).accounts _ hacct)) (fun _ _ _ _ => trivial) ?_)
  rintro balance _ d₅ ⟨rfl, h₅, -, hbalance, -⟩
  have hext : Ext (view loc₃ d₃) (view loc₃ d₅) := by
    have h₃₄ := h₄.ext_view hR
    have h₄₅ := h₅.ext_view hR
    exact h₃₄.trans h₄₅
  split
  case isTrue => trivial
  case isFalse hrich =>
  have hin₅ := h₅.inTx.relabel (l := loc₃.label.withCheck none) h₄.inTx.calm
  refine wp_mark.2 (wp_bind_of (insertTrade_spec hR hin₅ _) (fun _ _ _ _ => trivial) ?_)
  rintro r loc₆ d₆ (⟨rfl, h₆⟩ | ⟨id, rfl, h₆⟩)
  · -- A concurrent request with the same key committed first.
    refine h₆.wp_rollback hR fun d₇ _ h₇ => ?_
    simp only [findByKey, Prog.bind_eq, Tx.query, Prog.pure_eq, Prog.bind]
    refine (Ran.refl h₇).wp_query hR fun d₈ _ h₈ => ?_
    split
    · exact h₈.inTx.wf
    · trivial
  -- Both entries are about the trade's own row.
  generalize hrow : (TradeRow.mk id _ _ _ _ _ _ _ _ _ _ _) = row at h₆ ⊢
  have hcust : row.customerId = session.customerId := by rw [← hrow]
  have howner : (view loc₆ d₆).Owner (.settlementTrade row.id) session.customerId := by
    refine ⟨row, ?_, rfl, hcust⟩
    rw [h₆.view_eq]
    simp [Write.apply]
  have hacct₆ : ∀ a ∈ (view loc₃ d₃).accounts, a ∈ (view loc₆ d₆).accounts := fun a ha =>
    (h₆.ext_view hR).accounts a (hext.accounts a ha)
  rcases hlegs : legs input.kind localMinor usdcMinor with ⟨localSigned, usdcSigned, description⟩
  dsimp only
  refine wp_bind_of (appendEntry_spec hR h₆.inTx (hacct₆ _ hlocal₃) howner)
    (fun _ _ _ _ => trivial) ?_
  rintro r₁ loc₇ d₇ ⟨e₁, h₇, he₁, -⟩
  refine wp_bind_of (appendEntry_spec hR h₇.inTx ((h₇.ext_view hR).accounts _ (hacct₆ _ husdc))
    (howner.ext (h₇.ext_view hR))) (fun _ _ _ _ => trivial) ?_
  rintro ⟨entryId, usdcBalance⟩ loc₈ d₈ ⟨e₂, h₈, he₂, -⟩
  dsimp only
  refine (h₆.trans (h₇.trans h₈)).wp_write (w := .insertAudit _)
    ⟨by simp [Write.keys], trivial, by simp [Write.publishes]⟩ fun h₉ => ?_
  refine h₉.wp_commit_of hR hg (fun d₁₀ h₁₀ => ⟨row, ?_, ?_⟩) fun d₁₀ _ hc => hc.wf
  · subst hrow
    exact ⟨rfl, rfl, rfl, hentered, rate, hrate, ham.symm⟩
  have hpend := h₁₀.pending
  rw [Local.at'_pending, Local.at'_pending, Local.hold_pending, hp₃] at hpend
  subst hrow
  refine ⟨hu, hl, ?_, fun acct' hacct' => ?_⟩
  · rw [hpend, brief_append, hb₃']
    simp [brief_tradeAudit, he₁, he₂, tradeEntries, hlegs]
  · -- The account has been locked since the check, so its balance is the one found there.
    have hmem := (h₁₀.ext_view hR).accounts _ (hext.accounts _ hacct)
    have heq : acct' = acct := Option.some.inj ((h₁₀.inTx.view_wf.accountOf_eq hacct').symm.trans
      (h₁₀.inTx.view_wf.accountOf_eq hmem))
    rw [heq, ← (h₁₀.agree hR).balance List.mem_cons_self]
    refine Int.not_lt.1 fun hlt => hrich ?_
    rwa [hbalance, view_at', view_hold, view, hp₃, balance_of_brief hb₃']

/-- `executeTrade` commits one trade of positive amounts, or nothing. -/
theorem executeTrade_spec (hR : Framed R) {session : Session} {input : TradeInput}
    {feed : Except ApiError WalletRate} {body : String}
    (hg : Grants R i (TradeCommits session input feed)) (h : Idle loc d) :
    wp R i (fun _ _ d' => Wf d') (fun _ _ _ => True) (executeTrade session input feed body)
      loc d := by
  simp only [executeTrade]
  generalize Util.byteLen (Util.trim input.idempotencyKey) = len
  split
  case isTrue => trivial
  simp only [findByKey, Prog.bind_eq, Tx.query, Prog.pure_eq, Prog.bind]
  refine (Ran.refl h.inTx).wp_query hR fun d₁ hr₁ h₁ => ?_
  split
  case h_1 => exact h₁.inTx.wf
  split
  case isTrue => trivial
  case isFalse hentered =>
  split
  case h_1 => trivial
  case h_2 rate hrate =>
  generalize ham : amounts input.kind input.amountMinor rate.rate = am
  obtain ⟨usdcMinor, localMinor⟩ := am
  dsimp only
  split
  case isTrue => trivial
  case isFalse hpos =>
    simp only [Bool.or_eq_true, decide_eq_true_eq, not_or, Int.not_le] at hpos
    exact trade_spec hR hg (h.rely hR hr₁) (Int.not_le.1 hentered) hrate ham hpos.1 hpos.2

end Kimana.SettlementWallet
