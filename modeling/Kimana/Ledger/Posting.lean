import Kimana.Ledger
import Kimana.Ledger.Balance
import Kimana.ReadCommitted.Point
import Kimana.Transaction

/-!
# What the ledger functions do under interference

* `getOrCreateAccountByCode_spec` : an account of the customer, opened if need be.
* `Overflown` : where a transaction stops because 64 bits do not hold a balance.
* `appendEntry_spec` : one entry, its running balance right at commit.
-/

namespace Kimana.Ledger

open ReadCommitted Util

variable {ι : Type} {R : Rules ι World Key Label} {i : ι} {loc : Loc} {d : World}

/-- A transaction finds or opens the account; the insert fails only when others opened it
meanwhile. -/
theorem getOrCreateAccountByCode_spec (hR : Framed R) (h : InTx loc d) (c : Uuid)
    (currency : LedgerCurrency) :
    wp R i (fun id loc' d' => ∃ ws, Ran R loc d loc' d' ws ∧ brief ws = [] ∧
        ⟨id, c, currency⟩ ∈ (view loc' d').accounts)
      (LostRace R loc) (getOrCreateAccountByCode c currency) loc d := by
  simp only [getOrCreateAccountByCode, Prog.bind_eq, Prog.pure_eq, Tx.read, Prog.bind]
  refine (Ran.refl h).wp_read hR fun d₁ hr₁ h₁ => ?_
  cases hacc : (view loc d₁).accountOf c currency with
  | some id => exact ⟨[], h₁, rfl, World.accountOf_mem hacc⟩
  | none =>
    refine h₁.wp_lock hR fun _ d₂ _ hr₂ h₂ => h₂.wp_read hR fun d₃ hr₃ h₃ => ?_
    split
    case isTrue hsome =>
      refine ⟨h₃.failed, rfl, loc, d₁, d₃, fun _ hk => hk, hr₂.trans ?_, fun he => ?_⟩
      · exact hr₃.weaken (by simp +contextual) (by simp) (by simp)
      · have : (view loc d₁).accounts = (view loc d₃).accounts := by
          rw [view, view, accounts_applyAll, accounts_applyAll, he]
        change ((view loc d₃).accountOf c currency).isSome = true at hsome
        rw [World.accountOf, ← this] at hsome
        rw [World.accountOf] at hacc
        simp [hacc] at hsome
    case isFalse hnone =>
      refine h₃.wp_fresh hR fun n d₄ hr₄ hu h₄ => ?_
      have ha := h₃.inTx.agree_view hR hr₄
      have hno : (view loc d₄).accountOf c currency = none := by
        have := Seen.account.inj (ha.seen (.accountKey c currency) List.mem_cons_self)
        exact this.symm.trans (by simpa using hnone)
      have hv : (Write.insertAccount ⟨n, c, currency⟩).Valid
          (.accountKey c currency :: loc.locks) (n :: loc.ids) (view loc d₄) :=
        ⟨by simp [Write.keys], hno, by rintro _ ⟨⟩; exact ⟨List.mem_cons_self, hu⟩⟩
      refine h₄.wp_write hv fun h₅ => ⟨_, h₅, rfl, ?_⟩
      rw [h₅.view_eq]
      simp [Write.apply]

/-- `getOrCreateAccountByCode_spec` for a currency code. -/
theorem getOrCreateAccount_spec (hR : Framed R) (h : InTx loc d) (c : Uuid)
    (currency : CurrencyCode) :
    wp R i (fun id loc' d' => ∃ ws, Ran R loc d loc' d' ws ∧ brief ws = [] ∧
        ⟨id, c, .fiat currency⟩ ∈ (view loc' d').accounts)
      (LostRace R loc) (getOrCreateAccount c currency) loc d :=
  getOrCreateAccountByCode_spec hR h c (.fiat currency)

/-- The entry that a posting inserts, as far as it is decided beforehand. -/
def posted (source : EntrySource) (amountMinor : ℤ) (currency : LedgerCurrency)
    (description : String) : LedgerEntry :=
  { id := 0, accountId := 0, source, amountMinor, currency, runningBalanceMinor := 0, description,
    reversalOfEntryId := none, postedAt := 0 }

/-! ### Sums that 64 bits do not hold -/

/-- A piece of a transaction that posted `es` found that 64 bits do not hold the balance of a
customer in a currency. -/
def Overflown (R : Rules ι World Key Label) (c : Uuid) (currency : LedgerCurrency)
    (es : List LedgerEntry) (loc : Loc) (d : World) (loc' : Loc) (d' : World) : Prop :=
  ∃ ws, Ran R loc d loc' d' ws ∧ (brief ws).filterMap Write.entry = es ∧
    ¬ FitsI64 ((view loc' d').funds c currency)

theorem Overflown.trans {c : Uuid} {currency : LedgerCurrency} {es es' : List LedgerEntry}
    {loc₁ loc' : Loc} {d₁ d' : World} {ws : List Write}
    (h : Overflown R c currency es loc₁ d₁ loc' d') (hr : Ran R loc d loc₁ d₁ ws)
    (hes : (brief ws).filterMap Write.entry = es') :
    Overflown R c currency (es' ++ es) loc d loc' d' := by
  obtain ⟨vs, hvs, rfl, hfit⟩ := h
  exact ⟨ws ++ vs, hr.trans hvs, by rw [brief_append, List.filterMap_append, hes], hfit⟩

/-- After a piece that posted nothing. -/
theorem Overflown.after {c : Uuid} {currency : LedgerCurrency} {es : List LedgerEntry}
    {loc₁ loc' : Loc} {d₁ d' : World} {ws : List Write}
    (h : Overflown R c currency es loc₁ d₁ loc' d') (hr : Ran R loc d loc₁ d₁ ws)
    (hes : (brief ws).filterMap Write.entry = []) : Overflown R c currency es loc d loc' d' :=
  h.trans hr hes

/-- What the tables hold, and what was posted before, is more than 64 bits hold. -/
theorem Overflown.not_fits (hR : Framed R) {c : Uuid} {currency : LedgerCurrency}
    {es₀ es : List LedgerEntry}
    {loc' : Loc} {d' : World} (h : Overflown R c currency es loc d loc' d')
    (hp : (brief loc.pending).filterMap Write.entry = es₀) {src : EntrySource}
    (hs : ∀ e ∈ es₀ ++ es, e.source = src) (ho : (view loc d).Owner src c) :
    ¬ FitsI64 (d'.funds c currency + netIn (es₀ ++ es) currency) := by
  obtain ⟨ws, hr, rfl, hfit⟩ := h
  have hes : (brief loc'.pending).filterMap Write.entry =
      es₀ ++ (brief ws).filterMap Write.entry := by
    rw [hr.pending, brief_append, List.filterMap_append, hp]
  have := funds_of_source hr.inTx.wf hr.inTx.view_wf (ext_applyAll _ _) (hes ▸ hs)
    (ho.ext (hr.ext_view hR)) c currency
  rw [if_pos rfl, hes] at this
  exact this ▸ hfit

theorem adds_toBigint {V : Write → Prop} (n : ℤ) : (toBigint n).Adds V := by
  unfold toBigint
  split <;> trivial

theorem adds_accountBalanceMinor {V : Write → Prop} (acct : Uuid) :
    (accountBalanceMinor acct).Adds V := fun _ => adds_toBigint _

/-- A sum that 64 bits hold is read as it is. -/
theorem toBigint_spec (n : ℤ) :
    wp R i (fun m loc' d' => loc' = loc ∧ d' = d ∧ m = n ∧ FitsI64 n)
      (fun e loc' d' => loc' = loc ∧ d' = d ∧ e = .serverError ∧ ¬ FitsI64 n)
      (toBigint n) loc d := by
  unfold toBigint
  split
  case isTrue hfit => exact ⟨rfl, rfl, rfl, hfit⟩
  case isFalse hfit => exact ⟨rfl, rfl, rfl, hfit⟩

/-- The balance of an account is read, or 64 bits do not hold it. -/
theorem accountBalanceMinor_spec (hR : Framed R) (h : InTx loc d) {acct c : Uuid}
    {currency : LedgerCurrency} (hacct : ⟨acct, c, currency⟩ ∈ (view loc d).accounts) :
    wp R i (fun b loc' d' => loc' = loc ∧ Ran R loc d loc d' [] ∧ R.Rely loc none d d' ∧
        b = (view loc d').balance acct ∧ FitsI64 b)
      (fun e loc' d' => Failed loc loc' d' ∧ e = .serverError ∧
        Overflown R c currency [] loc d loc' d')
      (accountBalanceMinor acct) loc d := by
  simp only [accountBalanceMinor, Prog.bind_eq, Tx.read, Prog.bind]
  refine (Ran.refl h).wp_read hR fun d₁ hr₁ h₁ => ?_
  refine wp_mono ?_ ?_ (toBigint_spec _)
  · rintro b _ _ ⟨rfl, rfl, rfl, hfit⟩
    exact ⟨rfl, h₁, hr₁, rfl, hfit⟩
  · rintro e _ _ ⟨rfl, rfl, rfl, hfit⟩
    refine ⟨h₁.failed, rfl, [], h₁, rfl, ?_⟩
    rwa [h₁.inTx.view_wf.funds_eq ((h₁.ext_view hR).accounts _ hacct)]

/-- A posting to an account of the source's owner adds one entry, unless 64 bits do not hold the
balance before it. -/
theorem appendEntry_spec (hR : Framed R) (h : InTx loc d) {conn : Conn} {acct c : Uuid}
    {amount : ℤ} {currency : LedgerCurrency} {text : String} {source : EntrySource}
    {reversal : Option Uuid} (hacct : ⟨acct, c, currency⟩ ∈ (view loc d).accounts)
    (ho : (view loc d).Owner source c) :
    wp R i (fun r loc' d' => ∃ e, Ran R loc d loc' d' [.insertEntry e] ∧
        e.strip = posted source amount currency text ∧ e.id = r.1 ∧ e.accountId = acct ∧
        .account acct ∈ loc'.locks)
      (GaveUp R loc (Overflown R c currency [] loc d))
      (appendEntry conn acct amount currency text source reversal) loc d := by
  simp only [appendEntry, Prog.bind_eq, Tx.lock, Tx.fresh, Tx.write, Prog.pure_eq, Prog.bind]
  refine (Ran.refl h).wp_lock hR fun _ d₁ _ hr₁ h₁ => ?_
  refine wp_bind_of (accountBalanceMinor_spec hR h₁.inTx ((h₁.ext_view hR).accounts _ hacct)) ?_ ?_
  · rintro e loc₂ d₂ ⟨hf, rfl, ho⟩
    exact ⟨hf.trans h₁, rfl, .inr (ho.after h₁ rfl)⟩
  rintro b loc₂ d₂ ⟨rfl, h₂, -, rfl, hfit⟩
  have h₂ := h₁.trans h₂
  refine h₂.wp_fresh hR fun n d₃ hr₃ hu h₃ => ?_
  have hb := (h₂.inTx.agree_view hR hr₃).balance (List.mem_cons_self (a := Key.account acct))
  have hext : Ext (view loc d) (view ((loc.hold (.account acct)).draw n) d₃) := h₃.ext_view hR
  refine h₃.wp_write (w := .insertEntry _) ⟨by simp [Write.keys], ⟨⟨?_, ?_⟩, _,
    hext.accounts _ hacct, rfl, rfl, ho.ext hext⟩, ?_⟩ fun h₄ => ?_
  · exact hb ▸ hfit
  · exact congrArg (fun x => asI64 (x + amount)) hb
  · rintro _ ⟨⟩
    exact ⟨List.mem_cons_self, hu⟩
  · exact ⟨_, h₄, rfl, rfl, rfl, List.mem_cons_self⟩

end Kimana.Ledger
