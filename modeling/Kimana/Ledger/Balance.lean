import Kimana.World.Effect

/-!
# What a commit does to balances

The entries of a transaction are all of one customer.  What they add to the customer's account in a
currency is told from what the transaction wrote in brief, whatever accounts it opened on the way.

* `World.funds` : the balance of a customer in a currency.
* `funds_applyAll` : what a transaction adds to it.
-/

namespace Kimana

open ReadCommitted Util

/-- The sum of the entries in a ledger currency. -/
def netIn (es : List LedgerEntry) (currency : LedgerCurrency) : ℤ :=
  ((es.filter fun e => e.currency = currency).map (·.amountMinor)).sum

@[simp] theorem netIn_nil (c : LedgerCurrency) : netIn [] c = 0 := rfl

@[simp] theorem netIn_cons (e : LedgerEntry) (es : List LedgerEntry) (c : LedgerCurrency) :
    netIn (e :: es) c = (if e.currency = c then e.amountMinor else 0) + netIn es c := by
  simp only [netIn, List.filter_cons]
  split <;> simp_all

@[simp] theorem netIn_append (es es' : List LedgerEntry) (c : LedgerCurrency) :
    netIn (es ++ es') c = netIn es c + netIn es' c := by simp [netIn]

@[simp] theorem netIn_strip (es : List LedgerEntry) (c : LedgerCurrency) :
    netIn (es.map .strip) c = netIn es c := by
  induction es with
  | nil => rfl
  | cons e es ih => simp [ih, LedgerEntry.strip]

/-- The balance of a customer in a currency: none yet when no account was opened. -/
def World.funds (d : World) (customerId : Uuid) (currency : LedgerCurrency) : ℤ :=
  ((d.accountOf customerId currency).map d.balance).getD 0

theorem Wf.funds_eq {d : World} (h : Wf d) {a : AccountRow} (ha : a ∈ d.accounts) :
    d.funds a.customerId a.currency = d.balance a.id := by
  rw [World.funds, h.accountOf_eq ha]
  rfl

/-- The account of an entry is told from its customer and currency. -/
theorem Wf.account_iff {d : World} (h : Wf d) {a : AccountRow} (ha : a ∈ d.accounts)
    {e : LedgerEntry} (he : e ∈ d.ledger) {c : Uuid} (hc : ∀ c', d.Owner e.source c' → c' = c) :
    e.accountId = a.id ↔ a.customerId = c ∧ e.currency = a.currency := by
  obtain ⟨b, hb, hid, hcur, ho⟩ := h.entries e he
  have hcust := hc _ ho
  rw [← hid, ← hcur]
  constructor
  · intro heq
    rw [← of_nodup_map h.accountIds hb ha heq]
    exact ⟨hcust, rfl⟩
  · rintro ⟨hac, hbc⟩
    rw [of_nodup_map h.accountKeys hb ha (Prod.ext (hcust.trans hac.symm) hbc)]

/-- An account that was not there had no entries. -/
theorem Wf.balance_of_new {d d' : World} (h : Wf d) (h' : Wf d') (he : Ext d d') {a : AccountRow}
    (ha : a ∈ d'.accounts) (hn : d.accountOf a.customerId a.currency = none) :
    d.balance a.id = 0 := by
  have hnil : d.entriesOf a.id = [] := by
    refine List.filter_eq_nil_iff.2 fun e hm => ?_
    obtain ⟨b, hb, hid, -, -⟩ := h.entries e hm
    simp only [decide_eq_true_eq]
    intro hacct
    obtain rfl := of_nodup_map h'.accountIds (he.accounts b hb) ha (hid.trans hacct)
    rw [h.accountOf_eq hb] at hn
    cases hn
  rw [World.balance, hnil]
  rfl

/-- An account id that was never drawn has no entries. -/
theorem Wf.balance_of_unused {d : World} (h : Wf d) {n : Uuid} (hn : d.nextId ≤ n) :
    d.balance n = 0 := by
  have hnil : d.entriesOf n = [] := by
    refine List.filter_eq_nil_iff.2 fun e he hacct => ?_
    obtain ⟨a, ha, hid, -⟩ := h.entries e he
    exact (h.below n hn).account a ha (hid.trans (of_decide_eq_true hacct))
  rw [World.balance, hnil]
  rfl

/-- What a transaction whose entries are all of customer `c` adds to the balances. -/
theorem funds_applyAll {d : World} {ws : List Write} (hwf : Wf d) (hwf' : Wf (applyAll ws d))
    (he : Ext d (applyAll ws d)) {c : Uuid}
    (hc : ∀ e ∈ ws.filterMap Write.entry, ∀ c', (applyAll ws d).Owner e.source c' → c' = c)
    (customerId : Uuid) (currency : LedgerCurrency) :
    (applyAll ws d).funds customerId currency = d.funds customerId currency +
      if customerId = c then netIn ((brief ws).filterMap Write.entry) currency else 0 := by
  have hmem : ∀ e ∈ ws.filterMap Write.entry, e ∈ (applyAll ws d).ledger := fun e hw => by
    rw [ledger_applyAll]
    exact List.mem_append_right _ hw
  rw [entries_brief, netIn_strip]
  cases hacc : (applyAll ws d).accountOf customerId currency with
  | none =>
    -- No account, so there was none before, and no entry names one.
    have hnone : d.accountOf customerId currency = none := by
      cases h₀ : d.accountOf customerId currency with
      | none => rfl
      | some id =>
        have := hwf'.accountOf_eq (he.accounts _ (World.accountOf_mem h₀))
        rw [hacc] at this
        cases this
    have hzero : (if customerId = c then netIn (ws.filterMap Write.entry) currency else 0) = 0 := by
      split
      case isFalse => rfl
      case isTrue hcust =>
        rw [netIn, List.filter_eq_nil_iff.2]
        · rfl
        intro e hw
        obtain ⟨a, ha, -, hcur, ho⟩ := hwf'.entries e (hmem e hw)
        simp only [decide_eq_true_eq]
        intro hecur
        have := hwf'.accountOf_eq ha
        rw [hc e hw _ ho, ← hcust, hcur, hecur, hacc] at this
        cases this
    simp only [World.funds, hacc, hnone, hzero, Option.map_none, Option.getD_none, Int.add_zero]
  | some id =>
    have ha := World.accountOf_mem hacc
    -- The entries on this account are the owner's entries in its currency.
    have hadd : (((ws.filterMap Write.entry).filter fun e => e.accountId = id).map
        (·.amountMinor)).sum =
          if customerId = c then netIn (ws.filterMap Write.entry) currency else 0 := by
      have hiff : ∀ e ∈ ws.filterMap Write.entry,
          e.accountId = id ↔ customerId = c ∧ e.currency = currency := fun e hw =>
        hwf'.account_iff ha (hmem e hw) (hc e hw)
      split
      case isTrue hcust =>
        rw [netIn, List.filter_congr fun e hw => decide_eq_decide.2 ((hiff e hw).trans
          (and_iff_right hcust))]
      case isFalse hcust =>
        rw [List.filter_eq_nil_iff.2 fun e hw => by simp [hiff e hw, hcust]]
        rfl
    have hbefore : d.funds customerId currency = d.balance id := by
      cases h₀ : d.accountOf customerId currency with
      | none =>
        rw [World.funds, h₀, hwf.balance_of_new hwf' he ha h₀]
        rfl
      | some id' =>
        have := hwf'.accountOf_eq (he.accounts _ (World.accountOf_mem h₀))
        rw [hacc] at this
        cases this
        rw [World.funds, h₀]
        rfl
    rw [hbefore, ← hadd, ← balance_applyAll, World.funds, hacc]
    rfl

/-- The balance of an account, also of one that a commit has yet to open. -/
theorem Wf.funds_of_account {d d' : World} (h : Wf d) (h' : Wf d') (he : Ext d d')
    {acct c : Uuid} {cur : LedgerCurrency} (ha : ⟨acct, c, cur⟩ ∈ d'.accounts) :
    d.funds c cur = d.balance acct := by
  cases hn : d.accountOf c cur with
  | none =>
    rw [h.balance_of_new h' he ha hn, World.funds, hn]
    rfl
  | some id =>
    have h₁ := h'.accountOf_eq (he.accounts _ (World.accountOf_mem hn))
    have h₂ := h'.accountOf_eq ha
    cases h₁.symm.trans h₂
    rw [World.funds, hn]
    rfl

/-- The owner of a source is unique. -/
theorem Wf.owner_eq {d : World} (h : Wf d) {s : EntrySource} {c c' : Uuid} (hc : d.Owner s c)
    (hc' : d.Owner s c') : c' = c := by
  cases s with
  | transfer id =>
    obtain ⟨t, ht, rfl, rfl⟩ := hc
    obtain ⟨t', ht', hid, rfl⟩ := hc'
    rw [of_nodup_map h.transferIds ht' ht hid]
  | settlementTrade id =>
    obtain ⟨t, ht, rfl, rfl⟩ := hc
    obtain ⟨t', ht', hid, rfl⟩ := hc'
    rw [of_nodup_map h.tradeIds ht' ht hid]
  | inboundPayment id =>
    obtain ⟨p, hp, rfl, rfl⟩ := hc
    obtain ⟨p', hp', hid, rfl⟩ := hc'
    rw [of_nodup_map h.paymentIds hp' hp hid]

/-- A transaction whose entries are all of one source. -/
theorem funds_of_source {d : World} {ws : List Write} (hwf : Wf d) (hwf' : Wf (applyAll ws d))
    (he : Ext d (applyAll ws d)) {src : EntrySource} {c : Uuid}
    (hs : ∀ e ∈ (brief ws).filterMap Write.entry, e.source = src)
    (ho : (applyAll ws d).Owner src c) (customerId : Uuid) (currency : LedgerCurrency) :
    (applyAll ws d).funds customerId currency = d.funds customerId currency +
      if customerId = c then netIn ((brief ws).filterMap Write.entry) currency else 0 := by
  refine funds_applyAll hwf hwf' he (fun e hw c' hc' => ?_) customerId currency
  have hsrc : e.strip.source = src :=
    hs _ (by rw [entries_brief]; exact List.mem_map_of_mem hw)
  exact hwf'.owner_eq ho (hsrc ▸ hc')

/-- A transaction has an account for each of its entries. -/
theorem exists_account {d : World} {ws : List Write} (hwf' : Wf (applyAll ws d)) {x : LedgerEntry}
    (hx : x ∈ (brief ws).filterMap Write.entry) {c : Uuid}
    (ho : (applyAll ws d).Owner x.source c) :
    ∃ acct, ⟨acct, c, x.currency⟩ ∈ (applyAll ws d).accounts := by
  rw [entries_brief, List.mem_map] at hx
  obtain ⟨e, he, rfl⟩ := hx
  have hled : e ∈ (applyAll ws d).ledger := by
    rw [ledger_applyAll]
    exact List.mem_append_right _ he
  obtain ⟨a, ha, -, hcur, ho'⟩ := hwf'.entries e hled
  refine ⟨a.id, ?_⟩
  have hcust : a.customerId = c := hwf'.owner_eq ho ho'
  rw [← hcust]
  exact hcur ▸ ha

/-- A transaction without entries. -/
theorem funds_of_none {d : World} {ws : List Write} (hwf : Wf d) (hwf' : Wf (applyAll ws d))
    (he : Ext d (applyAll ws d)) (hs : (brief ws).filterMap Write.entry = []) (customerId : Uuid)
    (currency : LedgerCurrency) :
    (applyAll ws d).funds customerId currency = d.funds customerId currency := by
  have hnone : ws.filterMap Write.entry = [] := by
    rw [entries_brief] at hs
    exact List.map_eq_nil_iff.1 hs
  have := funds_applyAll hwf hwf' he (c := 0) (by simp [hnone]) customerId currency
  simpa [hs] using this

/-! ### Sums that 64 bits hold -/

end Kimana
