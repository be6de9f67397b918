import Kimana.Op.Effect
import Mathlib.Algebra.Group.Int.Defs
import Mathlib.Algebra.Group.Prod

/-!
# The ledger position of a transfer

The sums of a transfer's entries in its two currencies are a function of its status.

* `position` : that function; `REJECTED` has none, as it depends on where it was entered from.
* `position_path` : an allowed path moves the sums as the statuses say.
* `position_of_reach` : **the position** of every created transfer in every reachable state, if its
  amounts have negations.
* `not_position_of_min` : a transfer of the one amount that has none.
-/

namespace Kimana

open ReadCommitted Table Util Engine TransferStatus

/-! ### Sums -/

/-- The sum of the entries in a currency. -/
def net (es : List LedgerEntry) (currency : CurrencyCode) : ℤ :=
  ((es.filter fun e => e.currency = .fiat currency).map (·.amountMinor)).sum

/-- The sum of a transfer's entries in a currency. -/
def World.net (d : World) (id : Uuid) (currency : CurrencyCode) : ℤ :=
  Kimana.net (d.entriesOfTransfer id) currency

@[simp] theorem net_nil (c : CurrencyCode) : net [] c = 0 := rfl

@[simp] theorem net_cons (e : LedgerEntry) (es : List LedgerEntry) (c : CurrencyCode) :
    net (e :: es) c = (if e.currency = .fiat c then e.amountMinor else 0) + net es c := by
  simp only [net, List.filter_cons]
  split <;> simp_all

@[simp] theorem net_append (es es' : List LedgerEntry) (c : CurrencyCode) :
    net (es ++ es') c = net es c + net es' c := by simp [net]

@[simp] theorem net_strip (es : List LedgerEntry) (c : CurrencyCode) :
    net (es.map .strip) c = net es c := by
  induction es with
  | nil => rfl
  | cons e es ih => simp [ih, LedgerEntry.strip]

/-! ### Positions -/

/-- The sums a transfer has at a status, in the send and in the receive currency. -/
def position (t : TransferRow) : TransferStatus → Option (ℤ × ℤ)
  | .created | .quoted | .screened | .awaitingFunds | .expired | .reversed => some (0, 0)
  | .funded | .settling | .completed | .reversing => some (-t.sendAmountMinor, 0)
  | .settled | .payingOut => some (-t.sendAmountMinor, t.receiveAmountMinor)
  | .rejected => none

/-- The sums of entries in a transfer's two currencies. -/
def sums (t : TransferRow) (es : List LedgerEntry) : ℤ × ℤ :=
  (net es t.sendCurrency, net es t.receiveCurrency)

theorem sums_append (t : TransferRow) (es es' : List LedgerEntry) :
    sums t (es ++ es') = sums t es + sums t es' := by simp [sums]

theorem sums_nil (t : TransferRow) : sums t [] = 0 := rfl

/-- An entry in the send currency. -/
theorem sums_send {t : TransferRow} (hne : t.sendCurrency ≠ t.receiveCurrency) (amount : ℤ)
    (what : String) : sums t [entryOf t t.sendCurrency amount what] = (amount, 0) := by
  simp [sums, entryOf, Ledger.posted, hne]

/-- An entry in the receive currency. -/
theorem sums_receive {t : TransferRow} (hne : t.sendCurrency ≠ t.receiveCurrency) (amount : ℤ)
    (what : String) : sums t [entryOf t t.receiveCurrency amount what] = (0, amount) := by
  simp [sums, entryOf, Ledger.posted, hne.symm]

/-- The amounts that were negated on the way to a status have negations of 64 bits: the send amount
once the transfer was funded, and the receive amount when what was converted went out again. -/
def Negatable (t : TransferRow) (s : TransferStatus) : Prop :=
  (awaitingFunds.rank < s.rank → t.sendAmountMinor ≠ -2 ^ 63) ∧
    (settled.rank < s.rank → t.receiveAmountMinor ≠ -2 ^ 63)

theorem Negatable.of_step {t : TransferRow} {source target : TransferStatus}
    (h : Negatable t target) (hall : target ∈ source.allowed) : Negatable t source :=
  ⟨fun hs => h.1 (Nat.lt_trans hs (rank_lt hall)), fun hs => h.2 (Nat.lt_trans hs (rank_lt hall))⟩

/-- A transition moves the sums as the statuses say. -/
theorem position_step {t : TransferRow} (hne : t.sendCurrency ≠ t.receiveCurrency)
    {source target : TransferStatus} (payee : String) (h : target ∈ source.allowed)
    (hneg : Negatable t target) {p p' : ℤ × ℤ} (hp : position t source = some p)
    (hp' : position t target = some p') :
    p + sums t (refundFor t target ++ legFor t payee source target) = p' := by
  have hsend := fun h => negI64_of_ne (hneg.1 h)
  have hreceive := fun h => negI64_of_ne (hneg.2 h)
  cases source <;> simp only [allowed, List.mem_cons, List.not_mem_nil, or_false] at h <;>
    rcases h with rfl | rfl | rfl <;> cases hp <;> cases hp' <;>
    simp (disch := decide) [refundFor, legFor, sums_nil, sums_send hne, sums_receive hne, hsend,
      hreceive]

/-- A transfer that leaves a status has a position there. -/
theorem position_isSome {t : TransferRow} {source target : TransferStatus}
    (h : target ∈ source.allowed) : ∃ p, position t source = some p := by
  cases source <;> first | exact ⟨_, rfl⟩ | cases h

/-- So does an allowed path. -/
theorem position_path {t : TransferRow} (hne : t.sendCurrency ≠ t.receiveCurrency)
    {source : TransferStatus} {steps : List PathStep}
    (h : pathAllowed source (steps.map (·.target)) = true) {es : List LedgerEntry}
    (hes : Negatable t source → ∀ p, position t source = some p → sums t es = p) :
    Negatable t (pathEnd source steps) → ∀ p, position t (pathEnd source steps) = some p →
      sums t (es ++ pathEntries t source steps) = p := by
  induction steps generalizing source es with
  | nil => simpa [pathEntries] using hes
  | cons st steps ih =>
    simp only [List.map_cons, pathAllowed, Bool.and_eq_true, decide_eq_true_eq] at h
    obtain ⟨p₀, hp₀⟩ := position_isSome (t := t) h.1
    have := @ih _ h.2 (es ++ (refundFor t st.target ++ legFor t st.payee source st.target))
      fun hneg p₁ hp₁ => by
        rw [sums_append, hes (hneg.of_step h.1) p₀ hp₀, position_step hne st.payee h.1 hneg hp₀ hp₁]
    simpa [pathEntries, List.append_assoc] using this

/-! ### Every reachable state -/

/-- The entries of a transfer sum to its position. -/
def InPosition (t : TransferRow) (es : List LedgerEntry) (_ : List HistoryRow) : Prop :=
  t.sendCurrency ≠ t.receiveCurrency ∧
    (Negatable t t.currentStatus → ∀ p, position t t.currentStatus = some p → sums t es = p)

theorem position_core {t t' : TransferRow} (h : t'.core = t.core) : position t' = position t :=
  TransferRow.eq_of_core position (fun _ => rfl) h

theorem sums_core {t t' : TransferRow} (h : t'.core = t.core) : sums t' = sums t :=
  TransferRow.eq_of_core sums (fun _ => rfl) h

theorem currencies_core {t t' : TransferRow} (h : t'.core = t.core) :
    (t'.sendCurrency ≠ t'.receiveCurrency) = (t.sendCurrency ≠ t.receiveCurrency) :=
  TransferRow.eq_of_core (fun t => t.sendCurrency ≠ t.receiveCurrency) (fun _ => rfl) h

theorem negatable_core {t t' : TransferRow} (h : t'.core = t.core) : Negatable t' = Negatable t :=
  TransferRow.eq_of_core Negatable (fun _ => rfl) h

/-- A path keeps a transfer in position. -/
theorem InPosition.path {t t' : TransferRow} {steps : List PathStep} {es : List LedgerEntry}
    {hs hs' : List HistoryRow} (h : InPosition t es hs)
    (hp : pathAllowed t.currentStatus (steps.map (·.target)) = true) (hc : t'.core = t.core)
    (hst : t'.currentStatus = pathEnd t.currentStatus steps) :
    InPosition t' (es ++ pathEntries t t.currentStatus steps) hs' := by
  refine ⟨currencies_core hc ▸ h.1, fun hneg p hpos => ?_⟩
  rw [position_core hc, hst] at hpos
  rw [negatable_core hc, hst] at hneg
  rw [sums_core hc]
  exact position_path h.1 hp h.2 hneg p hpos

/-- A new transfer is in position. -/
theorem InPosition.new {t row : TransferRow} {hs : List HistoryRow}
    (hne : row.sendCurrency ≠ row.receiveCurrency) (hc : t.core = row.core)
    (hst : t.currentStatus = .created) : InPosition t [] hs := by
  refine ⟨currencies_core hc ▸ hne, fun _ p hpos => ?_⟩
  rw [hst] at hpos
  cases hpos
  exact sums_nil t

/-- Quotes are between two currencies, and created transfers satisfy `P`. -/
def FromQuotes (old : Uuid → Prop) (P : TransferRow → List LedgerEntry → List HistoryRow → Prop)
    (d : World) : Prop :=
  (∀ q ∈ d.quotes, q.sendCurrency ≠ q.receiveCurrency) ∧ Every old P d

/-- The two currencies of a created transfer are those of its quote. -/
theorem Service.Creation.currencies {state : AppState} {session : Session}
    {input : Service.CreateTransferInput} {body : String} {d : World} {ws : List Write}
    {q : QuoteRow} {recipientId id : Uuid} {now : Time}
    (h : Service.Creation state session input body d ws q recipientId id now)
    (hq : ∀ q ∈ d.quotes, q.sendCurrency ≠ q.receiveCurrency) :
    (Service.Creation.row session input body q recipientId id now).sendCurrency ≠
      (Service.Creation.row session input body q recipientId id now).receiveCurrency :=
  hq q (List.mem_of_find?_eq_some h.quote)

theorem quotes_ne_applyAll {d : World} (h : ∀ q ∈ d.quotes, q.sendCurrency ≠ q.receiveCurrency)
    (ws : List Write) : ∀ q ∈ (applyAll ws d).quotes, q.sendCurrency ≠ q.receiveCurrency := by
  intro q hq
  obtain ⟨q₀, hq₀, hc⟩ := quotes_applyAll ws d q hq
  have := h q₀ hq₀
  rwa [← show q.sendCurrency = q₀.sendCurrency from (congrArg QuoteRow.sendCurrency hc :),
    ← show q.receiveCurrency = q₀.receiveCurrency from (congrArg QuoteRow.receiveCurrency hc :)]
    at this

variable {ι : Type} [DecidableEq ι] {ops : ι → Op} {d₀ : World}

/-- **The position**: in every state that any calls reach, however their statements interleave,
the entries of a created transfer whose amounts have negations sum to what its status says, whatever
brought it there. -/
theorem position_of_reach (hwf : Wf d₀)
    (hq : ∀ q ∈ d₀.quotes, q.sendCurrency ≠ q.receiveCurrency)
    {s : Sys ι World Write Key Label Failure Answer} (hr : Reach (Step Env) (system ops d₀) s)
    {id : Uuid} {t : TransferRow} (hnew : d₀.transfer id = none)
    (ht : s.shared.transfer id = some t) (hsend : t.sendAmountMinor ≠ -2 ^ 63)
    (hreceive : t.receiveAmountMinor ≠ -2 ^ 63) {p : ℤ × ℤ}
    (hp : position t t.currentStatus = some p) : sums t (s.shared.entriesOfTransfer id) = p := by
  have h := invariant_of_reach (I := FromQuotes (fun id => d₀.transfer id ≠ none) InPosition)
    lax_anyChange granted_noAssumption hwf
    ⟨hq, fun id t hold ht => absurd ht (by simp [not_not.1 hold])⟩ (fun _ h => h)
    (fun d d' h he => ⟨by cases he <;> exact h.1, h.2.env he⟩) (fun _ _ _ => True) ?_
    (fun e s s' h => ⟨stepIf_of_step h, trivial⟩) hr
  · have := (h.2.2 id t (not_not.2 hnew) ht).2 ⟨fun _ => hsend, fun _ => hreceive⟩ p hp
    simpa [sums] using this
  · intro i ℓ ids d ws hwf _ hi hv hk _
    refine ⟨quotes_ne_applyAll hi.1 ws, hi.2.commit hwf hv hk ?_ ?_⟩
    · exact fun t steps tail es hs t' hm _ _ _ h hc hst => h.path hm.allowed hc hst
    · exact fun _ _ _ _ _ _ _ _ t' hcr hc hst => .new (hcr.currencies hi.1) hc hst

/-- Money comes in, a transfer is created, and it is driven to its end. -/
def completedOps : Fin 3 → Op
  | 0 => .applyInbound (samplePayment "payment" 10000)
  | 1 => sampleCreate false "transfer" 3
  | 2 => .advanceToCompletion (sampleState false) 103 fun _ => "payout"

/-- A completed transfer. -/
theorem position_of_completed :
    ∃ s t, Reach (Step Env) (system completedOps (sampleWorld "NG")) s ∧
      s.shared.transfer 103 = some t ∧ t.currentStatus = .completed ∧
      sums t (s.shared.entriesOfTransfer 103) = (-10000, 0) := by
  obtain ⟨s, hr, hs⟩ := exists_reach completedOps (sampleWorld "NG") [0, 1, 2]
    [(0, 15), (1, 41), (2, 48)] (fun s => (s.shared.transfer 103).any fun t =>
      t.currentStatus = .completed && t.sendAmountMinor = 10000 && t.receiveAmountMinor ≠ -2 ^ 63)
    (by decide) (by decide +kernel)
  obtain ⟨t, ht, h⟩ := (Option.any_eq_true ..).1 hs
  simp only [Bool.and_eq_true, decide_eq_true_eq] at h
  refine ⟨s, t, hr, ht, h.1.1, position_of_reach (wf_sampleWorld _)
    (by simp [sampleWorld, sampleQuote]) hr rfl ht (by rw [h.1.2]; decide) h.2 ?_⟩
  rw [h.1.1, position, h.1.2]

/-! ### The amount without a negation -/

/-- More dollars to be received than a naira amount of 64 bits pays for. -/
def minBody : Quote.RequestFirmQuoteBody :=
  { sendCurrency := "NGN", receiveCurrency := "USD", amount := ⟨2 ^ 57, .usd⟩
    amountField := .receive }

/-- The quote that is stored at sixteen hundred naira a dollar: its send amount has wrapped. -/
def minQuote : QuoteRow :=
  { sampleQuote 100 with
    sendCurrency := .ngn
    receiveCurrency := .usd
    rate := 62500
    sendAmountMinor := -2 ^ 63
    receiveAmountMinor := 2 ^ 57 }

/-- The database once the quote is stored. -/
def minWorld : World :=
  { sampleWorld "NG" with nextId := 101, quotes := (sampleWorld "NG").quotes ++ [minQuote] }

/-- The quote is as a request leaves it. -/
theorem minWorld_requested : ∃ quote, Quote.requestFirmQuote 1000 sampleSession minBody
    (fun _ _ => .ok ⟨62500, .live⟩) (sampleWorld "NG") = .ok (quote, minWorld) :=
  ⟨_, rfl⟩

/-- The customer accepts the quote, and the transfer is driven to its end. -/
def minOps : Fin 2 → Op
  | 0 => sampleCreate false "transfer" 100
  | 1 => .advanceToCompletion (sampleState false) 101 fun _ => "payout"

/-- Its debit is posted with the sign of the amount. -/
theorem not_position_of_min :
    (∃ quote, Quote.requestFirmQuote 1000 sampleSession minBody (fun _ _ => .ok ⟨62500, .live⟩)
      (sampleWorld "NG") = .ok (quote, minWorld)) ∧
    ∃ s t, Reach (Step Env) (system minOps minWorld) s ∧ s.shared.transfer 101 = some t ∧
      position t t.currentStatus = some (2 ^ 63, 0) ∧
      sums t (s.shared.entriesOfTransfer 101) = (-2 ^ 63, 0) := by
  refine ⟨minWorld_requested, ?_⟩
  obtain ⟨s, hr, hs⟩ := exists_reach minOps minWorld [0, 1] [(0, 41), (1, 52)]
    (fun s => (s.shared.transfer 101).any fun t =>
      position t t.currentStatus = some (2 ^ 63, 0) &&
        sums t (s.shared.entriesOfTransfer 101) = (-2 ^ 63, 0)) (by decide) (by decide +kernel)
  obtain ⟨t, ht, h⟩ := (Option.any_eq_true ..).1 hs
  simp only [Bool.and_eq_true, decide_eq_true_eq] at h
  exact ⟨s, t, hr, ht, h⟩

end Kimana
