import Kimana.SettlementWallet.Book
import Kimana.Util.Rate

/-!
# Trading creates no value

At one rate, a customer's balances in a local currency and in USDC have a value in common units.
A trade moves value from one to the other and loses the rounding.

* `value` : the value of the two balances.
* `traded_of_step` : what one step does to it.
* `value_of_reach` : **no value is created**, along every run of trades.
-/

namespace Kimana.SettlementWallet

open ReadCommitted Table Engine
open Util (rateScale)

/-- The value of a customer's balances in a local currency and in USDC at a rate. -/
def value (customerId : Uuid) (currency : CurrencyCode) (rate : Rate) (d : World) : ℤ :=
  d.funds customerId (.fiat currency) * rateScale + d.funds customerId .usdc * rate

/-- The amount the customer entered. -/
def entered (row : TradeRow) : ℤ :=
  match row.kind with
  | .buy => row.localAmountMinor
  | .convert => row.usdcAmountMinor

/-- The exact amount the other side is to have, rounded down. -/
def derived (kind : TradeKind) (amountMinor : ℤ) (rate : Rate) : ℤ :=
  match kind with
  | .buy => amountMinor * rateScale / rate
  | .convert => amountMinor * rate / rateScale

/-- The value of one minor unit of the side a trade credits. -/
def creditedUnit (kind : TradeKind) (rate : Rate) : ℤ :=
  match kind with
  | .buy => rate
  | .convert => rateScale

/-- What a trade adds to the value. -/
def gain (row : TradeRow) (rate : Rate) : ℤ :=
  localSigned row * rateScale + usdcSigned row * rate

/-- One trade of a customer, or none. -/
def Traded (customerId : Uuid) (currency : CurrencyCode) (rate : Rate) (d d' : World) : Prop :=
  d'.trades = d.trades ∧ value customerId currency rate d' = value customerId currency rate d ∨
    ∃ row, d'.trades = d.trades ++ [row] ∧
      value customerId currency rate d' ≤ value customerId currency rate d ∧
      (derived row.kind (entered row) rate < 2 ^ 63 →
        value customerId currency rate d - creditedUnit row.kind rate <
          value customerId currency rate d')

/-- The operation trades for a customer in a currency, at a rate, an amount of 64 bits whose
products fit 128. -/
def TradesAt (customerId : Uuid) (currency : CurrencyCode) (rate : Rate) (op : Op) : Prop :=
  ∃ session input feed body source, op = .executeTrade session input feed body ∧
    session.customerId = customerId ∧ input.localCurrency = currency ∧
    usdcRate feed currency = .ok ⟨rate, source⟩ ∧ input.amountMinor < 2 ^ 63 ∧
    (input.kind = .convert → input.amountMinor * rate < 2 ^ 127)

/-! ### One trade -/

section Trade

variable {session : Session} {input : TradeInput} {feed : Except ApiError WalletRate}
  {row : TradeRow} {rate : Rate} {source : RateSource}

/-- The two sides of a trade's value. -/
theorem gain_bounds (h : Ordered session input feed row) (hrate : 1 ≤ rate)
    (hfeed : usdcRate feed input.localCurrency = .ok ⟨rate, source⟩)
    (hlt : input.amountMinor < 2 ^ 63)
    (hfits : input.kind = .convert → input.amountMinor * rate < 2 ^ 127) :
    gain row rate ≤ 0 ∧ (derived row.kind (entered row) rate < 2 ^ 63 →
      -creditedUnit row.kind rate < gain row rate) := by
  obtain ⟨r, hr, ham⟩ := h.amounts
  rw [hfeed] at hr
  cases hr
  have h₀ := h.entered.le
  have hr₀ : 0 < rate := hrate
  have husdc : row.usdcAmountMinor = (amounts input.kind input.amountMinor rate).1 :=
    congrArg Prod.fst ham
  have hlocal : row.localAmountMinor = (amounts input.kind input.amountMinor rate).2 :=
    congrArg Prod.snd ham
  unfold gain localSigned usdcSigned derived entered creditedUnit
  rw [h.kind, husdc, hlocal]
  cases hkind : input.kind <;> dsimp only [amounts]
  case buy =>
    have hle := Util.invertRate_mul_le (r := rate) h₀ hlt hr₀
    refine ⟨by linarith, fun hd => ?_⟩
    have hgt := Util.lt_invertRate_mul h₀ hlt hr₀ hd
    linarith
  case convert =>
    have hle := Util.applyRate_mul_le h₀ hr₀.le (hfits hkind)
    refine ⟨by linarith, fun hd => ?_⟩
    have hgt := Util.lt_applyRate_mul h₀ hr₀.le hd
    linarith

/-- A trade adds its gain to the value of its customer's balances. -/
theorem Trade.value_eq {d : World} {ws : List Write} (h : Trade d ws row) (hwf : Wf d)
    (hwf' : Wf (applyAll ws d)) :
    value row.customerId row.localCurrency rate (applyAll ws d) =
      value row.customerId row.localCurrency rate d + gain row rate := by
  obtain ⟨text, hlegs⟩ := tradeEntries_amounts row
  have hnet : netIn (tradeEntries row) (.fiat row.localCurrency) = localSigned row ∧
      netIn (tradeEntries row) .usdc = usdcSigned row := by
    rw [hlegs]
    simp [Ledger.posted]
  unfold value gain
  rw [h.posts hwf hwf', h.posts hwf hwf', if_pos rfl, if_pos rfl, hnet.1, hnet.2]
  ring

/-- A commit of such a trade. -/
theorem traded_of_commit {A : Assumed} {op : Op} {customerId : Uuid} {currency : CurrencyCode}
    {d : World} {ws : List Write} (hop : TradesAt customerId currency rate op) (hrate : 1 ≤ rate)
    (hwf : Wf d) (hwf' : Wf (applyAll ws d)) (hk : op.Commits A d ws) :
    Traded customerId currency rate d (applyAll ws d) := by
  obtain ⟨session, input, feed, body, source, rfl, rfl, rfl, hfeed, hlt, hfits⟩ := hop
  obtain ⟨row, ho, ht⟩ := hk
  obtain ⟨hle, hgt⟩ := gain_bounds ho hrate hfeed hlt hfits
  have hvalue : value row.customerId row.localCurrency rate (applyAll ws d) =
      value row.customerId row.localCurrency rate d + gain row rate := ht.value_eq hwf hwf'
  rw [ho.customerId, ho.localCurrency] at hvalue
  refine .inr ⟨row, ?_, by omega, fun hd => ?_⟩
  · rw [trades_applyAll, ← trades_brief, ht.brief]
    rfl
  · have := hgt hd
    omega

end Trade

/-! ### Every run -/

section Runs

variable {ι : Type} [DecidableEq ι] {ops : ι → Op} {d₀ : World} {customerId : Uuid}
  {currency : CurrencyCode} {rate : Rate}

/-- A step of a call that trades, among any others. -/
theorem traded_of_step (hrate : 1 ≤ rate) (hwf : Wf d₀) {e : Event ι}
    {s s' : Sys ι World Write Key Label Failure Answer} (hr : Reach (Step Env) (system ops d₀) s)
    (hst : Step Env e s s') (hop : ∀ i, e = .go i → TradesAt customerId currency rate (ops i)) :
    Traded customerId currency rate s.shared s'.shared := by
  have hwf₁ := wf_of_reach hwf hr
  have hm := moved_of_reach hwf hr hst
  generalize s'.shared = d' at hm
  cases hm with
  | crash i => exact .inl ⟨rfl, rfl⟩
  | env d he => cases he <;> exact .inl ⟨rfl, rfl⟩
  | go i d hbelow hch =>
    rcases hch with rfl | rfl | ⟨ws, rfl, hv, hk⟩
    · exact .inl ⟨rfl, rfl⟩
    · exact .inl ⟨rfl, rfl⟩
    · exact traded_of_commit (hop i rfl) hrate hwf₁ (hwf₁.applyAll hv hbelow) hk

theorem Traded.le {d d' : World} (h : Traded customerId currency rate d d') :
    value customerId currency rate d' ≤ value customerId currency rate d := by
  obtain ⟨-, h⟩ | ⟨_, -, h, -⟩ := h
  · exact h.le
  · exact h

/-- **No value is created**: along every run of calls that trade at one rate the value of the
customer's balances never grows, and one trade lowers it by less than one minor unit of what it
credits, when what it credits fits 64 bits. -/
theorem value_of_reach (hrate : 1 ≤ rate)
    (hops : ∀ i, TradesAt customerId currency rate (ops i)) (hwf : Wf d₀)
    {s : Sys ι World Write Key Label Failure Answer} (hr : Reach (Step Env) (system ops d₀) s) :
    value customerId currency rate s.shared ≤ value customerId currency rate d₀ ∧
      ∀ e s', Step Env e s s' → Traded customerId currency rate s.shared s'.shared := by
  refine ⟨?_, fun e s' hst => traded_of_step hrate hwf hr hst fun i _ => hops i⟩
  refine hr.invariant (I := fun s => value customerId currency rate s.shared ≤
    value customerId currency rate d₀) le_rfl fun s e s' hs hle hst => ?_
  exact (traded_of_step hrate hwf hs hst fun i _ => hops i).le.trans hle

end Runs

/-- A naira payment comes in. -/
def fundingOps : Fin 1 → Op
  | 0 => .applyInbound { samplePayment "payment" 1000000 with currency := .ngn }

/-- The database with the payment. -/
def fundedWorld : World :=
  ((play [0] (schedule [(0, 15)]) (system fundingOps (sampleWorld "NG"))).map (·.shared)).getD {}

theorem wf_fundedWorld : Wf fundedWorld := by
  unfold fundedWorld
  cases h : play [0] (schedule [(0, 15)]) (system fundingOps (sampleWorld "NG")) with
  | none => exact .of_new rfl rfl rfl rfl rfl rfl rfl (by simp) (by simp)
  | some s =>
    have hr : Reach (Step Env) (system fundingOps (sampleWorld "NG")) s :=
      reach_of_play (by decide) (env_schedule _) h
    exact wf_of_reach (wf_sampleWorld "NG") hr

/-- USDC is bought for naira, and converted back. -/
def roundTripOps : Fin 2 → Op
  | 0 => .executeTrade sampleSession ⟨.buy, "purchase", .ngn, 200001⟩
      (.ok ⟨1500 * 10 ^ 8, .live⟩) "buy"
  | 1 => .executeTrade sampleSession ⟨.convert, "conversion", .ngn, 100⟩
      (.ok ⟨1500 * 10 ^ 8, .live⟩) "convert"

/-- A purchase that does not divide, and the conversion of most of it. -/
theorem value_of_roundTrip :
    ∃ s, Reach (Step Env) (system roundTripOps fundedWorld) s ∧ s.shared.trades.length = 2 ∧
      value 1 .ngn (1500 * 10 ^ 8) s.shared ≤ value 1 .ngn (1500 * 10 ^ 8) fundedWorld := by
  obtain ⟨s, hr, hs⟩ := exists_reach roundTripOps fundedWorld [0, 1] [(0, 27), (1, 23)]
    (fun s => decide (s.shared.trades.length = 2)) (by decide) (by decide +kernel)
  have hops : ∀ i, TradesAt 1 .ngn (1500 * 10 ^ 8) (roundTripOps i) := fun i =>
    match i with
    | 0 => ⟨_, _, _, _, .live, rfl, rfl, rfl, rfl, by decide, by decide⟩
    | 1 => ⟨_, _, _, _, .live, rfl, rfl, rfl, rfl, by decide, by decide⟩
  exact ⟨s, hr, of_decide_eq_true hs, (value_of_reach (by decide) hops wf_fundedWorld hr).1⟩

end Kimana.SettlementWallet
