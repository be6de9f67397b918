import Kimana.Quote
import Kimana.Util.Rate
import Kimana.Settlement.Units

/-!
# The amounts of a firm quote

* `agrees_iff` : the vault recomputes the amount received of a quote exactly when it was entered
  on the side sent, or when the division by the rate left nothing over.
* `trades_iff` : a request is answered with two positive amounts, the derived one the exact floor,
  exactly when amount and rate are in the range the code does not check.
-/

namespace Kimana.Quote

open Util (rateScale)

/-! ### The vault's formula -/

/-- The derived amount fits 64 bits. -/
def ResultFits (field : QuoteAmountField) (amountMinor : ℤ) (rate : Rate) : Prop :=
  match field with
  | .send => amountMinor * rate / rateScale < 2 ^ 63
  | .receive => amountMinor * rateScale / rate < 2 ^ 63

instance (field : QuoteAmountField) (amountMinor : ℤ) (rate : Rate) :
    Decidable (ResultFits field amountMinor rate) := by
  unfold ResultFits
  cases field <;> infer_instance

/-- The vault, which computes the amount received from the amount sent, accepts the amounts. -/
def VaultAccepts (rate : Units.RateE8) (amounts : ℤ × ℤ) : Prop :=
  Units.receiveAmountMinor (Units.centsToUsdc amounts.1.toNat) rate 2 = .ok amounts.2.toNat

instance (rate : Units.RateE8) (amounts : ℤ × ℤ) : Decidable (VaultAccepts rate amounts) :=
  decEq _ _

section Vault

variable {amountMinor : ℤ} (rate : Units.RateE8)

theorem vaultAccepts_iff {sendMinor receiveMinor : ℤ} (h₀ : 0 ≤ sendMinor)
    (hlt : sendMinor < 2 ^ 63) (h₁ : 0 ≤ receiveMinor) :
    VaultAccepts rate (sendMinor, receiveMinor) ↔
      sendMinor * rate.scaled / rateScale = receiveMinor := by
  lift sendMinor to ℕ using h₀
  lift receiveMinor to ℕ using h₁
  have hcents : sendMinor < 2 ^ 64 := by omega
  unfold VaultAccepts
  rw [Int.toNat_natCast, Int.toNat_natCast, Units.receiveAmountMinor_cents hcents rate]
  constructor
  · intro h
    have h' : sendMinor * rate.scaled / 10 ^ 8 = receiveMinor := by injection h
    rw [← h']
    rfl
  · intro h
    unfold rateScale at h
    have h' : sendMinor * rate.scaled / 10 ^ 8 = receiveMinor := by exact_mod_cast h
    rw [h']

/-- Multiplying a floored quotient back loses nothing exactly when the division was exact. -/
theorem ediv_mul_ediv_eq_iff {n r m : ℤ} (hr : 0 < r) (hm : 0 < m) :
    n * m / r * r / m = n ↔ r ∣ n * m := by
  constructor
  · intro h
    have hle : n * m ≤ n * m / r * r := by
      have := Int.ediv_mul_le (n * m / r * r) (Int.ne_of_gt hm)
      rwa [h] at this
    have hge : n * m / r * r ≤ n * m := Int.ediv_mul_le _ (Int.ne_of_gt hr)
    exact ⟨n * m / r, by rw [Int.mul_comm r]; exact Int.le_antisymm hle hge⟩
  · intro h
    rw [Int.ediv_mul_cancel h, Int.mul_ediv_cancel _ (Int.ne_of_gt hm)]

/-- The vault accepts the amounts of a quote exactly when the amount was entered on the side
sent, or when the rate divides the amount at its scale. -/
theorem agrees_iff (field : QuoteAmountField) (hpos : 1 ≤ amountMinor)
    (hlt : amountMinor < 2 ^ 63) (hfits : ResultFits field amountMinor rate.scaled) :
    (∃ amounts, deriveAmounts field amountMinor rate.scaled = .ok amounts ∧
      VaultAccepts rate amounts) ↔
      field = .send ∨ (rate.scaled : ℤ) ∣ amountMinor * rateScale := by
  have hscaled : (0 : ℤ) < rate.scaled := by exact_mod_cast rate.pos
  have hscale : 0 < rateScale := Util.rateScale_pos
  have h₀ : 0 ≤ amountMinor := by omega
  cases field with
  | send =>
    have hreceive := Util.applyRate_eq_floor h₀ hscaled.le hfits
    refine iff_of_true ⟨_, rfl, ?_⟩ (.inl rfl)
    rw [hreceive]
    exact (vaultAccepts_iff rate h₀ hlt
      (Int.ediv_nonneg (Int.mul_nonneg h₀ hscaled.le) hscale.le)).2 rfl
  | receive =>
    have hsend := Util.invertRate_eq_floor h₀ hlt hscaled.le hfits
    have hderive : deriveAmounts .receive amountMinor rate.scaled =
        .ok (amountMinor * rateScale / rate.scaled, amountMinor) := by
      rw [deriveAmounts, if_neg hscaled.ne', hsend]
    have hvault := vaultAccepts_iff rate
      (Int.ediv_nonneg (Int.mul_nonneg h₀ hscale.le) hscaled.le) hfits h₀
    rw [hderive]
    constructor
    · rintro ⟨_, h, hok⟩
      cases h
      exact .inr ((ediv_mul_ediv_eq_iff hscaled hscale).1 (hvault.1 hok))
    · rintro (h | h)
      · cases h
      · exact ⟨_, rfl, hvault.2 ((ediv_mul_ediv_eq_iff hscaled hscale).2 h)⟩

/-- An amount of one minor unit, entered on the side sent, at a rate of 1645.25. -/
theorem agrees_of_cent : ∃ amounts, deriveAmounts .send 1 164525000000 = .ok amounts ∧
    VaultAccepts ⟨164525000000, by decide, by decide⟩ amounts :=
  (agrees_iff ⟨164525000000, by decide, by decide⟩ .send (by decide) (by decide)
    (by decide)).2 (.inl rfl)

/-- One minor unit to be received at a rate of 3 is quoted at nothing sent, for which the vault
pays out nothing. -/
theorem not_agrees_of_third : ¬ ∀ (field : QuoteAmountField) (amountMinor : ℤ)
    (rate : Units.RateE8), 1 ≤ amountMinor → amountMinor < 2 ^ 63 →
    ResultFits field amountMinor rate.scaled →
    ∃ amounts, deriveAmounts field amountMinor rate.scaled = .ok amounts ∧
      VaultAccepts rate amounts := by
  intro h
  obtain ⟨amounts, hderive, hvault⟩ :=
    h .receive 1 ⟨300000000, by decide, by decide⟩ (by decide) (by decide) (by decide)
  have hamounts : deriveAmounts .receive 1 300000000 = .ok (0, 1) := by decide
  have hsame : (.ok (0, 1) : Except Stop (ℤ × ℤ)) = .ok amounts := hamounts.symm.trans hderive
  cases hsame
  revert hvault
  decide

end Vault

/-! ### Positive and exact amounts -/

/-- The amounts are positive, and the derived one is the exact floor: the product fits 128 bits,
the quotient 64, and the divisor is not zero. -/
def Exact (field : QuoteAmountField) (amountMinor : ℤ) (rate : Rate) (sendMinor receiveMinor : ℤ) :
    Prop :=
  0 < sendMinor ∧ 0 < receiveMinor ∧
    match field with
    | .send =>
      sendMinor = amountMinor ∧ receiveMinor = amountMinor * rate / rateScale ∧
        amountMinor * rate < 2 ^ 127 ∧ amountMinor * rate / rateScale < 2 ^ 63
    | .receive =>
      receiveMinor = amountMinor ∧ sendMinor = amountMinor * rateScale / rate ∧ rate ≠ 0 ∧
        amountMinor * rateScale < 2 ^ 127 ∧ amountMinor * rateScale / rate < 2 ^ 63

/-- The derived amount is at least one minor unit and fits 64 bits. -/
def InRange (field : QuoteAmountField) (amountMinor : ℤ) (rate : Rate) : Prop :=
  match field with
  | .send => rateScale ≤ amountMinor * rate ∧ amountMinor * rate < 2 ^ 63 * rateScale
  | .receive =>
    0 < rate ∧ rate ≤ amountMinor * rateScale ∧ amountMinor * rateScale < 2 ^ 63 * rate

instance (field : QuoteAmountField) (amountMinor : ℤ) (rate : Rate) :
    Decidable (InRange field amountMinor rate) := by
  unfold InRange
  cases field <;> infer_instance

section Amounts

variable {field : QuoteAmountField} {amountMinor : ℤ} {rate : Rate}

theorem ediv_pos_iff {n r : ℤ} (hr : 0 < r) : 0 < n / r ↔ r ≤ n := by
  have h := Int.le_ediv_iff_mul_le (a := 1) (b := n) hr
  rw [Int.one_mul] at h
  rw [← h]
  exact Iff.rfl

theorem exact_of_send_iff (hpos : 0 < amountMinor) (hrate : 0 ≤ rate) :
    Exact .send amountMinor rate amountMinor (Util.applyRate amountMinor rate) ↔
      InRange .send amountMinor rate := by
  unfold Exact InRange
  have hscale := Util.rateScale_pos
  constructor
  · rintro ⟨-, hreceive, -, heq, -, hlt⟩
    rw [heq] at hreceive
    exact ⟨(ediv_pos_iff hscale).1 hreceive, (Int.ediv_lt_iff_lt_mul hscale).1 hlt⟩
  · rintro ⟨hle, hlt⟩
    have hdiv : amountMinor * rate / rateScale < 2 ^ 63 := (Int.ediv_lt_iff_lt_mul hscale).2 hlt
    have heq := Util.applyRate_eq_floor hpos.le hrate hdiv
    refine ⟨hpos, ?_, rfl, heq, ?_, hdiv⟩
    · rw [heq]
      exact (ediv_pos_iff hscale).2 hle
    · unfold rateScale at hlt
      omega

theorem exact_of_receive_iff (hpos : 0 < amountMinor) (hlt : amountMinor < 2 ^ 63)
    (hrate : 0 < rate) :
    Exact .receive amountMinor rate (Util.invertRate amountMinor rate) amountMinor ↔
      InRange .receive amountMinor rate := by
  unfold Exact InRange
  constructor
  · rintro ⟨hsend, -, -, heq, -, -, hlt⟩
    rw [heq] at hsend
    exact ⟨hrate, (ediv_pos_iff hrate).1 hsend, (Int.ediv_lt_iff_lt_mul hrate).1 hlt⟩
  · rintro ⟨-, hle, hlt'⟩
    have hdiv : amountMinor * rateScale / rate < 2 ^ 63 := (Int.ediv_lt_iff_lt_mul hrate).2 hlt'
    have heq := Util.invertRate_eq_floor hpos.le hlt hrate.le hdiv
    refine ⟨?_, hpos, rfl, heq, hrate.ne', Util.mul_rateScale_lt hlt, hdiv⟩
    rw [heq]
    exact (ediv_pos_iff hrate).2 hle

end Amounts

/-! ### A request -/

/-- What is promised of a request: it ends in an error, or it stores one quote with exact and
positive amounts. -/
def Trades (body : RequestFirmQuoteBody)
    (feed : CurrencyCode → CurrencyCode → Except ApiError IndicativeRate) (d : World) :
    Except Stop (FirmQuote × World) → Prop
  | .error (.api _) => True
  | .error .panicked => False
  | .ok (_, d') => ∃ send receive indicative row, checkRequest body = .ok (send, receive) ∧
      feed send receive = .ok indicative ∧ d'.quotes = d.quotes ++ [row] ∧
      Exact body.amountField body.amount.amountMinor indicative.rate row.sendAmountMinor
        row.receiveAmountMinor

theorem amount_pos_of_checkRequest {body : RequestFirmQuoteBody} {p : CurrencyCode × CurrencyCode}
    (h : checkRequest body = .ok p) : 0 < body.amount.amountMinor := by
  by_contra hle
  have hle' : body.amount.amountMinor ≤ 0 := Int.not_lt.1 hle
  unfold checkRequest at h
  cases hsend : CurrencyCode.parse (Util.trim body.sendCurrency) with
  | error e => simp [hsend, bind, Except.bind] at h
  | ok send =>
    cases hreceive : CurrencyCode.parse (Util.trim body.receiveCurrency) with
    | error e => simp [hsend, hreceive, bind, Except.bind] at h
    | ok receive =>
      by_cases hsame : send = receive <;>
        simp [hsend, hreceive, hsame, hle', bind, Except.bind] at h

section Request

variable (ttl : Time) (session : Session) (body : RequestFirmQuoteBody)
  (feed : CurrencyCode → CurrencyCode → Except ApiError IndicativeRate) (d : World)

/-- Once the amounts are derived, the promise is about them. -/
theorem trades_of_derived_iff {send receive : CurrencyCode} {indicative : IndicativeRate}
    {sendMinor receiveMinor : ℤ} (hcheck : checkRequest body = .ok (send, receive))
    (hfeed : feed send receive = .ok indicative)
    (hderive : deriveAmounts body.amountField body.amount.amountMinor indicative.rate =
      .ok (sendMinor, receiveMinor)) :
    Trades body feed d (requestFirmQuote ttl session body feed d) ↔
      Exact body.amountField body.amount.amountMinor indicative.rate sendMinor receiveMinor := by
  unfold requestFirmQuote
  simp only [hcheck, hfeed, hderive, Except.mapError, bind, Except.bind, pure, Except.pure]
  constructor
  · rintro ⟨send', receive', indicative', row', hcheck', hfeed', hquotes, hexact⟩
    rw [hcheck] at hcheck'
    cases hcheck'
    rw [hfeed] at hfeed'
    cases hfeed'
    cases List.append_cancel_left hquotes
    exact hexact
  · intro h
    exact ⟨send, receive, indicative, _, hcheck, hfeed, rfl, h⟩

theorem requestFirmQuote_panicked {send receive : CurrencyCode} {indicative : IndicativeRate}
    (hcheck : checkRequest body = .ok (send, receive)) (hfeed : feed send receive = .ok indicative)
    (hderive : deriveAmounts body.amountField body.amount.amountMinor indicative.rate =
      .error .panicked) : requestFirmQuote ttl session body feed d = .error .panicked := by
  unfold requestFirmQuote
  simp only [hcheck, hfeed, hderive, Except.mapError, bind, Except.bind]

/-- With the currencies and the rate at hand, a request is answered as promised exactly when
amount and rate are in range. -/
theorem trades_iff_inRange {send receive : CurrencyCode} {indicative : IndicativeRate}
    (hamount : body.amount.amountMinor < 2 ^ 63) (hrate : 0 ≤ indicative.rate)
    (hcheck : checkRequest body = .ok (send, receive))
    (hfeed : feed send receive = .ok indicative) :
    Trades body feed d (requestFirmQuote ttl session body feed d) ↔
      InRange body.amountField body.amount.amountMinor indicative.rate := by
  have hpos := amount_pos_of_checkRequest hcheck
  cases hfield : body.amountField with
  | send =>
    rw [trades_of_derived_iff ttl session body feed d hcheck hfeed (by rw [hfield]; rfl), hfield]
    exact exact_of_send_iff hpos hrate
  | receive =>
    by_cases hzero : indicative.rate = 0
    · -- the division by a zero rate panics
      have hderive : deriveAmounts body.amountField body.amount.amountMinor indicative.rate =
          .error .panicked := by rw [hfield, deriveAmounts, if_pos hzero]
      rw [requestFirmQuote_panicked ttl session body feed d hcheck hfeed hderive]
      exact iff_of_false id fun h => Int.ne_of_gt h.1 hzero
    · have hderive : deriveAmounts body.amountField body.amount.amountMinor indicative.rate =
          .ok (Util.invertRate body.amount.amountMinor indicative.rate,
            body.amount.amountMinor) := by rw [hfield, deriveAmounts, if_neg hzero]
      rw [trades_of_derived_iff ttl session body feed d hcheck hfeed hderive, hfield]
      exact exact_of_receive_iff hpos hamount (lt_of_le_of_ne hrate (Ne.symm hzero))

/-- A request is answered as promised exactly when amount and rate are in range. -/
theorem trades_iff (hamount : body.amount.amountMinor < 2 ^ 63)
    (hrate : ∀ send receive indicative, feed send receive = .ok indicative →
      0 ≤ indicative.rate ∧ indicative.rate < 2 ^ 127) :
    Trades body feed d (requestFirmQuote ttl session body feed d) ↔
      ∀ send receive indicative, checkRequest body = .ok (send, receive) →
        feed send receive = .ok indicative →
        InRange body.amountField body.amount.amountMinor indicative.rate := by
  cases hcheck : checkRequest body with
  | error e =>
    have hrun : requestFirmQuote ttl session body feed d = .error (.api e) := by
      simp only [requestFirmQuote, hcheck, Except.mapError, bind, Except.bind]
    rw [hrun]
    exact iff_of_true trivial fun _ _ _ h => by cases h
  | ok p =>
    obtain ⟨send, receive⟩ := p
    cases hfeed : feed send receive with
    | error e =>
      have hrun : requestFirmQuote ttl session body feed d = .error (.api e) := by
        simp only [requestFirmQuote, hcheck, hfeed, Except.mapError, bind, Except.bind]
      rw [hrun]
      refine iff_of_true trivial fun _ _ _ h h' => ?_
      cases h
      rw [hfeed] at h'
      cases h'
    | ok indicative =>
      rw [trades_iff_inRange ttl session body feed d hamount (hrate _ _ _ hfeed).1 hcheck hfeed]
      refine ⟨fun h send' receive' indicative' h₁ h₂ => ?_, fun h => h _ _ _ rfl hfeed⟩
      cases h₁
      rw [hfeed] at h₂
      cases h₂
      exact h

end Request

/-- A customer who signed in. -/
def sampleSession : Session := ⟨1, 1, "owner"⟩

/-- One minor unit of US dollars, to be sent to Nigeria. -/
def sampleBody : RequestFirmQuoteBody :=
  { sendCurrency := "USD", receiveCurrency := "NGN", amount := ⟨1, .usd⟩, amountField := .send }

/-- A feed that always answers with one rate. -/
def sampleFeed (rate : Rate) : CurrencyCode → CurrencyCode → Except ApiError IndicativeRate :=
  fun _ _ => .ok ⟨rate, .live⟩

theorem trades_of_cent : Trades sampleBody (sampleFeed 164525000000) {}
    (requestFirmQuote 90 sampleSession sampleBody (sampleFeed 164525000000) {}) :=
  (trades_iff 90 sampleSession sampleBody (sampleFeed 164525000000) {} (by decide)
    fun _ _ _ h => by
      cases h
      decide).2 fun _ _ _ _ h => by
        cases h
        decide

/-- One minor unit sent at a rate of one half: a quote with nothing to receive is stored. -/
theorem not_trades_of_half : ¬ Trades sampleBody (sampleFeed 50000000) {}
    (requestFirmQuote 90 sampleSession sampleBody (sampleFeed 50000000) {}) := by
  have hcheck : checkRequest sampleBody = .ok (.usd, .ngn) := by decide
  rw [trades_of_derived_iff 90 sampleSession sampleBody (sampleFeed 50000000) {} hcheck rfl rfl]
  have hzero : Util.applyRate 1 50000000 = 0 := by decide
  rintro ⟨-, hpos, -⟩
  have hpos' : 0 < Util.applyRate 1 50000000 := hpos
  rw [hzero] at hpos'
  exact Int.lt_irrefl 0 hpos'

end Kimana.Quote
