import Kimana.AppState
import Kimana.Util
import Kimana.Write

/-!
# Firm quotes

Requesting a quote, reading a stored one, and claiming it for a transfer.  An id that is no UUID
finds nothing, like an unknown one.
-/

namespace Kimana.Quote

open ReadCommitted

/-- A quote as stored, with the view the customer gets. -/
structure StoredQuote where
  id : Uuid
  customerId : Uuid
  firmQuote : FirmQuote
  expiresAt : Time

/-- A row as a stored quote; the source of the rate is not stored. -/
def intoStored (q : QuoteRow) : StoredQuote :=
  { id := q.id
    customerId := q.customerId
    firmQuote :=
      { id := q.id
        sendCurrency := q.sendCurrency
        receiveCurrency := q.receiveCurrency
        breakdown :=
          { rate := q.rate
            fee := ⟨q.feeMinor, q.sendCurrency⟩
            sendAmount := ⟨q.sendAmountMinor, q.sendCurrency⟩
            receiveAmount := ⟨q.receiveAmountMinor, q.receiveCurrency⟩
            source := .live }
        issuedAt := q.issuedAt
        expiresAt := q.expiresAt }
    expiresAt := q.expiresAt }

/-- The quote with an id. -/
def findById (id : Uuid) : Tx (Option StoredQuote) := do
  return ((← Tx.query).quote id).map intoStored

/-- Claim a quote for a transfer: a conditional update, whose condition is checked again on the
row as it is once a concurrent claim has ended. -/
def tryConsume (quoteId transferId : Uuid) : Tx Bool :=
  Prog.lock (.quote quoteId) fun _ cur =>
    match cur.quote quoteId with
    | some q =>
      if q.consumedByTransferId.isNone then do
        Tx.write (.consumeQuote quoteId transferId)
        return true
      else return false
    | none => return false

/-! ### Requesting a quote -/

/-- The side whose amount the customer enters. -/
inductive QuoteAmountField
  | send
  | receive
  deriving DecidableEq, Repr

/-- The name an error message gives a side. -/
def QuoteAmountField.debug : QuoteAmountField → String
  | send => "Send"
  | receive => "Receive"

/-- What the rate feed answers, as far as a quote keeps it. -/
structure IndicativeRate where
  rate : Rate
  source : RateSource

/-- What a caller sends to request a quote. -/
structure RequestFirmQuoteBody where
  sendCurrency : String
  receiveCurrency : String
  amount : Money
  amountField : QuoteAmountField

/-- Why a request is not answered with a quote: an error, or a panic. -/
inductive Stop
  | api (e : ApiError)
  | panicked
  deriving DecidableEq

/-- The amount sent and the amount received, in fixed-point arithmetic.  Dividing by a zero rate
panics. -/
def deriveAmounts (field : QuoteAmountField) (amountMinor : ℤ) (rate : Rate) :
    Except Stop (ℤ × ℤ) :=
  match field with
  | .send => .ok (amountMinor, Util.applyRate amountMinor rate)
  | .receive =>
    if rate = 0 then .error .panicked else .ok (Util.invertRate amountMinor rate, amountMinor)

/-- The currencies of a request, once its amount is checked. -/
def checkRequest (body : RequestFirmQuoteBody) : Except ApiError (CurrencyCode × CurrencyCode) := do
  let send ← CurrencyCode.parse (Util.trim body.sendCurrency)
  let receive ← CurrencyCode.parse (Util.trim body.receiveCurrency)
  if send = receive then .error (.validation "Send and receive currencies must differ.")
  if body.amount.amountMinor ≤ 0 then
    .error (.validation "Enter an amount greater than zero.")
  let expected := match body.amountField with
    | .send => send
    | .receive => receive
  if body.amount.currency ≠ expected then
    .error (.validation ("Amount currency must be " ++ expected.asStr ++ " when entered on the " ++
      body.amountField.debug ++ " side."))
  return (send, receive)

/-- Answer a request with a quote that is stored for `ttl` seconds; `feed` answers with a rate for
two currencies. -/
def requestFirmQuote (ttl : Time) (session : Session) (body : RequestFirmQuoteBody)
    (feed : CurrencyCode → CurrencyCode → Except ApiError IndicativeRate) (d : World) :
    Except Stop (FirmQuote × World) := do
  let (send, receive) ← (checkRequest body).mapError .api
  let indicative ← (feed send receive).mapError .api
  let (sendMinor, receiveMinor) ←
    deriveAmounts body.amountField body.amount.amountMinor indicative.rate
  let row : QuoteRow :=
    { id := d.nextId
      customerId := session.customerId
      sendCurrency := send
      receiveCurrency := receive
      rate := indicative.rate
      feeMinor := 0
      sendAmountMinor := sendMinor
      receiveAmountMinor := receiveMinor
      issuedAt := d.clock
      expiresAt := d.clock + ttl
      consumedByTransferId := none }
  let quote := (intoStored row).firmQuote
  return ({ quote with breakdown := { quote.breakdown with source := indicative.source } },
    { d with nextId := d.nextId + 1, quotes := d.quotes ++ [row] })

end Kimana.Quote
