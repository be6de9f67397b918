import Kimana.AppState
import Kimana.Ledger
import Kimana.Util

/-!
# Settlement wallet

A trade buys USDC with a local currency or converts it back: two ledger legs at the indicative
rate.  The debited account's row is locked before its balance is checked.
-/

namespace Kimana.SettlementWallet

open ReadCommitted Util Ledger

/-- Local-currency units per USDC. -/
structure WalletRate where
  rate : Rate
  source : RateSource

/-- The rate of a trade: exactly 1 for USD, else what the feed answers for USD against the local
currency. -/
def usdcRate (feed : Except ApiError WalletRate) (currency : CurrencyCode) :
    Except ApiError WalletRate :=
  if currency = .usd then .ok ⟨rateScale, .live⟩
  else match feed with
  | .ok r => .ok r
  | .error e =>
    if e.code = .validation then
      .error (.validation ("USDC can't be traded against " ++ currency.asStr ++ " yet."))
    else .error e

/-- What a caller sends to trade. -/
structure TradeInput where
  kind : TradeKind
  idempotencyKey : String
  localCurrency : CurrencyCode
  /-- Minor units of the side the customer entered. -/
  amountMinor : ℤ

/-- The trade a customer made with an idempotency key. -/
def findByKey (customerId : Uuid) (key : String) : Tx (Option TradeRow) := do
  return (← Tx.query).tradeByKey customerId key

/-- Insert a trade; `none` when the key is taken. -/
def insertTrade (row : TradeRow) : Tx (Option TradeRow) := do
  Tx.lock (.tradeKey row.customerId row.idempotencyKey)
  if ((← Tx.read).tradeByKey row.customerId row.idempotencyKey).isSome then return none
  else do
  Tx.lock (.tradeReference row.reference)
  if (← Tx.read).trades.any fun t => t.reference = row.reference then Prog.fail .serverError
  else do
  let id ← Tx.fresh
  Tx.write (.insertTrade { row with id })
  return some { row with id }

/-- What is debited: the account, the amount and its label. -/
def debit (kind : TradeKind) (localAcct usdcAcct : Uuid) (localCurrency : CurrencyCode)
    (localMinor usdcMinor : ℤ) : Uuid × ℤ × String :=
  match kind with
  | .buy => (localAcct, localMinor, localCurrency.asStr)
  | .convert => (usdcAcct, usdcMinor, "USDC")

/-- The USDC and the local amount of a trade; both directions floor. -/
def amounts (kind : TradeKind) (amountMinor : ℤ) (rate : Rate) : ℤ × ℤ :=
  match kind with
  | .buy => (invertRate amountMinor rate, amountMinor)
  | .convert => (amountMinor, applyRate amountMinor rate)

/-- The signed legs and their description. -/
def legs (kind : TradeKind) (localMinor usdcMinor : ℤ) : ℤ × ℤ × String :=
  match kind with
  | .buy => (-localMinor, usdcMinor, "USDC purchase")
  | .convert => (localMinor, -usdcMinor, "USDC conversion")

/-- The stored name of a rate source. -/
def rateSourceStr : RateSource → String
  | .live => "live"
  | .cachedProvisional => "cachedProvisional"

/-- The audit row of a trade. -/
def tradeAudit (session : Session) (row : TradeRow) (usdcBalance : ℤ) : AuditRow :=
  { actorId := some session.userId
    actorRole := some session.role
    action := match row.kind with
      | .buy => "settlement.buy"
      | .convert => "settlement.convert"
    entityType := "settlement_trade"
    entityId := row.id
    before := none
    after := some [("reference", .str row.reference),
      ("usdcAmountMinor", .num row.usdcAmountMinor),
      ("localCurrency", .str row.localCurrency.asStr),
      ("localAmountMinor", .num row.localAmountMinor), ("rate", .num row.rate),
      ("rateSource", .str (rateSourceStr row.rateSource)),
      ("usdcBalanceMinor", .num usdcBalance)] }

/-- The trade's transaction, once its amounts are known. -/
def trade (session : Session) (input : TradeInput) (rate : WalletRate)
    (usdcMinor localMinor : ℤ) (body : String) : Tx TradeRow := do
  let conn ← begin
  let localAcct ← getOrCreateAccount session.customerId input.localCurrency
  let usdcAcct ← getOrCreateAccountByCode session.customerId .usdc
  let (debitAcct, debitMinor, debitLabel) :=
    debit input.kind localAcct usdcAcct input.localCurrency localMinor usdcMinor
  -- Row lock first, so a concurrent trade can't spend the same balance.
  Tx.lock (.account debitAcct)
  Tx.mark (·.withCheck (some (debitAcct, debitMinor)))
  if (← accountBalanceMinor debitAcct) < debitMinor then
    Prog.fail (.validation ("Insufficient " ++ debitLabel ++ " balance."))
  else do
  Tx.mark (·.withCheck none)
  match ← insertTrade
      { id := 0
        reference := taggedReference "ST" body
        customerId := session.customerId
        idempotencyKey := input.idempotencyKey
        kind := input.kind
        usdcAmountMinor := usdcMinor
        localCurrency := input.localCurrency
        localAmountMinor := localMinor
        rate := rate.rate
        rateSource := rate.source
        createdBy := session.userId
        createdAt := conn.now } with
  | none => do
    -- A concurrent request with the same key committed first.
    Tx.rollback
    match ← findByKey session.customerId input.idempotencyKey with
    | some row => return row
    | none => Prog.fail .serverError
  | some row => do
    let (localSigned, usdcSigned, description) := legs input.kind localMinor usdcMinor
    let _ ← postSettlementEntry conn
      ⟨localAcct, row.id, localSigned, .fiat input.localCurrency, description⟩
    let (_, usdcBalance) ← postSettlementEntry conn
      ⟨usdcAcct, row.id, usdcSigned, .usdc, description⟩
    Tx.write (.insertAudit (tradeAudit session row usdcBalance))
    Tx.commit
    return row

/-- Buy USDC or convert it back.  `feed` is the answer of the indicative-rate feed. -/
@[irreducible] def executeTrade (session : Session) (input : TradeInput)
    (feed : Except ApiError WalletRate) (body : String) : Tx TradeRow := do
  if byteLen (trim input.idempotencyKey) < 8 then
    Prog.fail (.validation "Provide a stable idempotency key.")
  else do
  match ← findByKey session.customerId input.idempotencyKey with
  | some existing => return existing
  | none => do
  if input.amountMinor ≤ 0 then
    Prog.fail (.validation "Enter an amount greater than zero.")
  else do
  match usdcRate feed input.localCurrency with
  | .error e => Prog.fail e
  | .ok rate => do
  let (usdcMinor, localMinor) := amounts input.kind input.amountMinor rate.rate
  if usdcMinor ≤ 0 || localMinor ≤ 0 then
    Prog.fail (.validation "That amount is too small to convert at the current rate.")
  else trade session input rate usdcMinor localMinor body

end Kimana.SettlementWallet
