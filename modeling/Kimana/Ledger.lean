import Kimana.Util
import Kimana.Write

/-!
# Ledger

Reads of the ledger and the append-only posting primitive.  A posting locks its account row
before it reads the balance it carries forward, so postings to one account follow one another.

Amounts are 64-bit numbers.  The database refuses a sum that 64 bits do not hold (`toBigint`); the
code's own additions and negations wrap.
-/

namespace Kimana.Ledger

open ReadCommitted Util

/-- The account of a customer in a ledger currency, opened on first use.  The insert waits for a
transaction that inserted the same `(customer_id, currency)` and fails when that one committed. -/
def getOrCreateAccountByCode (customerId : Uuid) (currency : LedgerCurrency) : Tx Uuid := do
  let d ← Tx.read
  match d.accountOf customerId currency with
  | some id => return id
  | none => do
    Tx.lock (.accountKey customerId currency)
    let d ← Tx.read
    if (d.accountOf customerId currency).isSome then Prog.fail .serverError else do
    let id ← Tx.fresh
    Tx.write (.insertAccount ⟨id, customerId, currency⟩)
    return id

/-- `getOrCreateAccountByCode` for a currency code. -/
def getOrCreateAccount (customerId : Uuid) (currency : CurrencyCode) : Tx Uuid :=
  getOrCreateAccountByCode customerId (.fiat currency)

/-- A sum cast to `bigint`, an error of the statement when 64 bits do not hold it. -/
def toBigint (n : ℤ) : Tx ℤ := if FitsI64 n then return n else Prog.fail .serverError

/-- The sum of an account's entries. -/
def accountBalanceMinor (accountId : Uuid) : Tx ℤ := do toBigint ((← Tx.read).balance accountId)

/-! ### Exposure -/

/-- The statuses that no longer count against an exposure limit. -/
def terminalStatuses : List TransferStatus := [.completed, .rejected, .expired, .reversed]

/-- Sum of a customer's non-terminal transfer amounts in one currency. -/
def customerOpenExposureMinor (customerId : Uuid) (currency : CurrencyCode) : Tx ℤ := do
  toBigint (((← Tx.read).transfers.filter fun t => t.customerId = customerId &&
    t.sendCurrency = currency && t.currentStatus ∉ terminalStatuses).map (·.sendAmountMinor)).sum

/-- A customer's own exposure ceilings; `none` falls back to the configured default. -/
structure CustomerLimits where
  maxTransferAmountMinor : Option ℤ
  maxAggregateExposureMinor : Option ℤ

/-- The customer's limits, read under the row lock.  Nothing but ops writes them, and the lock's
wait re-reads the row. -/
def lockCustomerLimits (customerId : Uuid) : Tx CustomerLimits :=
  Prog.lock (.customer customerId) fun _ cur =>
    match cur.customers.find? fun c => c.id = customerId with
    | some c => .ret ⟨c.maxTransferAmountMinor, c.maxAggregateExposureMinor⟩
    | none => .fail .serverError

/-! ### Postings -/

/-- Append one entry, its running balance computed under the account's row lock. -/
def appendEntry (conn : Conn) (accountId : Uuid) (amountMinor : ℤ) (currency : LedgerCurrency)
    (description : String) (source : EntrySource) (reversalOfEntryId : Option Uuid) :
    Tx (Uuid × ℤ) := do
  Tx.lock (.account accountId)
  let prev ← accountBalanceMinor accountId
  let running := asI64 (prev + amountMinor)
  let entryId ← Tx.fresh
  Tx.write (.insertEntry ⟨entryId, accountId, source, amountMinor, currency, running,
    description, reversalOfEntryId, conn.now⟩)
  return (entryId, running)

/-- One ledger entry of a transfer; amounts are signed, credits positive. -/
structure LedgerPosting where
  accountId : Uuid
  transferId : Uuid
  amountMinor : ℤ
  currency : CurrencyCode
  description : String
  reversalOfEntryId : Option Uuid

/-- Append an entry for a transfer. -/
def postLedgerEntry (conn : Conn) (p : LedgerPosting) : Tx (Uuid × ℤ) :=
  appendEntry conn p.accountId p.amountMinor (.fiat p.currency) p.description
    (.transfer p.transferId) p.reversalOfEntryId

/-- One leg of a settlement-wallet trade. -/
structure SettlementPosting where
  accountId : Uuid
  tradeId : Uuid
  amountMinor : ℤ
  currency : LedgerCurrency
  description : String

/-- Append a leg of a trade. -/
def postSettlementEntry (conn : Conn) (p : SettlementPosting) : Tx (Uuid × ℤ) :=
  appendEntry conn p.accountId p.amountMinor p.currency p.description
    (.settlementTrade p.tradeId) none

/-- The credit for money a partner confirmed. -/
structure InboundPosting where
  accountId : Uuid
  paymentId : Uuid
  amountMinor : ℤ
  currency : CurrencyCode
  description : String

/-- Append the credit of a payment. -/
def postInboundEntry (conn : Conn) (p : InboundPosting) : Tx (Uuid × ℤ) :=
  appendEntry conn p.accountId p.amountMinor (.fiat p.currency) p.description
    (.inboundPayment p.paymentId) none

end Kimana.Ledger
