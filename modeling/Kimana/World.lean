import Kimana.Contract
import Kimana.Table

/-!
# The shared state

`World` is the committed database together with the clock and the chain the node serves.  A row
carries the columns that some modelled function reads; tables are lists in insertion order, and
the reads the functions share are stated beside them.

A block's hash is modelled as the chain up to that block (`BlockHash`): hashes do not collide, so
two chains that agree on the hash of a block agree on every block before it.
-/

namespace Kimana

open Table

/-! ### Rows -/

/-- `customers`: the columns that bound a customer's exposure. -/
structure CustomerRow where
  id : Uuid
  maxTransferAmountMinor : Option ℤ
  maxAggregateExposureMinor : Option ℤ
  deriving DecidableEq

/-- `recipients`. -/
structure RecipientRow where
  id : Uuid
  customerId : Uuid
  accountName : String
  country : String
  deriving DecidableEq

/-- `quotes`. -/
structure QuoteRow where
  id : Uuid
  customerId : Uuid
  sendCurrency : CurrencyCode
  receiveCurrency : CurrencyCode
  rate : Rate
  feeMinor : ℤ
  sendAmountMinor : ℤ
  receiveAmountMinor : ℤ
  issuedAt : Time
  expiresAt : Time
  consumedByTransferId : Option Uuid
  deriving DecidableEq

/-- `transfers`. -/
structure TransferRow where
  id : Uuid
  reference : String
  customerId : Uuid
  idempotencyKey : String
  recipientId : Uuid
  sendCurrency : CurrencyCode
  receiveCurrency : CurrencyCode
  sendAmountMinor : ℤ
  receiveAmountMinor : ℤ
  tradeDescription : Option String
  quoteSnapshot : FirmQuote
  currentStatus : TransferStatus
  createdAt : Time
  updatedAt : Time
  settlementRef : Option B256
  deriving DecidableEq

/-- `transfer_state_history`. -/
structure HistoryRow where
  transferId : Uuid
  position : ℕ
  status : TransferStatus
  enteredAt : Time
  note : Option String
  payload : Option JObj
  deriving DecidableEq

/-- `accounts`. -/
structure AccountRow where
  id : Uuid
  customerId : Uuid
  currency : LedgerCurrency
  deriving DecidableEq

/-- Which of the three nullable columns of `ledger_entries` is set. -/
inductive EntrySource
  | transfer (id : Uuid)
  | settlementTrade (id : Uuid)
  | inboundPayment (id : Uuid)
  deriving DecidableEq

/-- `ledger_entries`. -/
structure LedgerEntry where
  id : Uuid
  accountId : Uuid
  source : EntrySource
  amountMinor : ℤ
  currency : LedgerCurrency
  runningBalanceMinor : ℤ
  description : String
  reversalOfEntryId : Option Uuid
  postedAt : Time
  deriving DecidableEq

/-- `audit_log`; an entity id is the id it prints. -/
structure AuditRow where
  actorId : Option Uuid
  actorRole : Option String
  action : String
  entityType : String
  entityId : Uuid
  before : Option JObj
  after : Option JObj
  deriving DecidableEq

/-- Which way a settlement-wallet trade goes. -/
inductive TradeKind
  | buy
  | convert
  deriving DecidableEq

/-- `settlement_trades`. -/
structure TradeRow where
  id : Uuid
  reference : String
  customerId : Uuid
  idempotencyKey : String
  kind : TradeKind
  usdcAmountMinor : ℤ
  localCurrency : CurrencyCode
  localAmountMinor : ℤ
  rate : Rate
  rateSource : RateSource
  createdBy : Uuid
  createdAt : Time
  deriving DecidableEq

/-- The status of a payment request; `expired` is never stored. -/
inductive CollectionStatus
  | pending
  | paid
  | expired
  | cancelled
  deriving DecidableEq

/-- The columns of `collections`. -/
structure CollectionRow where
  id : Uuid
  reference : String
  customerId : Uuid
  idempotencyKey : String
  amountMinor : ℤ
  currency : CurrencyCode
  payerName : Option String
  note : Option String
  status : CollectionStatus
  provider : String
  providerRef : Option String
  payIn : JObj
  expiresAt : Time
  paidAt : Option Time
  cancelledAt : Option Time
  createdAt : Time
  deriving DecidableEq

/-- `inbound_payments`. -/
structure InboundPayment where
  id : Uuid
  customerId : Uuid
  collectionId : Option Uuid
  provider : String
  providerPaymentId : String
  amountMinor : ℤ
  currency : CurrencyCode
  payerName : Option String
  description : Option String
  receivedAt : Time
  raw : JObj
  deriving DecidableEq

/-- `bridge_virtual_accounts`. -/
structure VirtualAccountRow where
  customerId : Uuid
  virtualAccountId : String
  deriving DecidableEq

/-! ### Row updates -/

/-- The row with a new status. -/
def TransferRow.withStatus (t : TransferRow) (status : TransferStatus) (now : Time) :
    TransferRow :=
  { t with currentStatus := status, updatedAt := now }

/-- The row with the vault's key. -/
def TransferRow.withRef (t : TransferRow) (ref : B256) : TransferRow :=
  { t with settlementRef := some ref }

/-- The row, claimed for a transfer. -/
def QuoteRow.consumedBy (q : QuoteRow) (transferId : Uuid) : QuoteRow :=
  { q with consumedByTransferId := some transferId }

/-- The row, marked paid. -/
def CollectionRow.asPaid (c : CollectionRow) (now : Time) : CollectionRow :=
  { c with status := .paid, paidAt := some now }

/-- The row, cancelled. -/
def CollectionRow.asCancelled (c : CollectionRow) (now : Time) : CollectionRow :=
  { c with status := .cancelled, cancelledAt := some now }

/-! ### The chain -/

/-- The vault's events, with the fields the listener keeps. -/
inductive VaultEvent
  | quoteLocked (ref : B256) (quoteId : ℕ) (receiveCurrency : String) (rate usdcAmount feeUsdc
      receiveAmountMinor expiresAt : ℕ)
  | quoteCancelled (ref : B256) (quoteId : ℕ)
  | settlementInitiated (ref : B256) (partner : ℕ) (amount : ℕ)
  | settlementReturned (ref : B256) (partner : ℕ) (amount : ℕ)
  | settlementRefunded (ref : B256) (target : ℕ) (amount : ℕ)
  | rateDivergence (ref : B256) (currency : String) (quotedRate referenceRate deviationBps : ℕ)
  | referenceRateStale (ref : B256) (currency : String) (referenceUpdatedAt : ℕ)
  | other
  deriving DecidableEq

/-- A log in a block; `event` is `none` when it does not decode. -/
structure BlockLog where
  address : ℕ
  txHash : B256
  logIndex : ℕ
  event : Option VaultEvent
  deriving DecidableEq

/-- A block; `salt` is whatever else its hash covers. -/
structure Block where
  timestamp : ℕ
  logs : List BlockLog
  salt : ℕ
  deriving DecidableEq

/-- The blocks from the first on. -/
abbrev Chain := List Block

/-- A block's hash, as the chain up to it. -/
abbrev BlockHash := List Block

/-- A log as the node returns it. -/
structure RpcLog where
  transactionHash : Option B256
  logIndex : Option ℕ
  blockNumber : Option ℕ
  blockHash : Option BlockHash
  event : Option VaultEvent
  deriving DecidableEq

namespace Chain

/-- The hash of block `n`. -/
def hash (c : Chain) (n : ℕ) : Option BlockHash :=
  if n < c.length then some (c.take (n + 1)) else none

/-- The number of the newest block. -/
def head (c : Chain) : ℕ := c.length - 1

/-- The logs of block `n` that pass the listener's filter: emitted by the contract at `address`
under one of the signatures it asks for. -/
def logsOf (chain : Chain) (address n : ℕ) : List RpcLog :=
  match chain[n]? with
  | none => []
  | some b => (b.logs.filter (fun l => l.address = address && l.event ≠ some .other)).map fun l =>
      ⟨some l.txHash, some l.logIndex, some n, some (chain.take (n + 1)), l.event⟩

/-- The answer to `eth_getLogs` for blocks `start` to `stop`. -/
def getLogs (c : Chain) (address start stop : ℕ) : List RpcLog :=
  (List.range' start (stop + 1 - start)).flatMap (c.logsOf address)

end Chain

/-- `settlement_events`. -/
structure SettlementEvent where
  vault : ℕ
  txHash : B256
  logIndex : ℕ
  blockNumber : ℕ
  blockHash : BlockHash
  event : String
  settlementRef : B256
  transferId : Uuid
  payload : JObj
  deriving DecidableEq

/-- `settlement_cursor`. -/
structure CursorRow where
  vault : ℕ
  lastBlock : ℕ
  lastBlockHash : BlockHash
  deriving DecidableEq

/-! ### The world -/

/-- The committed database, the clock and the chain.  `scan` is the order in which the database
comes upon the rows of the ledger, which decides where a query leaves the order open. -/
structure World where
  clock : Time := 0
  nextId : ℕ := 0
  scan : Uuid → ℕ := fun _ => 0
  customers : List CustomerRow := []
  recipients : List RecipientRow := []
  quotes : List QuoteRow := []
  transfers : List TransferRow := []
  history : List HistoryRow := []
  accounts : List AccountRow := []
  ledger : List LedgerEntry := []
  audit : List AuditRow := []
  trades : List TradeRow := []
  collections : List CollectionRow := []
  inbound : List InboundPayment := []
  virtualAccounts : List VirtualAccountRow := []
  events : List SettlementEvent := []
  cursors : List CursorRow := []
  chain : Chain := []

namespace World

variable (d : World)

/-- The transfer with an id. -/
def transfer (id : Uuid) : Option TransferRow := d.transfers.find? fun t => t.id = id

/-- The rows with a transfer's id: one, as ids are unique. -/
def transferRows (id : Uuid) : List TransferRow := d.transfers.filter fun t => t.id = id

/-- The status of a transfer. -/
def status (id : Uuid) : Option TransferStatus := (d.transfer id).map (·.currentStatus)

/-- The history rows of a transfer. -/
def historyOf (id : Uuid) : List HistoryRow := d.history.filter fun h => h.transferId = id

/-- The payload of the last history row of a transfer. -/
def latestPayload (id : Uuid) : Option JObj :=
  (topBy (·.position) (d.historyOf id)).bind (·.payload)

/-- `coalesce(max(position), -1) + 1`. -/
def nextPosition (id : Uuid) : ℕ := (d.historyOf id).foldl (fun m h => max m (h.position + 1)) 0

/-- The account of a customer in a currency. -/
def accountOf (customerId : Uuid) (currency : LedgerCurrency) : Option Uuid :=
  (d.accounts.find? fun a => a.customerId = customerId && a.currency = currency).map (·.id)

/-- The entries of an account. -/
def entriesOf (accountId : Uuid) : List LedgerEntry :=
  d.ledger.filter fun e => e.accountId = accountId

/-- `coalesce(sum(amount_minor), 0)` over the entries of an account. -/
def balance (accountId : Uuid) : ℤ := ((d.entriesOf accountId).map (·.amountMinor)).sum

/-- The entries of a transfer. -/
def entriesOfTransfer (id : Uuid) : List LedgerEntry :=
  d.ledger.filter fun e => e.source = .transfer id

/-- The quote with an id. -/
def quote (id : Uuid) : Option QuoteRow := d.quotes.find? fun q => q.id = id

/-- The transfer a customer made with an idempotency key. -/
def transferByKey (customerId : Uuid) (key : String) : Option TransferRow :=
  d.transfers.find? fun t => t.customerId = customerId && t.idempotencyKey = key

/-- The trade a customer made with an idempotency key. -/
def tradeByKey (customerId : Uuid) (key : String) : Option TradeRow :=
  d.trades.find? fun t => t.customerId = customerId && t.idempotencyKey = key

/-- The payment request with an id. -/
def collection (id : Uuid) : Option CollectionRow := d.collections.find? fun c => c.id = id

/-- The payment that settled a request. -/
def paymentFor (collectionId : Uuid) : Option InboundPayment :=
  d.inbound.find? fun p => p.collectionId = some collectionId

/-- The payment a partner knows by an id. -/
def paymentByKey (provider providerPaymentId : String) : Option InboundPayment :=
  d.inbound.find? fun p => p.provider = provider && p.providerPaymentId = providerPaymentId

/-- The recorded event of a log. -/
def eventByKey (txHash : B256) (logIndex : ℕ) : Option SettlementEvent :=
  d.events.find? fun e => e.txHash = txHash && e.logIndex = logIndex

/-- The cursor of a vault. -/
def cursor (vault : ℕ) : Option (ℕ × BlockHash) :=
  (d.cursors.find? fun c => c.vault = vault).map fun c => (c.lastBlock, c.lastBlockHash)

end World

end Kimana
