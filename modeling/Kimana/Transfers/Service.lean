import Kimana.Quote
import Kimana.Transfers.Engine

/-!
# Creating a transfer

`createTransfer` and the checks it makes: the idempotency key is looked up before anything else
and again under the customer's row lock, both times on a connection of its own.
-/

namespace Kimana

/-- A transfer as read back: its row, and when and with what payload it entered its status. -/
structure Transfer where
  row : TransferRow
  enteredAt : Time
  payload : Option JObj
  deriving DecidableEq

namespace Repo

open ReadCommitted Table

/-- Join a transfer's row to its last history row. -/
def joined (d : World) (t : TransferRow) : Transfer :=
  let h := topBy (·.position) (d.historyOf t.id)
  ⟨t, (h.map (·.enteredAt)).getD t.createdAt, h.bind (·.payload)⟩

/-- The transfer with an id. -/
def findById (id : Uuid) : Tx (Option Transfer) := do
  let d ← Tx.query
  return (d.transfer id).map (joined d)

/-- The transfer a customer made with an idempotency key. -/
def findByIdempotencyKey (customerId : Uuid) (key : String) : Tx (Option Transfer) := do
  let d ← Tx.query
  return (d.transferByKey customerId key).map (joined d)

/-- The columns a caller gives for a new transfer. -/
structure InsertTransfer where
  reference : String
  customerId : Uuid
  idempotencyKey : String
  recipientId : Uuid
  sendCurrency : CurrencyCode
  receiveCurrency : CurrencyCode
  sendAmountMinor : ℤ
  receiveAmountMinor : ℤ
  tradeDescription : Option String
  quoteSnapshot : FirmQuote
  initialStatus : TransferStatus

/-- The row as inserted. -/
def InsertTransfer.row (input : InsertTransfer) (id : Uuid) (now : Time) : TransferRow :=
  { id
    reference := input.reference
    customerId := input.customerId
    idempotencyKey := input.idempotencyKey
    recipientId := input.recipientId
    sendCurrency := input.sendCurrency
    receiveCurrency := input.receiveCurrency
    sendAmountMinor := input.sendAmountMinor
    receiveAmountMinor := input.receiveAmountMinor
    tradeDescription := input.tradeDescription
    quoteSnapshot := input.quoteSnapshot
    currentStatus := input.initialStatus
    createdAt := now
    updatedAt := now
    settlementRef := none }

/-- Insert a transfer; `none` on a unique violation.  The new row is locked until commit. -/
def insert (conn : Conn) (input : InsertTransfer) : Tx (Option Uuid) := do
  let id ← Tx.fresh
  Tx.lock (.transfer id)
  Tx.lock (.transferReference input.reference)
  Tx.lock (.transferKey input.customerId input.idempotencyKey)
  let d ← Tx.read
  if d.transfers.any (fun t => t.reference = input.reference) ||
      (d.transferByKey input.customerId input.idempotencyKey).isSome then return none
  else do
    Tx.write (.insertTransfer (input.row id conn.now))
    return some id

end Repo

namespace Service

open ReadCommitted Util Ledger

/-- What a caller sends to create a transfer. -/
structure CreateTransferInput where
  idempotencyKey : String
  quoteId : Uuid
  recipientId : Uuid

/-- Reject a transfer that would breach the per-transfer or the aggregate ceiling.  The
platform-wide exposure, which is only logged, is left out. -/
def checkExposureLimits (state : AppState) (customerId : Uuid) (limits : CustomerLimits)
    (quote : FirmQuote) : Tx Unit := do
  let amountMinor := quote.breakdown.sendAmount.amountMinor
  let currency := quote.sendCurrency
  let maxTransfer := limits.maxTransferAmountMinor.getD state.maxTransferAmountMinor
  let maxAggregate := limits.maxAggregateExposureMinor.getD state.maxAggregateExposureMinor
  if maxTransfer < amountMinor then
    Prog.fail (.validation ("This transfer exceeds the maximum allowed amount of " ++
      toString maxTransfer ++ " " ++ currency.asStr ++ "."))
  else do
  let existing ← customerOpenExposureMinor customerId currency
  if maxAggregate < asI64 (existing + amountMinor) then
    Prog.fail (.validation ("This transfer would exceed your aggregate exposure limit of " ++
      toString maxAggregate ++ " " ++ currency.asStr ++ "."))
  else return ()

/-- The columns of a new transfer. -/
def newTransfer (session : Session) (input : CreateTransferInput) (recipientId : Uuid)
    (quote : FirmQuote) (body : String) : Repo.InsertTransfer :=
  { reference := taggedReference "KM" body
    customerId := session.customerId
    idempotencyKey := input.idempotencyKey
    recipientId
    sendCurrency := quote.sendCurrency
    receiveCurrency := quote.receiveCurrency
    sendAmountMinor := quote.breakdown.sendAmount.amountMinor
    receiveAmountMinor := quote.breakdown.receiveAmount.amountMinor
    tradeDescription := none
    quoteSnapshot := quote
    initialStatus := .created }

/-- The audit row of a creation. -/
def createdAudit (session : Session) (transferId quoteId recipientId : Uuid) : AuditRow :=
  { actorId := some session.userId
    actorRole := some session.role
    action := "transfer.created"
    entityType := "transfer"
    entityId := transferId
    before := none
    after := some [("status", .str "CREATED"), ("quoteId", .id quoteId),
      ("recipientId", .id recipientId)] }

/-- What a failed claim of the quote answers. -/
def quoteTaken : ApiError :=
  .conflict "This quote has already been accepted by another transfer."

/-- The inserts of the creation, once the customer is locked and the limits hold: the new
transfer's id, or the answer of a transfer that got there first. -/
def insertTransfer (state : AppState) (conn : Conn) (session : Session)
    (input : CreateTransferInput) (quote : Quote.StoredQuote) (recipientId : Uuid)
    (body : String) : Tx (Except Transfer Uuid) := do
  match ← Repo.insert conn (newTransfer session input recipientId quote.firmQuote body) with
  | none => do
    Tx.rollback
    match ← Repo.findByIdempotencyKey session.customerId input.idempotencyKey with
    | some raced => return .error raced
    | none => Prog.fail <|
      (ApiError.conflict "Could not create the transfer. Try again.").withRetryable true
  | some transferId =>
    if ← Quote.tryConsume quote.id transferId then do
      Repo.setSettlementRef state transferId
      Repo.appendHistory transferId .created none none
      Tx.write (.insertAudit (createdAudit session transferId quote.id recipientId))
      Tx.commit
      return .ok transferId
    else do
      Tx.rollback
      Prog.fail quoteTaken

/-- Create a transfer from a firm quote and drive it to `AWAITING_FUNDS`.  The simulated
progression it also schedules is a call of its own (`Engine.advanceToCompletion`). -/
@[irreducible] def createTransfer (state : AppState) (session : Session)
    (input : CreateTransferInput) (body : String) (bodies : ℕ → String) : Tx Transfer := do
  if byteLen (trim input.idempotencyKey) < 8 then
    Prog.fail (.validation "Provide a stable idempotency key.")
  else do
  match ← Repo.findByIdempotencyKey session.customerId input.idempotencyKey with
  | some existing => return existing
  | none => do
  match (← Quote.findById input.quoteId).filter fun q => q.customerId = session.customerId with
  | none => Prog.fail (.notFound "That quote couldn't be found.")
  | some quote => do
  if quote.expiresAt ≤ (← Tx.query).clock then
    Prog.fail (.rateExpired "That quote has expired. Request a fresh one.")
  else do
  match (← Tx.query).recipients.find? fun r =>
      r.id = input.recipientId && r.customerId = session.customerId with
  | none => Prog.fail (.notFound "That recipient couldn't be found.")
  | some recipient => do
  let conn ← begin
  let limits ← lockCustomerLimits session.customerId
  -- A concurrent create with the same key may have committed while this one waited.
  match ← Repo.findByIdempotencyKey session.customerId input.idempotencyKey with
  | some existing => do
    Tx.rollback
    return existing
  | none => do
  checkExposureLimits state session.customerId limits quote.firmQuote
  match ← insertTransfer state conn session input quote recipient.id body with
  | .error raced => return raced
  | .ok transferId => do
    let _ ← Engine.advanceToAwaitingFunds state transferId bodies
    match ← Repo.findById transferId with
    | some transfer => return transfer
    | none => Prog.fail .serverError

end Service

end Kimana
