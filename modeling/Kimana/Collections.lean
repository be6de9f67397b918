import Kimana.AppState
import Kimana.Ledger
import Kimana.Util
import Kimana.Util.Decimal

/-!
# Collections

Money a partner confirms is credited in one transaction: the payment row, keyed by the partner's
id so that a redelivery changes nothing, the ledger credit, and the request it settles.

What a webhook delivery brings (the signature check, the decoded event, the partner's answer) is
an argument of the operation.
-/

namespace Kimana.Collections

open ReadCommitted Util Ledger

/-- The provider of NGN collections. -/
def yellowcardName : String := "yellowcard"

/-- The provider of USD collections. -/
def bridgeName : String := "bridge"

/-- What a failed call to a partner answers. -/
def partnerError : ApiError :=
  .new .partnerFailure "Our payment partner is unavailable. Try again in a moment."

/-- A request as selected: a pending one past its expiry reads as expired, and the payment that
settled it is joined. -/
structure Selected where
  row : CollectionRow
  status : CollectionStatus
  payment : Option InboundPayment
  deriving DecidableEq

/-- The stored status, or `expired`. -/
def derivedStatus (c : CollectionRow) (now : Time) : CollectionStatus :=
  if c.status = .pending && c.expiresAt ≤ now then .expired else c.status

/-- The request with an id among stored rows and payments, as selected at a time. -/
def selectById (collections : List CollectionRow) (inbound : List InboundPayment) (now : Time)
    (id : Uuid) : Option Selected :=
  (collections.find? fun c => c.id = id).map fun c =>
    ⟨c, derivedStatus c now, inbound.find? fun p => p.collectionId = some id⟩

theorem selectById_world (d : World) (now : Time) (id : Uuid) :
    selectById d.collections d.inbound now id =
      (d.collection id).map fun c => ⟨c, derivedStatus c now, d.paymentFor id⟩ := rfl

/-- A request by id, as a transaction that began at `conn.now` sees it. -/
def findById (conn : Conn) (id : Uuid) : Tx (Option Selected) := do
  let d ← Tx.read
  return selectById d.collections d.inbound conn.now id

/-- Another customer's request, or none. -/
def notFound : ApiError := .notFound "Payment request not found."

/-- The session customer's request, its row locked.  (Another customer's row is not locked by the
code; the model waits for it and answers the same.) -/
def ownedRow (conn : Conn) (session : Session) (id : Uuid) : Tx Selected := do
  Prog.lock (.collection id) fun _ _ => do
    match (← findById conn id).filter fun s => s.row.customerId = session.customerId with
    | some s => return s
    | none => Prog.fail notFound

/-- The audit row of a cancellation. -/
def cancelAudit (session : Session) (id : Uuid) : AuditRow :=
  { actorId := some session.userId
    actorRole := some session.role
    action := "collection.cancel"
    entityType := "collection"
    entityId := id
    before := some [("status", .str "PENDING")]
    after := some [("status", .str "CANCELLED")] }

/-- Close the partner side of a request; `answer` is what Yellow Card replies. -/
def closePartner (state : AppState) (s : Selected) (answer : Except ApiError Unit) : Tx Unit :=
  if s.row.provider = yellowcardName then
    if state.yellowcard && s.row.providerRef.isSome then
      match answer with
      | .ok () => return ()
      | .error e => Prog.fail e
    else Prog.fail partnerError
  else return ()

/-- Cancel a request that is still open; the partner side is closed first, under the row lock. -/
def cancelCollection (state : AppState) (session : Session) (id : Uuid)
    (answer : Except ApiError Unit) : Tx Selected := do
  let conn ← begin
  let s ← ownedRow conn session id
  match s.status with
  | .pending => do
    closePartner state s answer
    Tx.write (.cancelCollection id conn.now)
    Tx.write (.insertAudit (cancelAudit session id))
    match ← findById conn id with
    | some s => do
      Tx.commit
      return s
    | none => Prog.fail .serverError
  | .cancelled => do
    -- Cancelling twice is a no-op.
    Tx.rollback
    return s
  | .paid => Prog.fail (.conflict "This payment request has already been paid.")
  | .expired => Prog.fail (.conflict "This payment request has expired.")

/-! ### Inbound money -/

/-- One payment a partner confirmed. -/
structure Inbound where
  customerId : Uuid
  /-- The request this payment is for, if any. -/
  collectionId : Option Uuid
  /-- Mark the request paid even when it is no longer open. -/
  settlesClosed : Bool
  provider : String
  providerPaymentId : String
  amountMinor : ℤ
  currency : CurrencyCode
  payerName : Option String
  description : Option String
  receivedAt : Time
  raw : JObj

/-- The payment row. -/
def Inbound.row (p : Inbound) (id : Uuid) (settles : Option Uuid) : InboundPayment :=
  { id
    customerId := p.customerId
    collectionId := settles
    provider := p.provider
    providerPaymentId := p.providerPaymentId
    amountMinor := p.amountMinor
    currency := p.currency
    payerName := p.payerName
    description := p.description
    receivedAt := p.receivedAt
    raw := p.raw }

/-- A payment settles a request of the same customer that no payment has settled and that is open
or may be settled when closed. -/
def Inbound.settles (p : Inbound) (s : Selected) : Bool :=
  s.row.customerId = p.customerId && s.payment.isNone && (s.status = .pending || p.settlesClosed)

/-- Lock the request, so that two payments quoting it follow one another, and tell whether this
one settles it. -/
def settled (conn : Conn) (p : Inbound) : Tx (Option CollectionRow) :=
  match p.collectionId with
  | none => return none
  | some id => do
    Tx.lock (.collection id)
    return ((← findById conn id).filter p.settles).map (·.row)

/-- A text of the payment or of the partner's record has a zero character. -/
def Inbound.hasNul (p : Inbound) : Bool :=
  Kimana.hasNul p.providerPaymentId || p.payerName.any Kimana.hasNul ||
    p.description.any Kimana.hasNul || p.raw.hasNul

/-- Insert a payment; `none` when the partner's id was seen before.  The table checks that the
amount is positive, and takes no zero character. -/
def insertInbound (p : Inbound) (settles : Option Uuid) : Tx (Option Uuid) := do
  if p.amountMinor ≤ 0 || p.hasNul then Prog.fail .serverError else do
  Tx.lock (.paymentKey p.provider p.providerPaymentId)
  if ((← Tx.read).paymentByKey p.provider p.providerPaymentId).isSome then return none
  else do
    let id ← Tx.fresh
    Tx.write (.insertInbound (p.row id settles))
    return some id

/-- The audit row of a payment. -/
def paymentAudit (p : Inbound) (paymentId : Uuid) (settles : Option CollectionRow)
    (balance : ℤ) : AuditRow :=
  { actorId := none
    actorRole := none
    action := "collection.payment_received"
    entityType := "inbound_payment"
    entityId := paymentId
    before := none
    after := some [("provider", .str p.provider), ("providerPaymentId", .str p.providerPaymentId),
      ("amountMinor", .num p.amountMinor), ("currency", .str p.currency.asStr),
      ("collectionId", match settles with | some c => .id c.id | none => .null),
      ("reference", match settles with | some c => .str c.reference | none => .null),
      ("balanceMinor", .num balance)] }

/-- Mark the settled request paid. -/
def markPaid (conn : Conn) (settles : Option CollectionRow) : Tx Unit :=
  match settles with
  | some row => Tx.write (.payCollection row.id conn.now)
  | none => return ()

/-- Record a payment, credit the customer and mark the request it settles paid: one transaction.
`false` for a payment already applied. -/
def applyInbound (p : Inbound) : Tx Bool := do
  let conn ← begin
  let settles ← settled conn p
  match ← insertInbound p (settles.map (·.id)) with
  | none => do
    Tx.rollback
    return false
  | some paymentId => do
    let account ← getOrCreateAccount p.customerId p.currency
    let (_, balance) ← postInboundEntry conn
      ⟨account, paymentId, p.amountMinor, p.currency, "Payment received"⟩
    markPaid conn settles
    Tx.write (.insertAudit (paymentAudit p paymentId settles balance))
    Tx.commit
    return true

/-- Response to a partner webhook. -/
structure WebhookAck where
  /-- The event moved money, now or on an earlier delivery. -/
  applied : Bool
  /-- This delivery repeated one already applied. -/
  duplicate : Bool
  deriving DecidableEq

/-- An event that moves no money. -/
def ignored : WebhookAck := ⟨false, false⟩

/-- A webhook that is not configured. -/
def routeNotFound : ApiError := .notFound "That endpoint doesn't exist."

/-- A body that does not decode. -/
def malformed : ApiError := .validation "Malformed JSON payload or invalid field format."

/-- Upper case of the ASCII letters. -/
def toAsciiUppercase (s : List Char) : List Char := s.map (·.toUpper)

/-! #### Yellow Card -/

/-- A Yellow Card event. -/
structure YellowCardEvent where
  id : String
  event : Option String

/-- A Yellow Card receive; the local amount is in minor units, if it is a positive one. -/
structure Receive where
  id : String
  status : String
  currency : Option String
  convertedMinor : Option ℤ
  accountName : Option String
  updatedAt : Option Time

/-- Receive and legacy collection events. -/
def isReceiveEvent (event : String) : Bool :=
  let e := toAsciiUppercase event.toList
  "RECEIVE.".toList.isPrefixOf e || "COLLECTION.".toList.isPrefixOf e

/-- A Yellow Card delivery: whether its signature is right, the event, and Yellow Card's answer
when the receive is fetched. -/
structure YellowCardDelivery where
  signed : Bool
  event : Option YellowCardEvent
  fetched : Except ApiError (Receive × JObj)

/-- A Yellow Card webhook.  The event is only a trigger; the receive itself is the record. -/
def receiveYellowcard (state : AppState) (w : YellowCardDelivery) : Tx WebhookAck := do
  if !state.yellowcard then Prog.fail routeNotFound else do
  if !w.signed then Prog.fail (.unauthorized "Invalid webhook signature.") else do
  match w.event with
  | none => Prog.fail malformed
  | some event => do
  if !(event.event.map isReceiveEvent).getD false then return ignored else do
  match w.fetched with
  | .error e => Prog.fail e
  | .ok (receive, raw) => do
  if receive.status ≠ "complete" then return ignored else do
  -- A bound text with a zero character is an error of the statement.
  if hasNul receive.id then Prog.fail .serverError else do
  match (← Tx.query).collections.find? fun c =>
      c.provider = yellowcardName && c.providerRef = some receive.id with
  | none => Prog.fail (.notFound "No payment request matches that receive.")
  | some c => do
  if (receive.currency.map fun s => s != "NGN").getD false then Prog.fail partnerError else do
  match receive.convertedMinor with
  | none => Prog.fail partnerError
  | some amountMinor => do
  let now := (← Tx.query).clock
  let applied ← applyInbound
    { customerId := c.customerId
      collectionId := some c.id
      settlesClosed := true
      provider := yellowcardName
      providerPaymentId := receive.id
      amountMinor
      currency := .ngn
      payerName := receive.accountName
      description := none
      receivedAt := receive.updatedAt.getD now
      raw }
  return ⟨true, !applied⟩

/-! #### Bridge -/

/-- A non-negative decimal text in cents, digits past the second dropped. -/
def dollarsToCents (value : String) : Option ℤ :=
  let text := (trim value).toList
  let whole := text.takeWhile (· ≠ '.')
  let frac := (text.dropWhile (· ≠ '.')).drop 1
  if whole = [] && frac = [] then none
  else if !whole.all Char.isDigit || !frac.all Char.isDigit then none
  else do
    let w ← if whole = [] then some 0 else Decimal.parse (2 ^ 63) whole
    let c ← Decimal.parse (2 ^ 63) ((frac ++ ['0', '0']).take 2)
    if w * 100 + c < 2 ^ 63 then some ↑(w * 100 + c) else none

/-- A character of a reference's random part. -/
def isReferenceChar (c : Char) : Bool := ('A' ≤ c && c ≤ 'Z') || c.isDigit

/-- The six characters of a reference at the start of a text: `CL`, an optional hyphen, the
characters, and no word character after them. -/
def referenceAt (isWord : Char → Bool) (text : List Char) : Option (List Char) :=
  match text with
  | 'C' :: 'L' :: rest =>
    let rest := match rest with
      | '-' :: r => r
      | r => r
    let body := rest.take 6
    if body.length = 6 && body.all isReferenceChar && ((rest.drop 6).head?.map isWord) ≠ some true
    then some body else none
  | _ => none

/-- Look for a reference at every place that no word character precedes. -/
def scanReference (isWord : Char → Bool) : Bool → List Char → Option (List Char)
  | _, [] => none
  | inWord, c :: text =>
    match if inWord then none else referenceAt isWord (c :: text) with
    | some body => some body
    | none => scanReference isWord (isWord c) text

/-- The first request reference in free text; banks often drop the hyphen. -/
def findReference (isWord : Char → Bool) (text : String) : Option String :=
  (scanReference isWord false (toAsciiUppercase text.toList)).map fun body => "CL-" ++ .ofList body

/-- A `virtual_account.activity` event object. -/
structure Activity where
  id : String
  kind : String
  virtualAccountId : String
  amount : String
  depositId : Option String
  createdAt : Option Time
  senderName : Option String
  description : Option String

/-- The verdict on a delivery's signature. -/
inductive WebhookCheck
  | valid
  | invalid
  | stale
  deriving DecidableEq

/-- A Bridge event: its category, its object if that decodes as an activity, and the body. -/
structure BridgeEvent where
  category : String
  activity : Option Activity
  raw : JObj

/-- A Bridge delivery. -/
structure BridgeDelivery where
  check : WebhookCheck
  event : Option BridgeEvent

/-- The request of a customer that a memo quotes. -/
def quotedRequest (state : AppState) (customerId : Uuid) (description : Option String) :
    Tx (Option Uuid) :=
  match description.bind (findReference state.isWord) with
  | none => return none
  | some reference => do
    return ((← Tx.query).collections.find? fun c => c.reference = reference &&
      c.customerId = customerId && c.provider = bridgeName).map (·.id)

/-- A Bridge webhook: every processed deposit is credited. -/
def receiveBridge (state : AppState) (w : BridgeDelivery) : Tx WebhookAck := do
  if !state.bridgeWebhookKey then Prog.fail routeNotFound else do
  match w.check with
  | .invalid => Prog.fail (.unauthorized "Invalid webhook signature.")
  | .stale => Prog.fail (.validation "Webhook delivery is too old.")
  | .valid => do
  match w.event with
  | none => Prog.fail malformed
  | some event => do
  if event.category ≠ "virtual_account.activity" then return ignored else do
  match event.activity with
  | none => Prog.fail malformed
  | some activity => do
  if activity.kind ≠ "payment_processed" then return ignored else do
  if hasNul activity.virtualAccountId then Prog.fail .serverError else do
  match (← Tx.query).virtualAccounts.find? fun v =>
      v.virtualAccountId = activity.virtualAccountId with
  | none => Prog.fail (.notFound "Unknown virtual account.")
  | some v => do
  match (dollarsToCents activity.amount).filter fun cents => 0 < cents with
  | none => Prog.fail (.validation "Deposit amount is not a positive dollar amount.")
  | some amountMinor => do
  let collectionId ← quotedRequest state v.customerId activity.description
  let now := (← Tx.query).clock
  let applied ← applyInbound
    { customerId := v.customerId
      collectionId
      settlesClosed := false
      provider := bridgeName
      -- One deposit produces several activity events; its deposit id is stable.
      providerPaymentId := activity.depositId.getD activity.id
      amountMinor
      currency := .usd
      payerName := activity.senderName
      description := activity.description
      receivedAt := activity.createdAt.getD now
      raw := event.raw }
  return ⟨true, !applied⟩

end Kimana.Collections
