import Kimana.Collections
import Kimana.ReadCommitted.Prog

/-!
# Opening a payment request

`createCollection` opens a receive with Yellow Card, which happens at once and outside any
transaction, and then stores the request that records it.  The tables it works on stand here
together with what Yellow Card has been asked.

What Yellow Card answers, the random part of the reference and the parser of timestamps are
arguments of the operation.
-/

namespace Kimana.Opening

open ReadCommitted Table Util Collections

/-! ### State -/

/-- The columns of `customers` and `users` that a receive is opened with. -/
structure ContactRow where
  customerId : Uuid
  legalName : String
  email : Option String
  deriving DecidableEq

/-- Where to wire money. -/
structure DepositInstructions where
  paymentRails : List String
  bankName : Option String
  bankAddress : Option String
  bankBeneficiaryName : Option String
  bankBeneficiaryAddress : Option String
  bankAccountNumber : Option String
  bankRoutingNumber : Option String
  deriving DecidableEq

/-- What a receive is opened with. -/
structure NewReceive where
  sequenceId : Uuid
  amountMinor : ℤ
  reason : String
  businessName : String
  email : Option String
  deriving DecidableEq

/-- The tables, and the receives Yellow Card has opened and those it was asked to cancel. -/
structure Desk where
  nextId : ℕ := 0
  clock : Time := 0
  contacts : List ContactRow := []
  bridgeAccounts : List (Uuid × DepositInstructions) := []
  collections : List CollectionRow := []
  inbound : List InboundPayment := []
  audit : List AuditRow := []
  opened : List (String × NewReceive) := []
  cancelled : List String := []

/-- The statements that change the tables. -/
inductive Write
  | insertCollection (row : CollectionRow)
  | insertAudit (row : AuditRow)
  deriving DecidableEq

/-- Carry out one statement. -/
def Write.apply : Write → Desk → Desk
  | insertCollection row, d => { d with collections := d.collections ++ [row] }
  | insertAudit row, d => { d with audit := d.audit ++ [row] }

instance : Store Desk Write where
  apply := Write.apply
  seq d := d.nextId
  bump d := { d with nextId := d.nextId + 1 }
  seq_apply w d := by cases w <;> rfl
  seq_bump _ := rfl

/-- Yellow Card opens a receive. -/
def Desk.submitted (receive : String) (new : NewReceive) (d : Desk) : Desk :=
  { d with opened := d.opened ++ [(receive, new)] }

/-- Yellow Card is asked to cancel a receive. -/
def Desk.withCancelled (receive : String) (d : Desk) : Desk :=
  { d with cancelled := d.cancelled ++ [receive] }

/-- The unique keys an insert waits for. -/
inductive Key
  | requestKey (customerId : Uuid) (key : String)
  | reference (reference : String)
  | providerRef (provider providerRef : String)
  deriving DecidableEq

/-- Where a call stands, as far as statements about runs need it. -/
inductive Label
  | idle
  /-- Yellow Card has opened a receive for the call. -/
  | opened (receive : String)
  /-- The call is to store a row, whose key it has locked. -/
  | keyed (row : CollectionRow)
  /-- The key was free. -/
  | inserting (row : CollectionRow)
  deriving DecidableEq

instance : Inhabited Label := ⟨.idle⟩

/-- The receive a call has in hand. -/
def Label.receive : Label → Option String
  | idle => none
  | opened receive => some receive
  | keyed row => row.providerRef
  | inserting row => row.providerRef

/-- Programs over these tables. -/
abbrev Tx := Prog Desk Write Key Label ApiError

/-! ### Reads -/

/-- A row as selected at a time. -/
def selected (d : Desk) (now : Time) (c : CollectionRow) : Selected :=
  ⟨c, derivedStatus c now, d.inbound.find? fun p => p.collectionId = some c.id⟩

/-- A customer's request under a key. -/
def Desk.byKey (d : Desk) (customerId : Uuid) (key : String) : Option CollectionRow :=
  d.collections.find? fun c => c.customerId = customerId && c.idempotencyKey = key

/-- A customer's request under a key, a statement of its own. -/
def findByKey (customerId : Uuid) (key : String) : Tx (Option Selected) := do
  -- A bound text with a zero character is an error of the statement.
  if hasNul key then Prog.fail .serverError else do
  let d ← Tx.query
  return (d.byKey customerId key).map (selected d d.clock)

/-- A request by id, as a transaction that began at `now` sees it. -/
def findById (now : Time) (id : Uuid) : Tx (Option Selected) := do
  let d : Desk ← Tx.read
  return selectById d.collections d.inbound now id

/-! ### Input -/

def defaultTtlDays : ℕ := 7
def maxTtlDays : ℕ := 90
def maxPayerNameChars : ℕ := 140
def maxNoteChars : ℕ := 280

/-- So many days in seconds. -/
def days (n : ℕ) : Time := n * 86400

/-- What a customer asks for. -/
structure CreateInput where
  idempotencyKey : String
  amount : Money
  payerName : Option String
  note : Option String
  expiresAt : Option String

/-- An optional free-text field, trimmed, and dropped when blank. -/
def optionalText (value : Option String) (field : String) (maxChars : ℕ) :
    Except ApiError (Option String) :=
  match (value.map trim).filter fun v => !v.isEmpty with
  | none => .ok none
  | some v =>
    if maxChars < v.toList.length then
      .error (.validation (field ++ " must be at most " ++ toString maxChars ++ " characters."))
    else .ok (some v)

/-- A timestamp, surrounding blanks ignored. -/
def parseTime (rfc3339 : String → Option Time) (raw : Option String) : Option Time :=
  raw.bind fun s => rfc3339 (trim s)

/-- When a request asks to expire. -/
def expiry (rfc3339 : String → Option Time) (raw : Option String) (now : Time) :
    Except ApiError Time :=
  let asked : Except ApiError Time := match raw.map trim with
    | none | some "" => .ok (now + days defaultTtlDays)
    | some s => match parseTime rfc3339 (some s) with
      | some t => .ok t
      | none => .error (.validation "expiresAt must be an ISO-8601 timestamp.")
  match asked with
  | .error e => .error e
  | .ok t =>
    if t ≤ now then .error (.validation "Choose an expiry in the future.")
    else if now + days maxTtlDays < t then .error (.validation
      ("A payment request can stay open for at most " ++ toString maxTtlDays ++ " days."))
    else .ok t

/-! ### Partners -/

/-- The bank account of a receive. -/
structure BankInfo where
  name : Option String
  accountNumber : Option String
  accountName : Option String
  paymentLink : Option String

/-- What Yellow Card answers to a new receive. -/
structure OpenedReceive where
  id : String
  expiresAt : Option String
  bankInfo : Option BankInfo

/-- The partner side of a request. -/
structure Opened where
  provider : String
  providerRef : Option String
  payIn : JObj
  expiresAt : Time

/-- A field that is left out when it is not there. -/
def optionalField (key : String) (value : Option String) : JObj :=
  (value.map fun v => (key, JVal.str v)).toList

/-- How a payer pays into a receive. -/
def ngPayIn (bank : BankInfo) (reference : String) : JObj :=
  ("method", .str "NG_BANK_TRANSFER") :: optionalField "bankName" bank.name ++
    optionalField "accountName" bank.accountName ++
    optionalField "accountNumber" bank.accountNumber ++
    optionalField "paymentLink" bank.paymentLink ++ [("memo", .str reference)]

/-- How a payer pays into a virtual account. -/
def usPayIn (instructions : DepositInstructions) (reference : String) : JObj :=
  ("method", .str "US_BANK_TRANSFER") :: optionalField "bankName" instructions.bankName ++
    optionalField "bankAddress" instructions.bankAddress ++
    optionalField "accountName" instructions.bankBeneficiaryName ++
    optionalField "accountNumber" instructions.bankAccountNumber ++
    optionalField "routingNumber" instructions.bankRoutingNumber ++
    optionalField "beneficiaryAddress" instructions.bankBeneficiaryAddress ++
    (if instructions.paymentRails = [] then []
      else [("paymentRails", .strs instructions.paymentRails)]) ++ [("memo", .str reference)]

/-- Ask Yellow Card to cancel a receive; what it answers is not looked at. -/
def cancelReceive (receive : String) : Tx Unit :=
  Prog.atomic (Desk.withCancelled receive) fun _ => .mark (fun _ => .idle) (.ret ())

/-- Open a Yellow Card receive for an NGN request. -/
def openYellowcard (rfc3339 : String → Option Time) (state : AppState) (session : Session)
    (id : Uuid) (reference : String) (amountMinor : ℤ) (note : Option String) (expiresAt : Time)
    (answer : Except ApiError OpenedReceive) : Tx Opened := do
  if !state.yellowcard then Prog.fail (.validation "Receiving NGN isn't available yet.") else do
  match (← Tx.query : Desk).contacts.find? fun c => c.customerId = session.customerId with
  | none => Prog.fail .serverError
  | some contact =>
  match answer with
  | .error e => Prog.fail e
  | .ok receive => do
  Prog.atomic (Desk.submitted receive.id
    { sequenceId := id
      amountMinor
      reason := note.getD ("Payment request " ++ reference)
      businessName := contact.legalName
      email := contact.email }) fun _ => .mark (fun _ => .opened receive.id) (.ret ())
  match receive.bankInfo.filter fun b => b.accountNumber.isSome with
  | none => do
    -- The receive exists but the payer has nowhere to pay.
    cancelReceive receive.id
    Prog.fail partnerError
  | some bank =>
    return {
      provider := yellowcardName
      providerRef := some receive.id
      payIn := ngPayIn bank reference
      -- The account only takes money while the receive is open.
      expiresAt := (parseTime rfc3339 receive.expiresAt).elim expiresAt fun t => min t expiresAt }

/-- The partner side of a request, by its currency. -/
def openPartner (rfc3339 : String → Option Time) (state : AppState) (session : Session) (id : Uuid)
    (reference : String) (amount : Money) (note : Option String) (expiresAt : Time)
    (answer : Except ApiError OpenedReceive) : Tx Opened :=
  match amount.currency with
  | .ngn =>
    openYellowcard rfc3339 state session id reference amount.amountMinor note expiresAt answer
  | .usd => do
    match (← Tx.query : Desk).bridgeAccounts.find? fun a => a.1 = session.customerId with
    | none => Prog.fail (.validation
        "Your USD receiving account isn't set up yet. Contact support to open one.")
    | some (_, instructions) =>
      return ⟨bridgeName, none, usPayIn instructions reference, expiresAt⟩
  | other => Prog.fail (.validation ("Payments can't be collected in " ++ other.asStr ++ " yet."))

/-! ### Storing the request -/

/-- No text of a row has a zero character. -/
def Storable (row : CollectionRow) : Bool :=
  !hasNul row.reference && !hasNul row.idempotencyKey && !row.payerName.any hasNul &&
    !row.note.any hasNul && !row.providerRef.any hasNul && !row.payIn.hasNul

/-- The unique columns of a row, apart from its key, are free. -/
def Desk.unclaimed (d : Desk) (row : CollectionRow) : Bool :=
  d.collections.all fun c => c.reference ≠ row.reference &&
    !(row.providerRef.isSome && c.provider = row.provider && c.providerRef = row.providerRef)

/-- Wait for the receive's unique index, for a row that has one. -/
def lockProviderRef (row : CollectionRow) : Tx Unit :=
  match row.providerRef with
  | some r => Tx.lock (.providerRef row.provider r)
  | none => .ret ()

/-- `insert .. on conflict (customer_id, idempotency_key) do nothing`: whether the row went in.  The
other unique constraints are errors. -/
def insertCollection (row : CollectionRow) : Tx Bool := do
  Prog.lock (.requestKey row.customerId row.idempotencyKey) fun _ _ =>
    .mark (fun _ => .keyed row) (.ret ())
  let d : Desk ← Tx.read
  if !Storable row then Prog.fail .serverError
  else if (d.byKey row.customerId row.idempotencyKey).isSome then return false
  else do
    Tx.mark (fun _ => .inserting row)
    Tx.lock (.reference row.reference)
    lockProviderRef row
    let d : Desk ← Tx.read
    if d.unclaimed row then do
      Tx.write (.insertCollection row)
      return true
    else Prog.fail .serverError

/-- The row of a new request. -/
def newRow (session : Session) (input : CreateInput) (payerName note : Option String) (id : Uuid)
    (reference : String) (opened : Opened) (createdAt : Time) : CollectionRow :=
  { id
    reference
    customerId := session.customerId
    idempotencyKey := input.idempotencyKey
    amountMinor := input.amount.amountMinor
    currency := input.amount.currency
    payerName
    note
    status := .pending
    provider := opened.provider
    providerRef := opened.providerRef
    payIn := opened.payIn
    expiresAt := opened.expiresAt
    paidAt := none
    cancelledAt := none
    createdAt }

/-- The audit row of a new request. -/
def createAudit (session : Session) (row : CollectionRow) : AuditRow :=
  { actorId := some session.userId
    actorRole := some session.role
    action := "collection.create"
    entityType := "collection"
    entityId := row.id
    before := none
    after := some [("reference", .str row.reference), ("amountMinor", .num row.amountMinor),
      ("currency", .str row.currency.asStr), ("provider", .str row.provider),
      ("providerRef", (row.providerRef.map .str).getD .null), ("expiresAt", .time row.expiresAt)] }

/-- Close the receive of a request that was not stored. -/
def closeReceive (state : AppState) (opened : Opened) : Tx Unit :=
  match opened.providerRef with
  | some receive => if state.yellowcard then cancelReceive receive else return ()
  | none => return ()

/-- Store a request whose partner side is open. -/
def storeCollection (state : AppState) (session : Session) (input : CreateInput)
    (payerName note : Option String) (id : Uuid) (reference : String) (opened : Opened) :
    Tx Selected := do
  let now := (← Tx.query : Desk).clock
  let row := newRow session input payerName note id reference opened now
  if ← insertCollection row then do
    match ← findById now id with
    | none => Prog.fail .serverError
    | some s => do
      Tx.write (.insertAudit (createAudit session s.row))
      Prog.commit (.mark (fun _ => .idle) (.ret ()))
      return s
  else do
    -- A concurrent request with the same key committed first; nobody may pay into the receive.
    Tx.rollback
    closeReceive state opened
    match ← findByKey session.customerId input.idempotencyKey with
    | some s => return s
    | none => Prog.fail .serverError

/-- Create a payment request, or return the one stored under the key. -/
@[irreducible] def createCollection (rfc3339 : String → Option Time) (state : AppState)
    (session : Session) (input : CreateInput) (body : String)
    (answer : Except ApiError OpenedReceive) : Tx Selected := do
  if byteLen (trim input.idempotencyKey) < 8 then
    Prog.fail (.validation "Provide a stable idempotency key.")
  else do
  match ← findByKey session.customerId input.idempotencyKey with
  | some existing => return existing
  | none =>
  if input.amount.amountMinor ≤ 0 then Prog.fail (.validation "Enter an amount greater than zero.")
  else
  match optionalText input.payerName "Payer name" maxPayerNameChars,
      optionalText input.note "Note" maxNoteChars with
  | .error e, _ => Prog.fail e
  | _, .error e => Prog.fail e
  | .ok payerName, .ok note => do
  let now := (← Tx.query : Desk).clock
  match expiry rfc3339 input.expiresAt now with
  | .error e => Prog.fail e
  | .ok expiresAt => do
  let id ← Tx.fresh
  let reference := taggedReference "CL" body
  let opened ← openPartner rfc3339 state session id reference input.amount note expiresAt answer
  storeCollection state session input payerName note id reference opened

end Kimana.Opening
