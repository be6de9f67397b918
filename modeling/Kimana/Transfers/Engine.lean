import Kimana.AppState
import Kimana.Ledger
import Kimana.Screening
import Kimana.Transfers.StateMachine

/-!
# Transfer engine

The operations that move a transfer, one database transaction each: a history row, the status,
the ledger posting of the transition and an audit row, all under the transfer's row lock.

Ledger model:

* `FUNDED` : `-sendAmount` on the send-currency account;
* `SETTLED` : `+receiveAmount` on the receive-currency account;
* `COMPLETED` : `-receiveAmount` on the receive-currency account;
* `REVERSING` from `SETTLED` or `PAYING_OUT` : `-receiveAmount`, undoing the conversion;
* `REVERSED` : `+sendAmount` back on the send-currency account.

A negated amount is that of 64-bit numbers (`negI64`), on which the least one is its own negation.

A random part of a reference (`body`) is an argument of the operation that draws it.
-/

namespace Kimana

namespace Repo

open ReadCommitted

/-- Append a history row at the next position.  The unique `(transfer_id, position)` never fires:
every writer of a transfer's history holds its row lock. -/
def appendHistory (transferId : Uuid) (status : TransferStatus) (payload : Option JObj)
    (note : Option String) : Tx Unit := do
  let d ← Tx.read
  Tx.write (.insertHistory ⟨transferId, d.nextPosition transferId, status, d.clock, note, payload⟩)

/-- Update the status column. -/
def setStatus (conn : Conn) (transferId : Uuid) (status : TransferStatus) : Tx Unit :=
  Tx.write (.setStatus transferId status conn.now)

/-- Store the vault key of a just-inserted transfer; the column is unique. -/
def setSettlementRef (state : AppState) (transferId : Uuid) : Tx Unit := do
  let ref := state.transferRef transferId
  Tx.lock (.settlementRef ref)
  let d ← Tx.read
  if d.transfers.any fun t => t.settlementRef = some ref then Prog.fail .serverError
  else Tx.write (.setSettlementRef transferId ref)

end Repo

namespace Engine

open ReadCommitted TransferStatus Util Ledger

/-- The locked row of a transfer, with what the same query joins to it. -/
structure LockedTransfer where
  /-- The columns of the transfer, re-read when the lock was granted. -/
  row : TransferRow
  recipientCountry : String
  /-- The payload of the last history row in the snapshot of the locking statement. -/
  latestPayload : Option JObj

/-- `select .. for update of t`.  The statement's snapshot finds the row and everything joined to
it; only the locked row itself is read again after the wait. -/
def lock (id : Uuid) : Tx LockedTransfer := do
  Tx.mark (·.withLocking (some id))
  Prog.lock (.transfer id) fun snap cur => do
    Tx.mark (·.withLocking none)
    match snap.transfer id, cur.transfer id with
    | some seen, some row =>
      match snap.recipients.find? fun r => r.id = seen.recipientId with
      | some r => return ⟨row, r.country, snap.latestPayload id⟩
      | none => Prog.fail (.notFound "Transfer not found.")
    | _, _ => Prog.fail (.notFound "Transfer not found.")

/-- A payload says that screening held the transfer. -/
def holds (payload : Option JObj) : Bool :=
  match payload with
  | some p => (p.getBool "hold").getD false
  | none => false

/-- The latest payload holds the transfer. -/
def isHeld (t : LockedTransfer) : Bool := holds t.latestPayload

/-- The payload of the history row for `target`. -/
def payloadFor (t : LockedTransfer) (target : TransferStatus) (amountThresholdMinor : ℤ)
    (body : String) : Tx (Option JObj) :=
  match target with
  | .screened => do
    let outcome := Screening.screen
      ⟨t.recipientCountry, t.row.sendAmountMinor, t.row.sendCurrency⟩ amountThresholdMinor
    let payload : JObj := [("hold", .bool outcome.hold)]
    if outcome.hold then do
      let now := (← Tx.query).clock
      return some ((payload.insert "holdReason" (match outcome.holdReason with
        | some reason => .str reason
        | none => .null)).insert "expectedResolutionBy" (.time (now + 48 * 3600)))
    else return some payload
  | .awaitingFunds => return some [("fundingReference", .str (taggedReference "FR" body))]
  | .completed => return some [("payoutReference", .str (taggedReference "PO" body))]
  | _ => return none

/-- Post one entry of a transfer on its customer's account in a currency. -/
def postLeg (conn : Conn) (t : LockedTransfer) (currency : CurrencyCode) (amountMinor : ℤ)
    (describe : Tx String) (reversalOfEntryId : Option Uuid) : Tx (Uuid × ℤ) := do
  let acct ← getOrCreateAccount t.row.customerId currency
  let description ← describe
  postLedgerEntry conn ⟨acct, t.row.id, amountMinor, currency, description, reversalOfEntryId⟩

/-- `Transfer {reference} — {what}`. -/
def entryText (t : TransferRow) (what : String) : String :=
  "Transfer " ++ t.reference ++ " — " ++ what

/-- The name a payout is described with. -/
def beneficiary (t : TransferRow) : Tx String := do
  match (← Tx.read).recipients.find? fun r => r.id = t.recipientId with
  | some r => return r.accountName
  | none => return "beneficiary"

/-- Post what the transition from `source` to `target` moves. -/
def postLedgerFor (conn : Conn) (t : LockedTransfer) (source target : TransferStatus) :
    Tx Unit :=
  match target with
  | .funded => do
    let _ ← postLeg conn t t.row.sendCurrency (negI64 t.row.sendAmountMinor)
      (return entryText t.row "funded") none
  | .settled => do
    let _ ← postLeg conn t t.row.receiveCurrency t.row.receiveAmountMinor
      (return entryText t.row "converted") none
  | .completed => do
    let _ ← postLeg conn t t.row.receiveCurrency (negI64 t.row.receiveAmountMinor)
      (do return entryText t.row ("paid to " ++ (← beneficiary t.row))) none
  | .reversing =>
    -- From COMPLETED the receive amount already left to the beneficiary.
    match source with
    | .settled | .payingOut => do
      let _ ← postLeg conn t t.row.receiveCurrency (negI64 t.row.receiveAmountMinor)
        (return entryText t.row "conversion reversed") none
    | _ => return ()
  | _ => return ()

/-- The audit row of a transition. -/
def stateChangeAudit (id : Uuid) (actorId : Option Uuid) (source target : TransferStatus)
    (payload : Option JObj) : AuditRow :=
  { actorId
    actorRole := actorId.map fun _ => "customer"
    action := "transfer.state_change"
    entityType := "transfer"
    entityId := id
    before := some [("status", .str source.asStr)]
    after := some ((payload.getD []).foldl (fun o f => o.insert f.1 f.2)
      [("status", .str target.asStr)]) }

/-- Carry out one transition. -/
def apply (conn : Conn) (t : LockedTransfer) (actorId : Option Uuid)
    (source target : TransferStatus) (payload : Option JObj) : Tx Unit := do
  match assertTransition source target with
  | .error e => Prog.fail e
  | .ok () => do
    Repo.appendHistory t.row.id target payload none
    Repo.setStatus conn t.row.id target
    postLedgerFor conn t source target
    Tx.write (.insertAudit (stateChangeAudit t.row.id actorId source target payload))

/-- The forward step: its payload, the transition and the commit. -/
def stepForward (state : AppState) (conn : Conn) (t : LockedTransfer) (actorId : Option Uuid)
    (source target : TransferStatus) (body : String) : Tx TransferStatus := do
  let payload ← payloadFor t target state.complianceAmountThresholdMinor body
  apply conn t actorId source target payload
  Tx.commit
  Tx.mark (·.withFunds none)
  return target

/-- The payload of a transfer whose funds are not there. -/
def insufficientFunds : JObj :=
  [("failureCategory", .str "validation"), ("reasonCode", .str "INSUFFICIENT_FUNDS")]

/-- Apply exactly one transition; the resulting status, unchanged if blocked. -/
def advanceOnce (state : AppState) (transferId : Uuid) (actorId : Option Uuid) (body : String) :
    Tx TransferStatus := do
  let conn ← begin
  let t ← lock transferId
  let source := t.row.currentStatus
  if source = .screened && isHeld t then
    Prog.fail (.complianceHold "This transfer is on hold pending compliance review.")
  else do
  -- With on-chain settlement, only a confirmed event moves SETTLING on.
  let onchainHold := source = .settling && state.settlementOnchain
  match (forwardStep source).filter fun _ => !onchainHold with
  | none => do
    Tx.commit
    return source
  | some target =>
    if source = .awaitingFunds then do
      let acct ← getOrCreateAccount t.row.customerId t.row.sendCurrency
      let balance ← accountBalanceMinor acct
      if balance < t.row.sendAmountMinor then do
        apply conn t actorId source .rejected (some insufficientFunds)
        Tx.commit
        return .rejected
      else do
        Tx.mark (·.withFunds (some acct))
        stepForward state conn t actorId source target body
    else stepForward state conn t actorId source target body

/-- `repo::get_owner_and_status`, down to the status. -/
def statusOf (id : Uuid) : Tx TransferStatus := do
  match (← Tx.query).status id with
  | some s => return s
  | none => Prog.fail (.notFound "Transfer not found.")

/-- One transition of a drive loop, for which a compliance hold is a stopping point. -/
def advanceOnceOrHold (state : AppState) (transferId : Uuid) (source : TransferStatus)
    (body : String) : Tx TransferStatus :=
  (advanceOnce state transferId none body).tryCatch fun e =>
    if e.code = .complianceHold then .ret source else .fail e

/-- The drive loop: advance while `more` holds of the status last seen.  Every turn that goes on
has raised the status, so `fuel` turns above its rank suffice. -/
def drive (state : AppState) (id : Uuid) (more : TransferStatus → Bool) (bodies : ℕ → String) :
    ℕ → TransferStatus → Tx TransferStatus
  | 0, _ => Prog.fail .serverError
  | fuel + 1, status =>
    if more status then do
      let next ← advanceOnceOrHold state id status (bodies fuel)
      if next = status then return status
      else if next.isTerminal then return next
      else drive state id more bodies fuel next
    else return status

/-- Drive a just-created transfer to `AWAITING_FUNDS`, or to a hold. -/
def advanceToAwaitingFunds (state : AppState) (id : Uuid) (bodies : ℕ → String) :
    Tx TransferStatus := do
  let status ← statusOf id
  drive state id (fun s => s = .created || s = .quoted || s = .screened) bodies 13 status

/-- Drive a transfer forward until no forward step remains. -/
def advanceToCompletion (state : AppState) (id : Uuid) (bodies : ℕ → String) :
    Tx TransferStatus := do
  let status ← statusOf id
  drive state id (fun s => (forwardStep s).isSome) bodies 13 status

/-- Pre-funding timeout; no ledger effect. -/
def expireTransfer (id : Uuid) (actorId : Option Uuid) : Tx Unit := do
  let conn ← begin
  let t ← lock id
  apply conn t actorId t.row.currentStatus .expired none
  Tx.commit

/-- `order by posted_at`: equal times leave the order open. -/
def comesFirst (scan : Uuid → ℕ) (e b : LedgerEntry) : Bool :=
  e.postedAt < b.postedAt || (e.postedAt = b.postedAt && scan e.id < scan b.id)

/-- The id of the debit that funded a transfer: `order by posted_at limit 1`. -/
def fundingEntryId (d : World) (id : Uuid) : Option Uuid :=
  ((d.entriesOfTransfer id).filter fun e => e.amountMinor < 0 && contains "funded" e.description)
    |>.foldl (fun best e =>
      match best with
      | none => some e
      | some b => if comesFirst d.scan e b then some e else some b) none
    |>.map (·.id)

/-- The compensating `+sendAmount` that closes a reversal. -/
def postSendRefund (conn : Conn) (t : LockedTransfer) : Tx Uuid := do
  let d ← Tx.read
  let (entryId, _) ← postLeg conn t t.row.sendCurrency t.row.sendAmountMinor
    (return entryText t.row "reversed") (fundingEntryId d t.row.id)
  return entryId

/-- Unwind a transfer: `REVERSING`, the refund, `REVERSED`. -/
def reverseTransfer (id : Uuid) (reason : String) (actorId : Option Uuid) : Tx Uuid := do
  let conn ← begin
  let t ← lock id
  apply conn t actorId t.row.currentStatus .reversing (some [("reason", .str reason)])
  let entryId ← postSendRefund conn t
  apply conn t actorId .reversing .reversed
    (some [("reason", .str reason), ("reversalLedgerEntryId", .id entryId)])
  Tx.commit
  return entryId

/-! ### On-chain transitions -/

/-- Where a confirmed vault event wants the transfer to be. -/
inductive OnchainTarget
  | settled
  | reversing
  | reversed
  | cancelled (quoteExpired : Bool)
  deriving DecidableEq

/-- What the listener did with an event. -/
inductive OnchainOutcome
  | applied (s : TransferStatus)
  /-- Already there: a replay, or the backend moved it first. -/
  | alreadyApplied (s : TransferStatus)
  /-- The transfer's status does not allow this event. -/
  | ignored (s : TransferStatus)
  deriving DecidableEq

/-- The statuses an event takes a transfer through. -/
def onchainPath : OnchainTarget → TransferStatus → List TransferStatus
  | .settled, .settled | .settled, .payingOut | .settled, .completed => []
  | .settled, .funded => [.settling, .settled]
  | .settled, _ => [.settled]
  | .reversing, .reversing | .reversing, .reversed => []
  | .reversing, _ => [.reversing]
  | .reversed, .reversed => []
  | .reversed, .settled | .reversed, .payingOut => [.reversing, .reversed]
  | .reversed, _ => [.reversed]
  | .cancelled _, .expired | .cancelled _, .rejected => []
  -- EXPIRED is not reachable once funded; REJECTED always is.
  | .cancelled quoteExpired, s =>
    if quoteExpired && .expired ∈ s.allowed then [.expired] else [.rejected]

/-- Every step of a path is a transition. -/
def pathAllowed : TransferStatus → List TransferStatus → Bool
  | _, [] => true
  | current, target :: path => target ∈ current.allowed && pathAllowed target path

/-- Walk a path; the refund goes before `REVERSED`. -/
def walk (conn : Conn) (t : LockedTransfer) (payload : JObj) :
    TransferStatus → List TransferStatus → Tx TransferStatus
  | current, [] => return current
  | current, target :: path =>
    if target = .reversed then do
      let entryId ← postSendRefund conn t
      apply conn t none current target
        (some (payload.insert "reversalLedgerEntryId" (.id entryId)))
      walk conn t payload target path
    else do
      apply conn t none current target (some payload)
      walk conn t payload target path

/-- Apply a confirmed vault event inside the listener's transaction. -/
def applyOnchain (conn : Conn) (transferId : Uuid) (target : OnchainTarget) (payload : JObj) :
    Tx OnchainOutcome := do
  let t ← lock transferId
  let source := t.row.currentStatus
  let path := onchainPath target source
  if path = [] then return .alreadyApplied source
  else if pathAllowed source path then do
    let current ← walk conn t payload source path
    return .applied current
  else return .ignored source

/-- A compliance analyst's disposition of a held transfer. -/
inductive ScreeningDecision
  | clear
  | reject
  deriving DecidableEq

/-- A text field that may be missing. -/
def optionalText : Option String → JVal
  | some s => .str s
  | none => .null

/-- Where a decision takes a held transfer, and the payload of the history row. -/
def resolution (decision : ScreeningDecision) (reason : Option String) (body : String) :
    TransferStatus × JObj :=
  match decision with
  | .clear => (.awaitingFunds,
      [("fundingReference", .str (taggedReference "FR" body)), ("holdResolution", .str "cleared"),
        ("holdResolutionReason", optionalText reason)])
  | .reject => (.rejected,
      [("failureCategory", .str "compliance_hold"), ("reasonCode", .str "COMPLIANCE_HOLD"),
        ("reason", optionalText reason)])

/-- Ops decision on a held transfer. -/
def resolveScreeningHold (id : Uuid) (decision : ScreeningDecision) (reason : Option String)
    (actorId : Option Uuid) (body : String) : Tx TransferStatus := do
  let conn ← begin
  let t ← lock id
  let source := t.row.currentStatus
  if source ≠ .screened || !isHeld t then
    Prog.fail (.conflict "This transfer is not currently on a compliance hold.")
  else do
  let (target, payload) := resolution decision reason body
  apply conn t actorId source target (some payload)
  Tx.commit
  return target

end Engine

end Kimana
