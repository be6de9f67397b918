import Kimana.Transfers.Engine
import Mathlib.Data.List.Sort

/-!
# Settlement listener

Applies confirmed vault events to transfers.  Each log is applied in a transaction of its own
together with its event row; the cursor, saved once a range of blocks is done, holds the last
block and its hash, which the next pass compares with the chain.

Every call to the node answers from the chain as it is at that moment.
-/

namespace Kimana.Listener

open ReadCommitted Table Engine

/-- Why a pass stops. -/
inductive ListenerError
  /-- The cursor's block changed its hash. -/
  | reorgBeyondConfirmations (block : ℕ)
  | rpc (message : String)
  | missingBlock (block : ℕ)
  | db
  | api (e : ApiError)
  deriving DecidableEq

/-- Programs of the listener. -/
abbrev Lx := Prog World Write Key Label ListenerError

/-- A database program inside the listener. -/
def lift {α : Type} (p : Tx α) : Lx α := p.mapError .api

/-- What a listener is configured with. -/
structure ListenerConfig where
  vault : ℕ
  confirmations : ℕ
  startBlock : ℕ
  /-- Largest block range asked of the node at once. -/
  maxRange : ℕ

/-! ### Handling a log -/

/-- Event name, its ref, and the fields worth keeping. -/
def describe : VaultEvent → String × B256 × JObj
  | .quoteLocked ref quoteId currency rate usdcAmount feeUsdc receiveAmountMinor expiresAt =>
    ("QuoteLocked", ref, [("quoteId", .dec quoteId), ("receiveCurrency", .str currency),
      ("rate", .dec rate), ("usdcAmount", .dec usdcAmount), ("feeUsdc", .dec feeUsdc),
      ("receiveAmountMinor", .dec receiveAmountMinor), ("expiresAt", .num expiresAt)])
  | .quoteCancelled ref quoteId => ("QuoteCancelled", ref, [("quoteId", .dec quoteId)])
  | .settlementInitiated ref partner amount =>
    ("SettlementInitiated", ref, [("partner", .hash partner), ("amount", .dec amount)])
  | .settlementReturned ref partner amount =>
    ("SettlementReturned", ref, [("partner", .hash partner), ("amount", .dec amount)])
  | .settlementRefunded ref target amount =>
    ("SettlementRefunded", ref, [("to", .hash target), ("amount", .dec amount)])
  | .rateDivergence ref currency quotedRate referenceRate deviationBps =>
    ("RateDivergence", ref, [("currency", .str currency), ("quotedRate", .dec quotedRate),
      ("referenceRate", .dec referenceRate), ("deviationBps", .dec deviationBps)])
  | .referenceRateStale ref currency referenceUpdatedAt =>
    ("ReferenceRateStale", ref, [("currency", .str currency),
      ("referenceUpdatedAt", .num referenceUpdatedAt)])
  | .other => ("Other", 0, [])

/-- The audit action of an event that only leaves a record. -/
def auditAction (event : String) : String :=
  if event = "QuoteLocked" then "transfer.quote_locked"
  else if event = "RateDivergence" || event = "ReferenceRateStale" then "transfer.settlement_alert"
  else "transfer.settlement_event"

/-- The block with a number. -/
def getBlock (block : ℕ) : Lx Block := do
  match (← Tx.query : World).chain[block]? with
  | some b => return b
  | none => Prog.fail (.missingBlock block)

/-- The hash of a block. -/
def blockHash (block : ℕ) : Lx BlockHash := do
  match Chain.hash (← Tx.query : World).chain block with
  | some h => return h
  | none => Prog.fail (.missingBlock block)

/-- When the quote last locked for a transfer expires, as recorded: `none` without a lock.  A value
the database cannot hold as a 64-bit number is an error. -/
def lockedUntil (d : World) (transferId : Uuid) : Option (Except ListenerError ℤ) :=
  (topBy (·.blockNumber)
      (d.events.filter fun e => e.transferId = transferId && e.event = "QuoteLocked")).map fun e =>
    match e.payload.get "expiresAt" with
    | some (.num n) => if n < 2 ^ 63 then .ok n else .error .db
    | _ => .error .db

/-- Whether the transfer's locked quote had expired by a block; not when no lock was seen. -/
def quoteExpiredAt (transferId : Uuid) (block : ℕ) : Lx Bool := do
  match lockedUntil (← Tx.read) transferId with
  | none => return false
  | some (.error e) => Prog.fail e
  | some (.ok expiresAt) => do
    let b ← getBlock block
    return expiresAt ≤ Util.asI64 b.timestamp

/-- Where an event wants the transfer to be, if it moves one. -/
def targetOf (event : VaultEvent) (transferId : Uuid) (block : ℕ) : Lx (Option OnchainTarget) :=
  match event with
  | .settlementInitiated .. => return some .settled
  | .settlementReturned .. => return some .reversing
  | .settlementRefunded .. => return some .reversed
  | .quoteCancelled .. => do return some (.cancelled (← quoteExpiredAt transferId block))
  | _ => return none

/-- Apply an event that moves the transfer. -/
def applyTarget (conn : Conn) (transferId : Uuid) (chain : JObj) :
    Option OnchainTarget → Lx (Option OnchainOutcome)
  | some target => do return some (← lift (applyOnchain conn transferId target chain))
  | none => return none

/-- What an event row says about what was done. -/
def outcomeText : Option OnchainOutcome → String
  | none => "recorded"
  | some (.applied s) => "applied:" ++ s.asStr
  | some (.alreadyApplied s) => "already:" ++ s.asStr
  | some (.ignored s) => "ignored:" ++ s.asStr

/-- The audit row of an event that only leaves a record. -/
def recordAudit (name : String) (transferId : Uuid) (row : JObj) : AuditRow :=
  { actorId := none
    actorRole := none
    action := auditAction name
    entityType := "transfer"
    entityId := transferId
    before := none
    after := some row }

/-- Insert an event row, unless a concurrent listener recorded the log first.  The payload column is
`jsonb`, so the statement fails on a text with a zero character. -/
def insertEvent (row : SettlementEvent) : Lx Bool := do
  if row.payload.hasNul then Prog.fail .db else do
  Tx.lock (.eventKey row.txHash row.logIndex)
  if ((← Tx.read : World).eventByKey row.txHash row.logIndex).isSome then return false
  else do
    Tx.write (.insertEvent row)
    return true

/-- The transaction of one log of a known transfer. -/
def record (cfg : ListenerConfig) (conn : Conn) (event : VaultEvent) (transferId : Uuid)
    (txHash : B256) (logIndex block : ℕ) (hash : BlockHash) : Lx Unit := do
  let (name, ref, payload) := describe event
  let chain : JObj := [("event", .str name), ("txHash", .hash txHash), ("blockNumber", .num block)]
  let outcome ← applyTarget conn transferId chain (← targetOf event transferId block)
  let row := payload.insert "outcome" (.str (outcomeText outcome))
  if ← insertEvent ⟨cfg.vault, txHash, logIndex, block, hash, name, ref, transferId, row⟩ then do
    if outcome.isNone then
      Prog.write (.insertAudit (recordAudit name transferId row)) Tx.commit
    else Tx.commit
  else Tx.rollback

/-- Handle one log: skip it when it was seen or is not ours, else apply and record it. -/
def handle (cfg : ListenerConfig) (log : RpcLog) : Lx Unit :=
  match log.event with
  | none => return ()
  | some event =>
    match log.transactionHash, log.logIndex, log.blockNumber, log.blockHash with
    | some txHash, some logIndex, some block, some hash => do
      if ((← Tx.query : World).eventByKey txHash logIndex).isSome then return () else do
      let conn ← lift begin
      match (← Tx.read : World).transfers.find? fun t =>
          t.settlementRef = some (describe event).2.1 with
      -- Not ours: another backend's transfer.
      | none => Tx.rollback
      | some t => record cfg conn event t.id txHash logIndex block hash
    | _, _, _, _ => Prog.fail (.rpc "log without block position")

/-! ### A pass -/

/-- The order of logs: by block, then by index. -/
def logLe (a b : RpcLog) : Prop :=
  a.blockNumber.elim 0 (· + 1) < b.blockNumber.elim 0 (· + 1) ∨
    a.blockNumber = b.blockNumber ∧ a.logIndex.elim 0 (· + 1) ≤ b.logIndex.elim 0 (· + 1)

instance : DecidableRel logLe := fun _ _ => inferInstanceAs (Decidable (_ ∨ _))

/-- Set the point of the pass. -/
def at' (p : PassPoint) : Lx Unit := Tx.mark (·.withPass p)

/-- Handle logs in order. -/
def handleAll (cfg : ListenerConfig) : List RpcLog → Lx Unit
  | [] => return ()
  | log :: logs => do
    at' (.past (log :: logs))
    handle cfg log
    handleAll cfg logs

/-- `insert .. on conflict do update`, a statement of its own. -/
def saveCursor (cfg : ListenerConfig) (block : ℕ) (hash : BlockHash) : Lx Unit :=
  Prog.write (.saveCursor ⟨cfg.vault, block, hash⟩) Tx.commit

/-- The last block of the range that starts at `start`. -/
def rangeEnd (cfg : ListenerConfig) (confirmed start : ℕ) : ℕ :=
  min confirmed (start + max cfg.maxRange 1 - 1)

/-- The ranges from `start` on, one after another.  Each takes at least one block, so `fuel` blocks
from `start` are enough. -/
def ranges (cfg : ListenerConfig) (confirmed : ℕ) : ℕ → ℕ → Lx Unit
  | 0, _ => return ()
  | fuel + 1, start =>
    if start ≤ confirmed then do
      let stop := rangeEnd cfg confirmed start
      let logs := (← Tx.query : World).chain.getLogs cfg.vault start stop
      handleAll cfg (logs.insertionSort logLe)
      at' (.past [])
      let hash ← blockHash stop
      at' (if stop = confirmed then .closing hash else .past [])
      saveCursor cfg stop hash
      ranges cfg confirmed fuel (stop + 1)
    else return ()

/-- The block a pass starts from: after the cursor, whose hash must not have changed. -/
def startFrom (cfg : ListenerConfig) : Lx ℕ := do
  let cursor := (← Tx.query : World).cursor cfg.vault
  at' (.found cursor)
  match cursor with
  | some (last, hash) => do
    if (← blockHash last) ≠ hash then Prog.fail (.reorgBeyondConfirmations last)
    else return last + 1
  | none => return cfg.startBlock

/-- Process every confirmed block after the cursor. -/
def runOnce (cfg : ListenerConfig) : Lx (Option ℕ) := do
  let head := Chain.head (← Tx.query : World).chain
  if head < cfg.confirmations then return none else do
  let confirmed := head - cfg.confirmations
  let start ← startFrom cfg
  if confirmed < start then return none else do
  at' (.past [])
  ranges cfg confirmed (confirmed + 1 - start) start
  return some confirmed

end Kimana.Listener
