import Kimana.Op

/-!
# Pieces of operations

A kind of programs that is closed under the statements and the ways to combine them, and that has
the search for an account, has every operation.

* `Pieces G` : what is asked of a kind `G`.
* `Pieces.prog` : it has the programs of all operations.
-/

namespace Kimana

open ReadCommitted Ledger

/-- The key is that of an account row. -/
def Key.ofAccount : Key → Bool
  | .accountKey _ _ => true
  | _ => false

/-- The kind is closed under statements and their combinations; account rows are inserted, and their
keys locked, only by `getOrCreateAccountByCode`. -/
structure Pieces (G : ∀ E A : Type, Prog World Write Key Label E A → Prop) : Prop where
  ret : ∀ {E A : Type} (a : A), G E A (.ret a)
  fail : ∀ {E A : Type} (e : E), G E A (.fail e)
  fresh : ∀ {E A : Type} {f : ℕ → Prog World Write Key Label E A}, (∀ n, G E A (f n)) →
    G E A (.fresh f)
  query : ∀ {E A : Type} {f : World → Prog World Write Key Label E A}, (∀ d, G E A (f d)) →
    G E A (.query f)
  read : ∀ {E A : Type} {f : World → Prog World Write Key Label E A}, (∀ d, G E A (f d)) →
    G E A (.read f)
  write : ∀ {E A : Type} {w : Write} {p : Prog World Write Key Label E A}, w.account = none →
    G E A p → G E A (.write w p)
  lock : ∀ {E A : Type} {k : Key} {f : World → World → Prog World Write Key Label E A},
    k.ofAccount = false → (∀ d d', G E A (f d d')) → G E A (.lock k f)
  commit : ∀ {E A : Type} {p : Prog World Write Key Label E A}, G E A p → G E A (.commit p)
  rollback : ∀ {E A : Type} {p : Prog World Write Key Label E A}, G E A p → G E A (.rollback p)
  mark : ∀ {E A : Type} {l : Label → Label} {p : Prog World Write Key Label E A}, G E A p →
    G E A (.mark l p)
  bind : ∀ {E A B : Type} {p : Prog World Write Key Label E B}
    {g : B → Prog World Write Key Label E A}, G E B p → (∀ b, G E A (g b)) → G E A (p.bind g)
  mapError : ∀ {E E' A : Type} {e : E → E'} {p : Prog World Write Key Label E A}, G E A p →
    G E' A (p.mapError e)
  tryCatch : ∀ {E A : Type} {p : Prog World Write Key Label E A}
    {g : E → Prog World Write Key Label E A}, G E A p → (∀ e, G E A (g e)) → G E A (p.tryCatch g)
  account : ∀ (c : Uuid) (cur : LedgerCurrency), G _ _ (getOrCreateAccountByCode c cur)

namespace Pieces

variable {G : ∀ E A : Type, Prog World Write Key Label E A → Prop} (h : Pieces G)
include h

/-! ### Statements -/

variable {E : Type}

theorem txQuery : G E _ Tx.query := h.query fun _ => h.ret _

theorem txRead : G E _ Tx.read := h.read fun _ => h.ret _

theorem txFresh : G E _ Tx.fresh := h.fresh fun _ => h.ret _

theorem txWrite {w : Write} (hw : w.account = none) : G E _ (Tx.write w) := h.write hw (h.ret _)

theorem txLock {k : Key} (hk : k.ofAccount = false) : G E _ (Tx.lock k) :=
  h.lock hk fun _ _ => h.ret _

theorem txCommit : G E _ Tx.commit := h.commit (h.ret _)

theorem txRollback : G E _ Tx.rollback := h.rollback (h.ret _)

theorem txMark (l : Label → Label) : G E _ (Tx.mark l) := h.mark (h.ret _)

theorem begin : G _ _ begin := h.bind h.txQuery fun _ => h.ret _

/-! ### The ledger -/

theorem toBigint (n : ℤ) : G _ _ (Ledger.toBigint n) := by
  unfold Ledger.toBigint
  split
  · exact h.ret _
  · exact h.fail _

theorem accountBalanceMinor (acct : Uuid) : G _ _ (Ledger.accountBalanceMinor acct) :=
  h.bind h.txRead fun _ => h.toBigint _

theorem appendEntry (conn : Conn) (acct : Uuid) (amt : ℤ) (cur : LedgerCurrency) (text : String)
    (src : EntrySource) (rev : Option Uuid) :
    G _ _ (Ledger.appendEntry conn acct amt cur text src rev) :=
  h.bind (h.txLock rfl) fun _ => h.bind (h.accountBalanceMinor acct) fun _ =>
    h.bind h.txFresh fun _ => h.bind (h.txWrite rfl) fun _ => h.ret _

/-! ### The engine -/

section Engine

open Engine

theorem postLeg (conn : Conn) (t : LockedTransfer) (cur : CurrencyCode) (amt : ℤ)
    {describe : Tx String} (hd : G _ _ describe) (rev : Option Uuid) :
    G _ _ (Engine.postLeg conn t cur amt describe rev) :=
  h.bind (h.account _ _) fun _ => h.bind hd fun _ => h.appendEntry ..

theorem beneficiary (t : TransferRow) : G _ _ (Engine.beneficiary t) := by
  refine h.bind h.txRead fun d => ?_
  split <;> exact h.ret _

theorem postLedgerFor (conn : Conn) (t : LockedTransfer) (source target : TransferStatus) :
    G _ _ (Engine.postLedgerFor conn t source target) := by
  unfold Engine.postLedgerFor
  split
  · exact h.bind (h.postLeg _ _ _ _ (h.ret _) _) fun _ => h.ret _
  · exact h.bind (h.postLeg _ _ _ _ (h.ret _) _) fun _ => h.ret _
  · exact h.bind (h.postLeg _ _ _ _ (h.bind (h.beneficiary _) fun _ => h.ret _) _) fun _ => h.ret _
  · split
    · exact h.bind (h.postLeg _ _ _ _ (h.ret _) _) fun _ => h.ret _
    · exact h.bind (h.postLeg _ _ _ _ (h.ret _) _) fun _ => h.ret _
    · exact h.ret _
  · exact h.ret _

theorem appendHistory (id : Uuid) (status : TransferStatus) (payload : Option JObj)
    (note : Option String) : G _ _ (Repo.appendHistory id status payload note) :=
  h.bind h.txRead fun _ => h.txWrite rfl

theorem apply (conn : Conn) (t : LockedTransfer) (actorId : Option Uuid)
    (source target : TransferStatus) (payload : Option JObj) :
    G _ _ (Engine.apply conn t actorId source target payload) := by
  unfold Engine.apply
  split
  · exact h.fail _
  · exact h.bind (h.appendHistory ..) fun _ => h.bind (h.txWrite rfl) fun _ =>
      h.bind (h.postLedgerFor ..) fun _ => h.txWrite rfl

theorem payloadFor (t : LockedTransfer) (target : TransferStatus) (threshold : ℤ) (body : String) :
    G _ _ (Engine.payloadFor t target threshold body) := by
  unfold Engine.payloadFor
  split
  · dsimp only
    split
    · exact h.bind h.txQuery fun _ => h.ret _
    · exact h.ret _
  all_goals exact h.ret _

theorem stepForward (state : AppState) (conn : Conn) (t : LockedTransfer) (actorId : Option Uuid)
    (source target : TransferStatus) (body : String) :
    G _ _ (Engine.stepForward state conn t actorId source target body) :=
  h.bind (h.payloadFor ..) fun _ => h.bind (h.apply ..) fun _ => h.bind h.txCommit fun _ =>
    h.bind (h.txMark _) fun _ => h.ret _

theorem engineLock (id : Uuid) : G _ _ (Engine.lock id) := by
  refine h.bind (h.txMark _) fun _ => h.lock rfl fun snap cur => h.bind (h.txMark _) fun _ => ?_
  split
  · split
    · exact h.ret _
    · exact h.fail _
  · exact h.fail _

theorem advanceOnce (state : AppState) (id : Uuid) (actorId : Option Uuid) (body : String) :
    G _ _ (Engine.advanceOnce state id actorId body) := by
  refine h.bind h.begin fun conn => h.bind (h.engineLock id) fun t => ?_
  dsimp only
  split
  · exact h.fail _
  split
  · exact h.bind h.txCommit fun _ => h.ret _
  split
  · refine h.bind (h.account _ _) fun acct => h.bind (h.accountBalanceMinor acct) fun _ => ?_
    split
    · exact h.bind (h.apply ..) fun _ => h.bind h.txCommit fun _ => h.ret _
    · exact h.bind (h.txMark _) fun _ => h.stepForward ..
  · exact h.stepForward ..

theorem drive (state : AppState) (id : Uuid) (more : TransferStatus → Bool) (bodies : ℕ → String)
    (fuel : ℕ) (status : TransferStatus) :
    G _ _ (Engine.drive state id more bodies fuel status) := by
  induction fuel generalizing status with
  | zero => exact h.fail _
  | succ fuel ih =>
    unfold Engine.drive
    split
    case isFalse => exact h.ret _
    refine h.bind (h.tryCatch (h.advanceOnce ..) fun e => ?_) fun next => ?_
    · split
      · exact h.ret _
      · exact h.fail _
    split
    · exact h.ret _
    split
    · exact h.ret _
    · exact ih _

theorem statusOf (id : Uuid) : G _ _ (Engine.statusOf id) := by
  refine h.bind h.txQuery fun d => ?_
  split
  · exact h.ret _
  · exact h.fail _

theorem postSendRefund (conn : Conn) (t : LockedTransfer) : G _ _ (Engine.postSendRefund conn t) :=
  h.bind h.txRead fun _ => h.bind (h.postLeg _ _ _ _ (h.ret _) _) fun _ => h.ret _

theorem reverseTransfer (id : Uuid) (reason : String) (actorId : Option Uuid) :
    G _ _ (Engine.reverseTransfer id reason actorId) :=
  h.bind h.begin fun _ => h.bind (h.engineLock id) fun _ => h.bind (h.apply ..) fun _ =>
    h.bind (h.postSendRefund ..) fun _ => h.bind (h.apply ..) fun _ => h.bind h.txCommit fun _ =>
    h.ret _

theorem walk (conn : Conn) (t : LockedTransfer) (payload : JObj) (source : TransferStatus)
    (path : List TransferStatus) : G _ _ (Engine.walk conn t payload source path) := by
  induction path generalizing source with
  | nil => exact h.ret _
  | cons target path ih =>
    unfold Engine.walk
    split
    · exact h.bind (h.postSendRefund ..) fun _ => h.bind (h.apply ..) fun _ => ih _
    · exact h.bind (h.apply ..) fun _ => ih _

theorem applyOnchain (conn : Conn) (id : Uuid) (target : OnchainTarget) (payload : JObj) :
    G _ _ (Engine.applyOnchain conn id target payload) := by
  refine h.bind (h.engineLock id) fun t => ?_
  dsimp only
  split
  · exact h.ret _
  split
  · exact h.bind (h.walk ..) fun _ => h.ret _
  · exact h.ret _

theorem resolveScreeningHold (id : Uuid) (decision : ScreeningDecision) (reason : Option String)
    (actorId : Option Uuid) (body : String) :
    G _ _ (Engine.resolveScreeningHold id decision reason actorId body) := by
  refine h.bind h.begin fun conn => h.bind (h.engineLock id) fun t => ?_
  dsimp only
  split
  · exact h.fail _
  · exact h.bind (h.apply ..) fun _ => h.bind h.txCommit fun _ => h.ret _

end Engine

/-! ### Creation -/

section Creation

open Service

theorem insert (conn : Conn) (input : Repo.InsertTransfer) : G _ _ (Repo.insert conn input) := by
  refine h.bind h.txFresh fun _ => h.bind (h.txLock rfl) fun _ => h.bind (h.txLock rfl) fun _ =>
    h.bind (h.txLock rfl) fun _ => h.bind h.txRead fun d => ?_
  split
  · exact h.ret _
  · exact h.bind (h.txWrite rfl) fun _ => h.ret _

theorem tryConsume (quoteId transferId : Uuid) : G _ _ (Quote.tryConsume quoteId transferId) := by
  refine h.lock rfl fun _ cur => ?_
  split
  · split
    · exact h.bind (h.txWrite rfl) fun _ => h.ret _
    · exact h.ret _
  · exact h.ret _

theorem setSettlementRef (state : AppState) (id : Uuid) :
    G _ _ (Repo.setSettlementRef state id) := by
  refine h.bind (h.txLock rfl) fun _ => h.bind h.txRead fun d => ?_
  split
  · exact h.fail _
  · exact h.txWrite rfl

theorem findByIdempotencyKey (c : Uuid) (key : String) :
    G _ _ (Repo.findByIdempotencyKey c key) := h.bind h.txQuery fun _ => h.ret _

theorem insertTransfer (state : AppState) (conn : Conn) (session : Session)
    (input : CreateTransferInput) (quote : Quote.StoredQuote) (recipientId : Uuid) (body : String) :
    G _ _ (Service.insertTransfer state conn session input quote recipientId body) := by
  refine h.bind (h.insert ..) fun r => ?_
  split
  · refine h.bind h.txRollback fun _ => h.bind (h.findByIdempotencyKey ..) fun r => ?_
    split
    · exact h.ret _
    · exact h.fail _
  · refine h.bind (h.tryConsume ..) fun ok => ?_
    split
    · exact h.bind (h.setSettlementRef ..) fun _ => h.bind (h.appendHistory ..) fun _ =>
        h.bind (h.txWrite rfl) fun _ => h.bind h.txCommit fun _ => h.ret _
    · exact h.bind h.txRollback fun _ => h.fail _

theorem checkExposureLimits (state : AppState) (customerId : Uuid) (limits : CustomerLimits)
    (quote : FirmQuote) :
    G _ _ (Service.checkExposureLimits state customerId limits quote) := by
  unfold Service.checkExposureLimits
  dsimp only
  split
  · exact h.fail _
  · refine h.bind (h.bind h.txRead fun _ => h.toBigint _) fun _ => ?_
    split
    · exact h.fail _
    · exact h.ret _

theorem createTransfer (state : AppState) (session : Session) (input : CreateTransferInput)
    (body : String) (bodies : ℕ → String) :
    G _ _ (Service.createTransfer state session input body bodies) := by
  unfold Service.createTransfer
  split
  · exact h.fail _
  refine h.bind (h.findByIdempotencyKey ..) fun existing => ?_
  split
  · exact h.ret _
  refine h.bind (h.bind h.txQuery fun _ => h.ret _) fun quote => ?_
  split
  · exact h.fail _
  refine h.bind h.txQuery fun _ => ?_
  split
  · exact h.fail _
  refine h.bind h.txQuery fun _ => ?_
  split
  · exact h.fail _
  refine h.bind h.begin fun conn => ?_
  refine h.bind (h.lock rfl fun _ cur => ?_) fun limits => ?_
  · split
    · exact h.ret _
    · exact h.fail _
  refine h.bind (h.findByIdempotencyKey ..) fun again => ?_
  split
  · exact h.bind h.txRollback fun _ => h.ret _
  refine h.bind (h.checkExposureLimits ..) fun _ => h.bind (h.insertTransfer ..) fun inserted => ?_
  split
  · exact h.ret _
  refine h.bind (h.bind (h.statusOf _) fun _ => h.drive ..) fun _ =>
    h.bind (h.bind h.txQuery fun _ => h.ret _) fun t => ?_
  split
  · exact h.ret _
  · exact h.fail _

end Creation

/-! ### Trades -/

section Trades

open SettlementWallet

theorem findByKey (c : Uuid) (key : String) : G _ _ (SettlementWallet.findByKey c key) :=
  h.bind h.txQuery fun _ => h.ret _

theorem insertTrade (row : TradeRow) : G _ _ (SettlementWallet.insertTrade row) := by
  refine h.bind (h.txLock rfl) fun _ => h.bind h.txRead fun d => ?_
  split
  · exact h.ret _
  refine h.bind (h.txLock rfl) fun _ => h.bind h.txRead fun d => ?_
  split
  · exact h.fail _
  · exact h.bind h.txFresh fun _ => h.bind (h.txWrite rfl) fun _ => h.ret _

theorem trade (session : Session) (input : TradeInput) (rate : WalletRate)
    (usdcMinor localMinor : ℤ) (body : String) :
    G _ _ (SettlementWallet.trade session input rate usdcMinor localMinor body) := by
  refine h.bind h.begin fun conn => h.bind (h.account _ _) fun l =>
    h.bind (h.account _ _) fun u => ?_
  generalize debit input.kind l u input.localCurrency localMinor usdcMinor = debited
  refine h.bind (h.txLock rfl) fun _ => h.bind (h.txMark _) fun _ =>
    h.bind (h.accountBalanceMinor debited.1) fun _ => ?_
  split
  · exact h.fail _
  refine h.bind (h.txMark _) fun _ => h.bind (h.insertTrade _) fun r => ?_
  split
  · refine h.bind h.txRollback fun _ => h.bind (h.findByKey ..) fun r => ?_
    split
    · exact h.ret _
    · exact h.fail _
  · exact h.bind (h.appendEntry ..) fun _ => h.bind (h.appendEntry ..) fun _ =>
      h.bind (h.txWrite rfl) fun _ => h.bind h.txCommit fun _ => h.ret _

theorem executeTrade (session : Session) (input : TradeInput) (feed : Except ApiError WalletRate)
    (body : String) : G _ _ (SettlementWallet.executeTrade session input feed body) := by
  unfold SettlementWallet.executeTrade
  split
  · exact h.fail _
  refine h.bind (h.findByKey ..) fun existing => ?_
  split
  · exact h.ret _
  split
  · exact h.fail _
  split
  · exact h.fail _
  dsimp only
  split
  · exact h.fail _
  · exact h.trade ..

end Trades

/-! ### Collections -/

section Collections

open Collections

theorem findById (conn : Conn) (id : Uuid) : G _ _ (Collections.findById conn id) :=
  h.bind h.txRead fun _ => h.ret _

theorem cancelCollection (state : AppState) (session : Session) (id : Uuid)
    (answer : Except ApiError Unit) :
    G _ _ (Collections.cancelCollection state session id answer) := by
  refine h.bind h.begin fun conn => h.bind (h.lock rfl fun _ _ =>
    h.bind (h.findById ..) fun found => ?_) fun s => ?_
  · split
    · exact h.ret _
    · exact h.fail _
  split
  · refine h.bind ?_ fun _ => h.bind (h.txWrite rfl) fun _ => h.bind (h.txWrite rfl) fun _ =>
      h.bind (h.findById ..) fun found => ?_
    · unfold Collections.closePartner
      split
      · split
        · split
          · exact h.ret _
          · exact h.fail _
        · exact h.fail _
      · exact h.ret _
    · split
      · exact h.bind h.txCommit fun _ => h.ret _
      · exact h.fail _
  · exact h.bind h.txRollback fun _ => h.ret _
  · exact h.fail _
  · exact h.fail _

theorem settled (conn : Conn) (p : Inbound) : G _ _ (Collections.settled conn p) := by
  unfold Collections.settled
  split
  · exact h.ret _
  · exact h.bind (h.txLock rfl) fun _ => h.bind (h.findById ..) fun _ => h.ret _

theorem insertInbound (p : Inbound) (settles : Option Uuid) :
    G _ _ (Collections.insertInbound p settles) := by
  unfold Collections.insertInbound
  split
  · exact h.fail _
  refine h.bind (h.txLock rfl) fun _ => h.bind h.txRead fun d => ?_
  split
  · exact h.ret _
  · exact h.bind h.txFresh fun _ => h.bind (h.txWrite rfl) fun _ => h.ret _

theorem markPaid (conn : Conn) (settles : Option CollectionRow) :
    G _ _ (Collections.markPaid conn settles) := by
  unfold Collections.markPaid
  split
  · exact h.txWrite rfl
  · exact h.ret _

theorem applyInbound (p : Inbound) : G _ _ (Collections.applyInbound p) := by
  refine h.bind h.begin fun conn => h.bind (h.settled ..) fun settles =>
    h.bind (h.insertInbound ..) fun r => ?_
  split
  · exact h.bind h.txRollback fun _ => h.ret _
  · exact h.bind (h.account _ _) fun _ => h.bind (h.appendEntry ..) fun _ =>
      h.bind (h.markPaid ..) fun _ => h.bind (h.txWrite rfl) fun _ => h.bind h.txCommit fun _ =>
      h.ret _

theorem receiveYellowcard (state : AppState) (w : YellowCardDelivery) :
    G _ _ (Collections.receiveYellowcard state w) := by
  unfold Collections.receiveYellowcard
  split
  · exact h.fail _
  split
  · exact h.fail _
  split
  · exact h.fail _
  split
  · exact h.ret _
  split
  · exact h.fail _
  split
  · exact h.ret _
  split
  · exact h.fail _
  refine h.bind h.txQuery fun d => ?_
  split
  · exact h.fail _
  split
  · exact h.fail _
  split
  · exact h.fail _
  · exact h.bind h.txQuery fun _ => h.bind (h.applyInbound _) fun _ => h.ret _

theorem quotedRequest (state : AppState) (c : Uuid) (description : Option String) :
    G _ _ (Collections.quotedRequest state c description) := by
  unfold Collections.quotedRequest
  split
  · exact h.ret _
  · exact h.bind h.txQuery fun _ => h.ret _

theorem receiveBridge (state : AppState) (w : BridgeDelivery) :
    G _ _ (Collections.receiveBridge state w) := by
  unfold Collections.receiveBridge
  split
  · exact h.fail _
  split
  · exact h.fail _
  · exact h.fail _
  split
  · exact h.fail _
  split
  · exact h.ret _
  split
  · exact h.fail _
  split
  · exact h.ret _
  split
  · exact h.fail _
  refine h.bind h.txQuery fun d => ?_
  split
  · exact h.fail _
  split
  · exact h.fail _
  · exact h.bind (h.quotedRequest ..) fun _ => h.bind h.txQuery fun _ =>
      h.bind (h.applyInbound _) fun _ => h.ret _

end Collections

/-! ### The listener -/

section Listener

open Listener

theorem getBlock (block : ℕ) : G _ _ (Listener.getBlock block) := by
  refine h.bind (h.query fun _ => h.ret _) fun d => ?_
  split
  · exact h.ret _
  · exact h.fail _

theorem blockHash (block : ℕ) : G _ _ (Listener.blockHash block) := by
  refine h.bind (h.query fun _ => h.ret _) fun d => ?_
  split
  · exact h.ret _
  · exact h.fail _

theorem targetOf (event : VaultEvent) (id : Uuid) (block : ℕ) :
    G _ _ (Listener.targetOf event id block) := by
  unfold Listener.targetOf
  split
  case h_4 =>
    refine h.bind (h.bind (h.read fun _ => h.ret _) fun d => ?_) fun _ => h.ret _
    split
    · exact h.ret _
    · exact h.fail _
    · exact h.bind (h.getBlock _) fun _ => h.ret _
  all_goals exact h.ret _

theorem applyTarget (conn : Conn) (id : Uuid) (chain : JObj)
    (target : Option Engine.OnchainTarget) :
    G _ _ (Listener.applyTarget conn id chain target) := by
  cases target with
  | none => exact h.ret _
  | some target => exact h.bind (h.mapError (h.applyOnchain ..)) fun _ => h.ret _

theorem insertEvent (row : SettlementEvent) : G _ _ (Listener.insertEvent row) := by
  unfold Listener.insertEvent
  split
  · exact h.fail _
  refine h.bind (h.lock rfl fun _ _ => h.ret _) fun _ =>
    h.bind (h.read fun _ => h.ret _) fun d => ?_
  split
  · exact h.ret _
  · exact h.bind (h.write rfl (h.ret _)) fun _ => h.ret _

theorem record (cfg : ListenerConfig) (conn : Conn) (event : VaultEvent) (id : Uuid)
    (txHash : B256) (logIndex block : ℕ) (hash : BlockHash) :
    G _ _ (Listener.record cfg conn event id txHash logIndex block hash) := by
  refine h.bind (h.targetOf ..) fun target => h.bind (h.applyTarget ..) fun outcome =>
    h.bind (h.insertEvent _) fun first => ?_
  split
  · split
    · exact h.write rfl (h.commit (h.ret _))
    · exact h.commit (h.ret _)
  · exact h.rollback (h.ret _)

theorem handle (cfg : ListenerConfig) (log : RpcLog) : G _ _ (Listener.handle cfg log) := by
  unfold Listener.handle
  split
  · exact h.ret _
  split
  · refine h.bind (h.query fun _ => h.ret _) fun d => ?_
    split
    · exact h.ret _
    refine h.bind (h.mapError h.begin) fun conn => h.bind (h.read fun _ => h.ret _) fun d => ?_
    split
    · exact h.rollback (h.ret _)
    · exact h.record ..
  · exact h.fail _

theorem handleAll (cfg : ListenerConfig) (logs : List RpcLog) :
    G _ _ (Listener.handleAll cfg logs) := by
  induction logs with
  | nil => exact h.ret _
  | cons log logs ih =>
    exact h.bind (h.mark (h.ret _)) fun _ => h.bind (h.handle ..) fun _ => ih

theorem ranges (cfg : ListenerConfig) (confirmed fuel start : ℕ) :
    G _ _ (Listener.ranges cfg confirmed fuel start) := by
  induction fuel generalizing start with
  | zero => exact h.ret _
  | succ fuel ih =>
    unfold Listener.ranges
    split
    case isFalse => exact h.ret _
    exact h.bind (h.query fun _ => h.ret _) fun _ => h.bind (h.handleAll ..) fun _ =>
      h.bind (h.mark (h.ret _)) fun _ => h.bind (h.blockHash _) fun _ =>
      h.bind (h.mark (h.ret _)) fun _ => h.bind (h.write rfl (h.commit (h.ret _))) fun _ => ih _

theorem startFrom (cfg : ListenerConfig) : G _ _ (Listener.startFrom cfg) := by
  refine h.bind (h.query fun _ => h.ret _) fun d => h.bind (h.mark (h.ret _)) fun _ => ?_
  split
  · refine h.bind (h.blockHash _) fun hash => ?_
    split
    · exact h.fail _
    · exact h.ret _
  · exact h.ret _

theorem runOnce (cfg : ListenerConfig) : G _ _ (Listener.runOnce cfg) := by
  refine h.bind (h.query fun _ => h.ret _) fun d => ?_
  dsimp only
  split
  · exact h.ret _
  refine h.bind (h.startFrom cfg) fun start => ?_
  split
  · exact h.ret _
  · exact h.bind (h.mark (h.ret _)) fun _ => h.bind (h.ranges ..) fun _ => h.ret _

end Listener

/-! ### Operations -/

theorem wrap {E A : Type} {e : E → Failure} {a : A → Answer} {p : Prog World Write Key Label E A}
    (hp : G _ _ p) : G _ _ (wrap e a p) := h.bind (h.mapError hp) fun _ => h.ret _

/-- The kind has the program of every operation. -/
theorem prog (op : Op) : G _ _ op.prog := by
  cases op with
  | createTransfer => exact h.wrap (h.createTransfer ..)
  | advanceOnce => exact h.wrap (h.advanceOnce ..)
  | advanceToCompletion => exact h.wrap (h.bind (h.statusOf _) fun _ => h.drive ..)
  | expireTransfer =>
    exact h.wrap (h.bind h.begin fun _ => h.bind (h.engineLock _) fun _ =>
      h.bind (h.apply ..) fun _ => h.txCommit)
  | reverseTransfer => exact h.wrap (h.reverseTransfer ..)
  | applyOnchain =>
    exact h.wrap (h.bind h.begin fun _ => h.bind (h.applyOnchain ..) fun _ =>
      h.bind h.txCommit fun _ => h.ret _)
  | resolveScreeningHold => exact h.wrap (h.resolveScreeningHold ..)
  | executeTrade => exact h.wrap (h.executeTrade ..)
  | cancelCollection => exact h.wrap (h.cancelCollection ..)
  | applyInbound => exact h.wrap (h.applyInbound _)
  | receiveYellowcard => exact h.wrap (h.receiveYellowcard ..)
  | receiveBridge => exact h.wrap (h.receiveBridge ..)
  | runOnce => exact h.wrap (h.runOnce _)

end Pieces

end Kimana
