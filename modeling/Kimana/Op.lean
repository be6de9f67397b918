import Kimana.Collections
import Kimana.Settlement.Listener
import Kimana.SettlementWallet
import Kimana.Transfers.Path
import Kimana.Transfers.Service
import Kimana.Transaction

/-!
# Operations

The entry points of the backend as programs of one type, and what a transaction of each may
commit.

* `Op.prog` : the program of an operation.
* `Op.Commits` : what it may commit, in brief (`brief`).
* `rules` : the rules of a system of operations.
-/

namespace Kimana

open ReadCommitted Engine TransferStatus

/-- Why an operation fails. -/
inductive Failure
  | api (e : ApiError)
  | listener (e : Listener.ListenerError)
  deriving DecidableEq

/-- What an operation answers. -/
inductive Answer
  | none
  | transfer (t : Transfer)
  | status (s : TransferStatus)
  | entry (id : Uuid)
  | outcome (o : OnchainOutcome)
  | trade (row : TradeRow)
  | collection (s : Collections.Selected)
  | ack (a : Collections.WebhookAck)
  | applied (b : Bool)
  | block (n : Option ℕ)
  deriving DecidableEq

/-- The operations. -/
inductive Op
  | createTransfer (state : AppState) (session : Session) (input : Service.CreateTransferInput)
      (body : String) (bodies : ℕ → String)
  | advanceOnce (state : AppState) (id : Uuid) (actorId : Option Uuid) (body : String)
  | advanceToCompletion (state : AppState) (id : Uuid) (bodies : ℕ → String)
  | expireTransfer (id : Uuid) (actorId : Option Uuid)
  | reverseTransfer (id : Uuid) (reason : String) (actorId : Option Uuid)
  | applyOnchain (id : Uuid) (target : OnchainTarget) (payload : JObj)
  | resolveScreeningHold (id : Uuid) (decision : ScreeningDecision) (reason : Option String)
      (actorId : Option Uuid) (body : String)
  | executeTrade (session : Session) (input : SettlementWallet.TradeInput)
      (feed : Except ApiError SettlementWallet.WalletRate) (body : String)
  | cancelCollection (state : AppState) (session : Session) (id : Uuid)
      (answer : Except ApiError Unit)
  | applyInbound (p : Collections.Inbound)
  | receiveYellowcard (state : AppState) (w : Collections.YellowCardDelivery)
  | receiveBridge (state : AppState) (w : Collections.BridgeDelivery)
  | runOnce (cfg : Listener.ListenerConfig)

/-- Programs of operations. -/
abbrev OpProg := Prog World Write Key Label Failure Answer

/-- A program whose answers are wrapped. -/
def wrap {E A : Type} (e : E → Failure) (a : A → Answer) (p : Prog World Write Key Label E A) :
    OpProg := (p.mapError e).bind fun x => .ret (a x)

/-- `apply_onchain` in a transaction of its own. -/
def deliver (id : Uuid) (target : OnchainTarget) (payload : JObj) : Tx OnchainOutcome := do
  let conn ← begin
  let outcome ← Engine.applyOnchain conn id target payload
  Tx.commit
  return outcome

/-- The program of an operation. -/
def Op.prog : Op → OpProg
  | createTransfer state session input body bodies =>
    wrap .api .transfer (Service.createTransfer state session input body bodies)
  | advanceOnce state id actorId body =>
    wrap .api .status (Engine.advanceOnce state id actorId body)
  | advanceToCompletion state id bodies =>
    wrap .api .status (Engine.advanceToCompletion state id bodies)
  | expireTransfer id actorId => wrap .api (fun _ => .none) (Engine.expireTransfer id actorId)
  | reverseTransfer id reason actorId =>
    wrap .api .entry (Engine.reverseTransfer id reason actorId)
  | applyOnchain id target payload => wrap .api .outcome (deliver id target payload)
  | resolveScreeningHold id decision reason actorId body =>
    wrap .api .status (Engine.resolveScreeningHold id decision reason actorId body)
  | executeTrade session input feed body =>
    wrap .api .trade (SettlementWallet.executeTrade session input feed body)
  | cancelCollection state session id answer =>
    wrap .api .collection (Collections.cancelCollection state session id answer)
  | applyInbound p => wrap .api .applied (Collections.applyInbound p)
  | receiveYellowcard state w => wrap .api .ack (Collections.receiveYellowcard state w)
  | receiveBridge state w => wrap .api .ack (Collections.receiveBridge state w)
  | runOnce cfg => wrap .listener .block (Listener.runOnce cfg)

end Kimana
