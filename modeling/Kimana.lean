import Kimana.ReadCommitted.Prog
import Kimana.ReadCommitted.System
import Kimana.ReadCommitted.Rely
import Kimana.ReadCommitted.Point
import Kimana.Table
import Kimana.Contract
import Kimana.Util
import Kimana.Util.Rate
import Kimana.Settlement.Units
import Kimana.AppState
import Kimana.World
import Kimana.Write
import Kimana.World.Frame
import Kimana.World.Schema
import Kimana.World.Effect
import Kimana.Transaction
import Kimana.Ledger
import Kimana.Ledger.Posting
import Kimana.Ledger.Balance
import Kimana.Ledger.Running
import Kimana.Screening
import Kimana.Transfers.StateMachine
import Kimana.Transfers.Engine
import Kimana.Transfers.Path
import Kimana.Transfers.Transition
import Kimana.Transfers.Commit
import Kimana.Transfers.Advance
import Kimana.Quote
import Kimana.Quote.Firm
import Kimana.Transfers.Service
import Kimana.Transfers.Create
import Kimana.SettlementWallet
import Kimana.SettlementWallet.Trade
import Kimana.Collections
import Kimana.Collections.Inbound
import Kimana.Settlement.Listener
import Kimana.Settlement.Pass
import Kimana.Op
import Kimana.Op.Run
import Kimana.Op.Effect
import Kimana.Op.Funds
import Kimana.Settlement.Stall
import Kimana.Transfers.Stranded
import Kimana.Settlement.Timing
import Kimana.Collections.Credit
import Kimana.Collections.Request
import Kimana.Collections.Orphan
import Kimana.ReadCommitted.Keyed
import Kimana.Collections.Opened
import Kimana.SettlementWallet.Book
import Kimana.Op.Tenant
import Kimana.SettlementWallet.Value
import Kimana.SettlementWallet.Replay
import Kimana.Transfers.Claim
import Kimana.Transfers.Funding
import Kimana.Transfers.History
import Kimana.Transfers.Hold
import Kimana.Transfers.AuditTrail
import Kimana.Transfers.Position
import Kimana.Transfers.Timeline
import Kimana.Transfers.Rejection
import Kimana.Transfers.Refund
import Kimana.Transfers.Exhaustion
import Kimana.Ledger.Solvency
import Kimana.Ledger.Reconciliation
import Kimana.Onboarding.Approval
import Kimana.Onboarding.Consistency
import Kimana.Onboarding.Lockout
import Kimana.Onboarding.Rescreen
import Kimana.FileSystem.Path
import Kimana.FileSystem.Tree
import Kimana.Storage
import Kimana.Collections.Memo
import Kimana.Ledger.Statement
import Kimana.ReadCommitted.Held
import Kimana.ReadCommitted.Secured
import Kimana.ReadCommitted.Never
import Kimana.Transfers.Cites
import Kimana.Transfers.Compensation
import Kimana.Transfers.Exposure
import Kimana.Transfers.Expiry
import Kimana.Onboarding.Documents
import Kimana.Settlement.Amount
import Kimana.Collections.Dollars
import Kimana.Collections.Webhook
import Kimana.Collections.Provenance
import Kimana.Settlement.RateText
import Kimana.Settlement.Ranges
import Kimana.Settlement.Reorg
import Kimana.Settlement.Complete
import Kimana.ReadCommitted.Order
import Kimana.Util.Luhn
import Kimana.Auth
import Kimana.Auth.Directory
import Kimana.Auth.Run
import Kimana.Auth.AccountNumber
import Kimana.Auth.Identity
import Kimana.Auth.Session
import Kimana.Resilience
import Kimana.Resilience.Trace
import Kimana.Resilience.Overlap
import Kimana.Fx
import Kimana.Fx.Fallback
import Kimana.Transfers.Loop
import Kimana.Op.Piece
import Kimana.Ledger.FirstUse
