import Kimana.World
import Kimana.ReadCommitted.Prog

/-!
# Writes, row locks and program points

The statements that change the database, as data, and the row locks they need.  A unique
constraint is a lock as well: an insert waits for the transaction that inserted the same key.
-/

namespace Kimana

open ReadCommitted Table

/-- The statements that change the database. -/
inductive Write
  | insertTransfer (row : TransferRow)
  | setStatus (id : Uuid) (status : TransferStatus) (now : Time)
  | setSettlementRef (id : Uuid) (ref : B256)
  | insertHistory (row : HistoryRow)
  | insertAccount (row : AccountRow)
  | insertEntry (row : LedgerEntry)
  | insertAudit (row : AuditRow)
  | consumeQuote (id transferId : Uuid)
  | insertTrade (row : TradeRow)
  | insertInbound (row : InboundPayment)
  | payCollection (id : Uuid) (now : Time)
  | cancelCollection (id : Uuid) (now : Time)
  | insertEvent (row : SettlementEvent)
  | saveCursor (row : CursorRow)
  deriving DecidableEq

/-- `insert .. on conflict (vault) do update`. -/
def upsertCursor (row : CursorRow) (rows : List CursorRow) : List CursorRow :=
  rows.filter (fun c => c.vault != row.vault) ++ [row]

/-- Carry out one statement. -/
def Write.apply : Write → World → World
  | insertTransfer row, d => { d with transfers := d.transfers ++ [row] }
  | setStatus id status now, d => { d with
      transfers := updateWhere (·.id = id) (·.withStatus status now) d.transfers }
  | setSettlementRef id ref, d => { d with
      transfers := updateWhere (·.id = id) (·.withRef ref) d.transfers }
  | insertHistory row, d => { d with history := d.history ++ [row] }
  | insertAccount row, d => { d with accounts := d.accounts ++ [row] }
  | insertEntry row, d => { d with ledger := d.ledger ++ [row] }
  | insertAudit row, d => { d with audit := d.audit ++ [row] }
  | consumeQuote id transferId, d => { d with
      quotes := updateWhere (fun q => q.id = id && q.consumedByTransferId.isNone)
        (·.consumedBy transferId) d.quotes }
  | insertTrade row, d => { d with trades := d.trades ++ [row] }
  | insertInbound row, d => { d with inbound := d.inbound ++ [row] }
  | payCollection id now, d => { d with
      collections := updateWhere (·.id = id) (·.asPaid now) d.collections }
  | cancelCollection id now, d => { d with
      collections := updateWhere (·.id = id) (·.asCancelled now) d.collections }
  | insertEvent row, d => { d with events := d.events ++ [row] }
  | saveCursor row, d => { d with cursors := upsertCursor row d.cursors }

instance : Store World Write where
  apply := Write.apply
  seq d := d.nextId
  bump d := { d with nextId := d.nextId + 1 }
  seq_apply w d := by cases w <;> rfl
  seq_bump _ := rfl

@[simp] theorem store_apply (w : Write) (d : World) : Store.apply w d = w.apply d := rfl

/-- Row locks, and the unique keys an insert waits for. -/
inductive Key
  | customer (id : Uuid)
  | transfer (id : Uuid)
  | account (id : Uuid)
  | quote (id : Uuid)
  | collection (id : Uuid)
  | accountKey (customerId : Uuid) (currency : LedgerCurrency)
  | transferKey (customerId : Uuid) (key : String)
  | transferReference (reference : String)
  | settlementRef (ref : B256)
  | tradeKey (customerId : Uuid) (key : String)
  | tradeReference (reference : String)
  | paymentKey (provider providerPaymentId : String)
  | eventKey (txHash : B256) (logIndex : ℕ)
  deriving DecidableEq

/-- Where a listener's pass stands. -/
inductive PassPoint
  /-- In no pass. -/
  | idle
  /-- The cursor was read, its hash not yet compared. -/
  | found (cursor : Option (ℕ × BlockHash))
  /-- The comparison is done; these logs were read and are not yet handled. -/
  | past (logs : List RpcLog)
  /-- Everything is handled; the cursor is about to be saved with this hash. -/
  | closing (hash : BlockHash)
  deriving DecidableEq

/-- Where a call stands, as far as statements about runs need it. -/
structure Label where
  /-- The transfer whose row the call is about to lock. -/
  locking : Option Uuid := none
  /-- The account whose balance the call has found sufficient. -/
  funds : Option Uuid := none
  /-- The account whose balance the call is about to check, and the amount it asks for. -/
  check : Option (Uuid × ℤ) := none
  /-- The point of its listener pass. -/
  pass : PassPoint := .idle
  deriving DecidableEq, Inhabited

/-- About to lock a transfer's row, or not. -/
def Label.withLocking (l : Label) (id : Option Uuid) : Label := { l with locking := id }

/-- Having found funds on an account, or not. -/
def Label.withFunds (l : Label) (acct : Option Uuid) : Label := { l with funds := acct }

/-- About to check a balance, or not. -/
def Label.withCheck (l : Label) (c : Option (Uuid × ℤ)) : Label := { l with check := c }

/-- At a point of a pass. -/
def Label.withPass (l : Label) (p : PassPoint) : Label := { l with pass := p }

/-- Database programs of the backend. -/
abbrev Tx := Prog World Write Key Label ApiError

/-- A connection inside a transaction: `now()` is the time the transaction began. -/
structure Conn where
  now : Time

/-- Begin a transaction. -/
def begin : Tx Conn := do return ⟨(← Tx.query).clock⟩

end Kimana
