import Kimana.Transfers.Walk

/-!
# Creating transfers and the connection pool

`createTransfer` looks its idempotency key up a second time under the customer's row lock, on a
connection of its own, while its transaction holds another.

* `neverStuck_iff` : **calls of `createTransfer` never wait for one another for good exactly as
  long as fewer of them are in flight than the pool has connections**.
* `exhausted_by_ten` : ten calls at once, on the pool of ten that the backend opens, can.
-/

namespace Kimana.Service

open ReadCommitted Ledger

/-- The size of the pool that `db::connect` opens. -/
def maxConnections : ℕ := 10

/-- A row lock on `customers`. -/
def IsCustomer (k : Key) : Prop := ∃ id, k = .customer id

/-- The arguments of a call of `createTransfer`. -/
structure CreateRequest where
  state : AppState
  session : Session
  input : CreateTransferInput
  body : String
  bodies : ℕ → String

/-- The call. -/
def CreateRequest.prog (r : CreateRequest) : Tx Transfer :=
  createTransfer r.state r.session r.input r.body r.bodies

/-- With `n` connections and at most `m` calls of `createTransfer` in flight at once, in no
reachable state is every call in flight waiting for a connection or for a customer's row that
another one holds, whatever else happens to the database. -/
def NeverStuck (n m : ℕ) : Prop :=
  ∀ (env : World → World → Prop) (calls : ℕ → CreateRequest) (d : World)
    (s : Pooled ℕ World Write Key Label ApiError Transfer),
    PoolReach env n m (.idle ⟨d, fun i => .start (calls i).prog⟩) s → ¬s.Stuck IsCustomer n

/-! ### One customer lock -/

/-- The program locks no customer. -/
abbrev Free {A : Type} (p : Tx A) : Prop := Walks (fun _ => True) (fun k => ¬IsCustomer k) p

/-- A creation may lock whatever is no customer. -/
theorem creating_free (quoteId : Uuid) :
    Walks.Creating quoteId (fun _ => True) fun k => ¬IsCustomer k where
  write _ _ _ := trivial
  rows _ _ := trivial
  lock k hk := by rintro ⟨id, rfl⟩; exact hk
  inserts _ := trivial
  claims _ := trivial
  refers _ _ := trivial
  keys k hk := fun ⟨id, he⟩ => hk id he

theorem Free.avoids_customers {A : Type} {p : Tx A} (h : Free p) : p.Avoids IsCustomer := by
  have := h.avoids
  simpa only [not_not] using this

/-- The limits are read under the one customer lock of a transaction. -/
theorem oneLock_lockCustomerLimits {A : Type} (c : Uuid) {g : CustomerLimits → Tx A}
    (hg : ∀ limits, Free (g limits)) :
    ((lockCustomerLimits c).bind g).OneLock IsCustomer False := by
  refine ⟨fun _ => not_false, fun snap cur => Prog.Avoids.oneLock ?_ _⟩
  refine Prog.Avoids.bind ?_ fun limits => (hg limits).avoids_customers
  dsimp only
  split <;> trivial

/-- **A transaction of `createTransfer` locks one customer.** -/
theorem oneLock_createTransfer (r : CreateRequest) : r.prog.OneLock IsCustomer False := by
  unfold CreateRequest.prog createTransfer
  generalize Util.byteLen (Util.trim r.input.idempotencyKey) = len
  split
  · trivial
  refine (Free.avoids_customers (Walks.findByIdempotencyKey ..)).bind_oneLock fun r' => ?_
  split
  · trivial
  refine (Free.avoids_customers (Walks.query.bind fun _ => .ret _)).bind_oneLock fun q => ?_
  split
  · trivial
  refine (Free.avoids_customers Walks.query).bind_oneLock fun d => ?_
  split
  · trivial
  refine (Free.avoids_customers Walks.query).bind_oneLock fun d => ?_
  split
  · trivial
  refine (Free.avoids_customers (Walks.query.bind fun _ => .ret _)).bind_oneLock fun conn => ?_
  refine oneLock_lockCustomerLimits _ fun limits => ?_
  refine (Walks.findByIdempotencyKey ..).bind fun again => ?_
  split
  · exact Walks.rollback.bind fun _ => .ret _
  refine (Walks.checkExposureLimits ..).bind fun _ =>
    (Walks.insertTransfer (creating_free _) _ _ _ _ _ _ _ rfl).bind fun inserted => ?_
  split
  · exact .ret _
  refine (Walks.advanceToAwaitingFunds (creating_free r.input.quoteId).toBasic ..).bind fun _ =>
    .bind (Walks.query.bind fun _ => .ret _) ?_
  intro t
  split
  · exact .ret _
  · exact .fail _

/-! ### As many calls as connections -/

/-- A creation. -/
def sampleRequest : CreateRequest :=
  ⟨sampleState false, sampleSession, ⟨"key-0001", 3, 2⟩, "A", fun _ => "A"⟩

/-- `n` calls with the same arguments can be stuck on `n` connections. -/
theorem stuck_sampleRequest {n m : ℕ} (hn : 1 ≤ n) (hm : n ≤ m) :
    ∃ s : Pooled ℕ World Write Key Label ApiError Transfer,
      PoolReach (fun _ _ => False) n m
        (.idle ⟨sampleWorld "NG", fun _ => .start sampleRequest.prog⟩) s ∧
      s.Stuck IsCustomer n :=
  -- Five lookups go before the lock: the key, the quote, the clock, the recipient and the clock.
  exists_stuck hn hm (k := .customer 1) ⟨1, rfl⟩ (q := 5) (by decide +kernel)

/-- **Calls of `createTransfer` never wait for one another for good exactly as long as fewer of
them are in flight than the pool has connections.** -/
theorem neverStuck_iff {n m : ℕ} (hn : 1 ≤ n) : NeverStuck n m ↔ m < n := by
  constructor
  · intro h
    by_contra hm
    obtain ⟨s, hr, hstuck⟩ := stuck_sampleRequest hn (not_lt.1 hm)
    exact h _ (fun _ => sampleRequest) (sampleWorld "NG") s hr hstuck
  · intro hm env calls d s hr
    exact not_stuck hm (fun i => oneLock_createTransfer (calls i)) hr

/-- Nine calls at once leave a connection of the backend's pool. -/
theorem neverStuck_nine : NeverStuck maxConnections 9 :=
  (neverStuck_iff (by decide)).2 (by decide)

/-- Ten calls at once need not: each has a connection, one of them holds the customer's row and
waits for an eleventh, the others wait for the row. -/
theorem exhausted_by_ten : ∃ s : Pooled ℕ World Write Key Label ApiError Transfer,
    PoolReach (fun _ _ => False) maxConnections 10
      (.idle ⟨sampleWorld "NG", fun _ => .start sampleRequest.prog⟩) s ∧
    s.Stuck IsCustomer maxConnections :=
  stuck_sampleRequest (by decide) le_rfl

end Kimana.Service
