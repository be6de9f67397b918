import Kimana.Op.Run
import Kimana.ReadCommitted.Pool
import Kimana.ReadCommitted.Writes
import Kimana.Transfers.Payload

/-!
# Walking through the engine

What the pieces of a creation and of the engine may write and lock, whatever they read.

* `Walks V K` : every write of a piece is of kind `V`, and every row lock of kind `K`.
* `Posts`, `Basic` : the kinds have what a transition needs besides its history row, and what every
  transition forward needs.
-/

namespace Kimana

open ReadCommitted

/-- The writes of a transition. -/
def Write.IsEngine : Write → Prop
  | setStatus .. | insertHistory .. | insertAudit .. | insertEntry .. | insertAccount .. => True
  | _ => False

/-- The row locks of a transition. -/
def Key.IsEngine : Key → Prop
  | transfer _ | account _ | accountKey .. => True
  | _ => False

/-- A history row that the engine writes on the way forward, or to reject or expire a transfer:
its payload has what is read from it. -/
structure HistoryRow.Forward (r : HistoryRow) : Prop where
  readable : Repo.Readable r.status r.payload
  status : r.status ≠ .reversed

/-- Every write is of kind `V`, every row lock of kind `K`, and nothing changes at once. -/
structure Walks (V : Write → Prop) (K : Key → Prop) {A : Type} (p : Tx A) : Prop where
  writes : p.Writes V (fun _ => False) fun _ => True
  avoids : p.Avoids fun k => ¬K k

namespace Walks

variable {V : Write → Prop} {K : Key → Prop} {A B : Type}

theorem ret (a : A) : Walks V K (.ret a) := ⟨trivial, trivial⟩

theorem fail (e : ApiError) : Walks V K (.fail e : Tx A) := ⟨trivial, trivial⟩

theorem query : Walks V K Tx.query := ⟨fun _ => trivial, fun _ => trivial⟩

theorem read : Walks V K Tx.read := ⟨fun _ => trivial, fun _ => trivial⟩

theorem fresh : Walks V K Tx.fresh := ⟨fun _ => trivial, fun _ => trivial⟩

theorem write {w : Write} (h : V w) : Walks V K (Tx.write w) := ⟨⟨h, trivial⟩, trivial⟩

theorem commit : Walks V K Tx.commit := ⟨trivial, trivial⟩

theorem rollback : Walks V K Tx.rollback := ⟨trivial, trivial⟩

theorem mark (l : Label → Label) : Walks V K (Tx.mark l) := ⟨⟨trivial, trivial⟩, trivial⟩

theorem bind {p : Tx B} {g : B → Tx A} (hp : Walks V K p) (hg : ∀ b, Walks V K (g b)) :
    Walks V K (p.bind g) :=
  ⟨hp.writes.bind fun b => (hg b).writes, hp.avoids.bind fun b => (hg b).avoids⟩

theorem tryCatch {p : Tx A} {h : ApiError → Tx A} (hp : Walks V K p) (hh : ∀ e, Walks V K (h e)) :
    Walks V K (p.tryCatch h) :=
  ⟨hp.writes.tryCatch fun e => (hh e).writes, hp.avoids.tryCatch fun e => (hh e).avoids⟩

theorem locking {k : Key} {f : World → World → Tx A} (hk : K k) (hf : ∀ d d', Walks V K (f d d')) :
    Walks V K (Prog.lock k f) :=
  ⟨fun d d' => (hf d d').writes, not_not.2 hk, fun d d' => (hf d d').avoids⟩

theorem lock {k : Key} (hk : K k) : Walks V K (Tx.lock k) := locking hk fun _ _ => ret _

/-- The kinds have what a transition needs besides its history row. -/
structure Posts (V : Write → Prop) (K : Key → Prop) : Prop where
  write : ∀ w, w.IsEngine → (∀ row, w ≠ .insertHistory row) → V w
  lock : ∀ k, k.IsEngine → K k

/-- The kinds have what every transition forward needs. -/
structure Basic (V : Write → Prop) (K : Key → Prop) : Prop extends Posts V K where
  rows : ∀ row : HistoryRow, row.Forward → V (.insertHistory row)

/-- The kinds have what a creation needs that claims a quote. -/
structure Creating (quoteId : Uuid) (V : Write → Prop) (K : Key → Prop) : Prop
    extends Basic V K where
  inserts : ∀ row, V (.insertTransfer row)
  claims : ∀ id, V (.consumeQuote quoteId id)
  refers : ∀ id ref, V (.setSettlementRef id ref)
  keys : ∀ k, (∀ id, k ≠ .customer id) → K k

theorem forwardStep_ne_reversed {s target : TransferStatus} (h : s.forwardStep = some target) :
    target ≠ .reversed := by
  rintro rfl
  cases s <;> cases h

section Engine

variable (h : Posts V K)
include h

theorem getOrCreateAccountByCode (c : Uuid) (cur : LedgerCurrency) :
    Walks V K (Ledger.getOrCreateAccountByCode c cur) := by
  refine read.bind fun d => ?_
  split
  · exact ret _
  · refine (lock (h.lock _ (by trivial))).bind fun _ => read.bind fun d => ?_
    split
    · exact fail _
    · exact fresh.bind fun _ => (write (h.write _ (by trivial) (by nofun))).bind fun _ => ret _

omit h in
theorem toBigint (n : ℤ) : Walks V K (Ledger.toBigint n) := by
  unfold Ledger.toBigint
  split
  · exact ret _
  · exact fail _

omit h in
theorem accountBalanceMinor (acct : Uuid) : Walks V K (Ledger.accountBalanceMinor acct) :=
  read.bind fun _ => toBigint _

theorem appendEntry (conn : Conn) (acct : Uuid) (amt : ℤ) (cur : LedgerCurrency) (text : String)
    (src : EntrySource) (rev : Option Uuid) :
    Walks V K (Ledger.appendEntry conn acct amt cur text src rev) :=
  (lock (h.lock _ (by trivial))).bind fun _ => (accountBalanceMinor _).bind fun _ =>
    fresh.bind fun _ =>
    (write (h.write _ (by trivial) (by nofun))).bind fun _ => ret _

theorem postLeg (conn : Conn) (t : Engine.LockedTransfer) (cur : CurrencyCode) (amt : ℤ)
    {describe : Tx String} (hd : Walks V K describe) (rev : Option Uuid) :
    Walks V K (Engine.postLeg conn t cur amt describe rev) :=
  (getOrCreateAccountByCode h _ _).bind fun _ => hd.bind fun _ => appendEntry h ..

omit h in
theorem beneficiary (t : TransferRow) : Walks V K (Engine.beneficiary t) := by
  refine read.bind fun d => ?_
  split <;> exact ret _

theorem postLedgerFor (conn : Conn) (t : Engine.LockedTransfer) (source target : TransferStatus) :
    Walks V K (Engine.postLedgerFor conn t source target) := by
  unfold Engine.postLedgerFor
  split
  · exact (postLeg h _ _ _ _ (ret _) _).bind fun _ => ret _
  · exact (postLeg h _ _ _ _ (ret _) _).bind fun _ => ret _
  · exact (postLeg h _ _ _ _ ((beneficiary _).bind fun _ => ret _) _).bind fun _ => ret _
  · split
    · exact (postLeg h _ _ _ _ (ret _) _).bind fun _ => ret _
    · exact (postLeg h _ _ _ _ (ret _) _).bind fun _ => ret _
    · exact ret _
  · exact ret _

omit h in
theorem appendHistory (id : Uuid) (status : TransferStatus) (payload : Option JObj)
    (note : Option String)
    (hrow : ∀ row : HistoryRow, row.status = status → row.payload = payload →
      V (.insertHistory row)) :
    Walks V K (Repo.appendHistory id status payload note) :=
  read.bind fun _ => write (hrow _ rfl rfl)

theorem apply (conn : Conn) (t : Engine.LockedTransfer) (actorId : Option Uuid)
    (source target : TransferStatus) (payload : Option JObj)
    (hrow : ∀ row : HistoryRow, row.status = target → row.payload = payload →
      V (.insertHistory row)) :
    Walks V K (Engine.apply conn t actorId source target payload) := by
  unfold Engine.apply
  split
  · exact fail _
  · exact (appendHistory _ _ _ _ hrow).bind fun _ =>
      (write (h.write _ (by trivial) (by nofun))).bind fun _ =>
      (postLedgerFor h ..).bind fun _ => write (h.write _ (by trivial) (by nofun))

end Engine

section Forward

variable (h : Basic V K)
include h

/-- A transition forward. -/
theorem applyForward (conn : Conn) (t : Engine.LockedTransfer) (actorId : Option Uuid)
    (source target : TransferStatus) {payload : Option JObj} (hr : Repo.Readable target payload)
    (ht : target ≠ .reversed) : Walks V K (Engine.apply conn t actorId source target payload) :=
  apply h.toPosts _ _ _ _ _ _ fun row hs hp => h.rows row ⟨hs ▸ hp ▸ hr, hs ▸ ht⟩

theorem stepForward (state : AppState) (conn : Conn) (t : Engine.LockedTransfer)
    (actorId : Option Uuid) (source : TransferStatus) {target : TransferStatus} (body : String)
    (ht : source.forwardStep = some target) :
    Walks V K (Engine.stepForward state conn t actorId source target body) := by
  have happly : ∀ payload, Repo.Readable target payload →
      Walks V K ((Engine.apply conn t actorId source target payload).bind fun _ =>
        Tx.commit.bind fun _ => (Tx.mark (·.withFunds none)).bind fun _ => .ret target) :=
    fun payload hr => (applyForward h _ _ _ _ _ hr (forwardStep_ne_reversed ht)).bind fun _ =>
      commit.bind fun _ => (mark _).bind fun _ => ret _
  unfold Engine.stepForward Engine.payloadFor
  cases target
  case screened =>
    dsimp only
    split
    · exact query.bind fun _ => happly _ fun _ => rfl
    · exact happly _ fun _ => rfl
  all_goals first | exact happly _ fun _ => rfl | cases source <;> cases ht

theorem engineLock (id : Uuid) : Walks V K (Engine.lock id) := by
  refine (mark _).bind fun _ => locking (h.lock _ (by trivial)) fun snap cur =>
    (mark _).bind fun _ => ?_
  split
  · split
    · exact ret _
    · exact fail _
  · exact fail _

theorem advanceOnce (state : AppState) (id : Uuid) (actorId : Option Uuid) (body : String) :
    Walks V K (Engine.advanceOnce state id actorId body) := by
  refine (query.bind fun _ => ret _).bind fun conn => (engineLock h id).bind fun t => ?_
  dsimp only
  split
  · exact fail _
  split
  case h_1 => exact commit.bind fun _ => ret _
  case h_2 target htarget =>
  have ht := (Option.filter_eq_some_iff.1 htarget).1
  split
  · refine (getOrCreateAccountByCode h.toPosts ..).bind fun acct =>
      (accountBalanceMinor _).bind fun _ => ?_
    split
    · exact (applyForward h _ _ _ _ _ (fun _ => rfl) (by nofun)).bind fun _ =>
        commit.bind fun _ => ret _
    · exact (mark _).bind fun _ => stepForward h _ _ _ _ _ _ ht
  · exact stepForward h _ _ _ _ _ _ ht

theorem drive (state : AppState) (id : Uuid) (more : TransferStatus → Bool)
    (bodies : ℕ → String) (fuel : ℕ) (status : TransferStatus) :
    Walks V K (Engine.drive state id more bodies fuel status) := by
  induction fuel generalizing status with
  | zero => exact fail _
  | succ fuel ih =>
    unfold Engine.drive
    split
    case isFalse => exact ret _
    refine (tryCatch (advanceOnce h ..) fun e => ?_).bind fun next => ?_
    · split
      · exact ret _
      · exact fail _
    split
    · exact ret _
    split
    · exact ret _
    · exact ih _

theorem advanceToAwaitingFunds (state : AppState) (id : Uuid) (bodies : ℕ → String) :
    Walks V K (Engine.advanceToAwaitingFunds state id bodies) := by
  refine (query.bind fun d => ?_).bind fun status => drive h ..
  split
  · exact ret _
  · exact fail _

theorem advanceToCompletion (state : AppState) (id : Uuid) (bodies : ℕ → String) :
    Walks V K (Engine.advanceToCompletion state id bodies) := by
  refine (query.bind fun d => ?_).bind fun status => drive h ..
  split
  · exact ret _
  · exact fail _

theorem expireTransfer (id : Uuid) (actorId : Option Uuid) :
    Walks V K (Engine.expireTransfer id actorId) :=
  (query.bind fun _ => ret _).bind fun _ => (engineLock h id).bind fun _ =>
    (applyForward h _ _ _ _ _ (fun _ => rfl) (by nofun)).bind fun _ => commit

theorem resolveScreeningHold (id : Uuid) (decision : Engine.ScreeningDecision)
    (reason : Option String) (actorId : Option Uuid) (body : String) :
    Walks V K (Engine.resolveScreeningHold id decision reason actorId body) := by
  refine (query.bind fun _ => ret _).bind fun conn => (engineLock h id).bind fun t => ?_
  dsimp only
  split
  · exact fail _
  · cases decision
    all_goals
      exact (applyForward h _ _ _ _ _ (fun _ => rfl) (by nofun)).bind fun _ =>
        commit.bind fun _ => ret _

end Forward

section Creation

variable {quoteId : Uuid} (h : Creating quoteId V K)
include h

theorem insert (conn : Conn) (input : Repo.InsertTransfer) :
    Walks V K (Repo.insert conn input) := by
  refine fresh.bind fun _ => (lock (h.keys _ (by nofun))).bind fun _ =>
    (lock (h.keys _ (by nofun))).bind
    fun _ => (lock (h.keys _ (by nofun))).bind fun _ => read.bind fun _ => ?_
  split
  · exact ret _
  · exact (write (h.inserts _)).bind fun _ => ret _

theorem tryConsume (transferId : Uuid) : Walks V K (Quote.tryConsume quoteId transferId) := by
  refine locking (h.keys _ (by nofun)) fun _ cur => ?_
  split
  · split
    · exact (write (h.claims _)).bind fun _ => ret _
    · exact ret _
  · exact ret _

theorem setSettlementRef (state : AppState) (id : Uuid) :
    Walks V K (Repo.setSettlementRef state id) := by
  refine (lock (h.keys _ (by nofun))).bind fun _ => read.bind fun _ => ?_
  split
  · exact fail _
  · exact write (h.refers _ _)

omit h in
theorem findByIdempotencyKey (c : Uuid) (key : String) :
    Walks V K (Repo.findByIdempotencyKey c key) :=
  query.bind fun _ => ret _

theorem insertTransfer (state : AppState) (conn : Conn) (session : Session)
    (input : Service.CreateTransferInput) (quote : Quote.StoredQuote) (recipientId : Uuid)
    (body : String) (hq : quote.id = quoteId) :
    Walks V K (Service.insertTransfer state conn session input quote recipientId body) := by
  refine (insert h ..).bind fun r => ?_
  split
  · refine rollback.bind fun _ => (findByIdempotencyKey ..).bind fun r => ?_
    split
    · exact ret _
    · exact fail _
  · subst hq
    refine (tryConsume h _).bind fun ok => ?_
    split
    · have hrow : ∀ row : HistoryRow, row.status = .created → row.payload = none →
          V (.insertHistory row) := by
        intro row hs hp
        refine h.rows row ⟨?_, ?_⟩ <;> rw [hs]
        · exact fun _ => rfl
        · nofun
      have haudit : ∀ row, V (.insertAudit row) := fun row => h.write _ (by trivial) (by nofun)
      exact (setSettlementRef h ..).bind fun _ => (appendHistory _ _ _ _ hrow).bind fun _ =>
        (write (haudit _)).bind fun _ => commit.bind fun _ => ret _
    · exact rollback.bind fun _ => fail _

omit h in
theorem checkExposureLimits (state : AppState) (customerId : Uuid) (limits : Ledger.CustomerLimits)
    (quote : FirmQuote) :
    Walks V K (Service.checkExposureLimits state customerId limits quote) := by
  unfold Service.checkExposureLimits
  dsimp only
  split
  · exact fail _
  · refine (read.bind fun _ => toBigint _).bind fun _ => ?_
    split
    · exact fail _
    · exact ret _

end Creation

/-- A creation that may claim any quote. -/
theorem createTransfer (h : ∀ quoteId, Creating quoteId V fun _ => True) (state : AppState)
    (session : Session) (input : Service.CreateTransferInput) (body : String)
    (bodies : ℕ → String) :
    Walks V (fun _ => True) (Service.createTransfer state session input body bodies) := by
  unfold Service.createTransfer
  generalize Util.byteLen (Util.trim input.idempotencyKey) = len
  split
  · exact fail _
  refine (findByIdempotencyKey ..).bind fun existing => ?_
  split
  · exact ret _
  refine (query.bind fun _ => ret _).bind fun quote => ?_
  split
  · exact fail _
  refine query.bind fun _ => ?_
  split
  · exact fail _
  refine query.bind fun _ => ?_
  split
  · exact fail _
  refine (query.bind fun _ => ret _).bind fun conn => ?_
  refine (locking trivial fun _ _ => ?_).bind fun limits => ?_
  · split
    · exact ret _
    · exact fail _
  refine (findByIdempotencyKey ..).bind fun again => ?_
  split
  · exact rollback.bind fun _ => ret _
  refine (checkExposureLimits ..).bind fun _ =>
    (insertTransfer (h _) _ _ _ _ _ _ _ rfl).bind fun inserted => ?_
  split
  · exact ret _
  refine (advanceToAwaitingFunds (h input.quoteId).toBasic ..).bind fun _ =>
    (query.bind fun _ => ret _).bind fun t => ?_
  split
  · exact ret _
  · exact fail _

end Walks

end Kimana
