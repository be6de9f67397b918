import Kimana.Op.Run
import Kimana.ReadCommitted.Point

/-!
# A trade's key is looked up before the balance is checked

A call of `executeTrade` looks its idempotency key up before it waits for the account, checks the
balance once it has the account, and notices a trade committed meanwhile only when its insert
conflicts.

* `replayed_iff` : **a call whose check runs after a trade with its key was committed answers with
  that trade exactly when the balance is read and still covers the amount**.
* `not_replayed_of_spent` : two equal calls, of which the second finds the money spent.
-/

namespace Kimana.SettlementWallet

open ReadCommitted Util Ledger

/-! ### Programs without labels -/

/-- The program sets no label, and every write of it satisfies `P`. -/
structure Plain (P : Write → Prop) {A : Type} (p : Tx A) : Prop where
  writes : p.Writes P (fun _ => True) fun _ => False

namespace Plain

variable {P : Write → Prop} {A B : Type}

theorem ret (a : A) : Plain P (.ret a) := ⟨trivial⟩

theorem fail (e : ApiError) : Plain P (.fail e : Tx A) := ⟨trivial⟩

theorem query : Plain P Tx.query := ⟨fun _ => trivial⟩

theorem read : Plain P Tx.read := ⟨fun _ => trivial⟩

theorem fresh : Plain P Tx.fresh := ⟨fun _ => trivial⟩

theorem write {w : Write} (h : P w) : Plain P (Tx.write w) := ⟨h, trivial⟩

theorem lock (k : Key) : Plain P (Tx.lock k) := ⟨fun _ _ => trivial⟩

theorem commit : Plain P Tx.commit := ⟨trivial⟩

theorem rollback : Plain P Tx.rollback := ⟨trivial⟩

theorem bind {p : Tx B} {g : B → Tx A} (hp : Plain P p) (hg : ∀ b, Plain P (g b)) :
    Plain P (p.bind g) := ⟨hp.writes.bind fun b => (hg b).writes⟩

theorem begin : Plain P Kimana.begin := query.bind fun _ => ret _

theorem findByKey (c : Uuid) (key : String) : Plain P (SettlementWallet.findByKey c key) :=
  query.bind fun _ => ret _

theorem getOrCreateAccountByCode (h : ∀ a, P (.insertAccount a)) (c : Uuid) (cur : LedgerCurrency) :
    Plain P (Ledger.getOrCreateAccountByCode c cur) := by
  refine read.bind fun d => ?_
  split
  · exact ret _
  · refine (lock _).bind fun _ => read.bind fun d => ?_
    split
    · exact fail _
    · exact fresh.bind fun _ => (write (h _)).bind fun _ => ret _

theorem accountBalanceMinor (acct : Uuid) : Plain P (Ledger.accountBalanceMinor acct) := by
  refine read.bind fun d => ?_
  unfold toBigint
  split
  · exact ret _
  · exact fail _

theorem appendEntry (h : ∀ e, P (.insertEntry e)) (conn : Conn) (acct : Uuid) (amt : ℤ)
    (cur : LedgerCurrency) (text : String) (src : EntrySource) (rev : Option Uuid) :
    Plain P (Ledger.appendEntry conn acct amt cur text src rev) :=
  (lock _).bind fun _ => (accountBalanceMinor acct).bind fun _ => fresh.bind fun _ =>
    (write (h _)).bind fun _ => ret _

theorem insertTrade (h : ∀ row, P (.insertTrade row)) (row : TradeRow) :
    Plain P (SettlementWallet.insertTrade row) := by
  refine (lock _).bind fun _ => read.bind fun d => ?_
  split
  · exact ret _
  · refine (lock _).bind fun _ => read.bind fun d => ?_
    split
    · exact fail _
    · exact fresh.bind fun _ => (write (h _)).bind fun _ => ret _

end Plain

/-! ### The check -/

/-- The error of a check that fails. -/
def insufficient (label : String) : Failure :=
  .api (.validation ("Insufficient " ++ label ++ " balance."))

/-- The balance of an account is read, and covers the amount. -/
def Covers (d : World) (acct : Uuid) (minor : ℤ) : Prop :=
  minor ≤ d.balance acct ∧ FitsI64 (d.balance acct)

/-- What is left of the program can only answer with a trade, as long as that has the key. -/
def Answers (customerId : Uuid) (key : String) (row : TradeRow) (p : OpProg) (loc : Loc) : Prop :=
  p.Points (fun d => d.tradeByKey customerId key = some row) (fun _ _ => True)
    (fun r _ => r = .ok (.trade row)) loc

/-- The call is about to check a balance: it has written nothing but new accounts, gives up if the
amount is not covered or the balance not read, and else can only answer with the trade that has its
key, if there is one. -/
structure AtCheck (customerId : Uuid) (key : String) (acct : Uuid) (minor : ℤ) (p : OpProg)
    (loc : Loc) : Prop where
  opened : brief loc.pending = []
  reads : ∃ f, p = .read f ∧ ∀ d,
    (¬ Covers d acct minor → ∃ e, f d = .fail e) ∧
    (Covers d acct minor → ∀ row, Answers customerId key row (f d) loc)

/-- Where the label says that a call is about to check a balance, it is. -/
def Marked (customerId : Uuid) (key : String) (p : OpProg) (loc : Loc) : Prop :=
  ∀ acct minor, loc.label.check = some (acct, minor) → AtCheck customerId key acct minor p loc

/-- A trade that is there stays there under the call's own writes. -/
theorem tradeByKey_applyAll {d : World} {customerId : Uuid} {key : String} {row : TradeRow}
    (h : d.tradeByKey customerId key = some row) (ws : List Write) :
    (applyAll ws d).tradeByKey customerId key = some row := by
  unfold World.tradeByKey at h ⊢
  rw [trades_applyAll, List.find?_append, h]
  rfl

/-- The program of a trade, as an operation runs it. -/
def asOp (p : Tx TradeRow) : OpProg := wrap .api .trade p

/-- What is asked of the points of a trade. -/
def Checks (customerId : Uuid) (key : String) (p : OpProg) (loc : Loc) : Prop :=
  p.Points (fun _ => True) (Marked customerId key) (fun _ _ => True) loc

/-- A piece of the program without labels leaves the label as it is, and the writes of its kind. -/
theorem checks_plain {A : Type} {customerId : Uuid} {key : String} {P : Write → Prop} {p : Tx A}
    {g : A → Tx TradeRow} {loc : Loc} (hp : Plain P p) (hcheck : loc.label.check = none)
    (hws : ∀ w ∈ loc.pending, P w)
    (hg : ∀ a loc', loc'.label.check = none → (∀ w ∈ loc'.pending, P w) →
      Checks customerId key (asOp (g a)) loc') : Checks customerId key (asOp (p.bind g)) loc := by
  unfold Checks Prog.Points asOp wrap at hg ⊢
  rw [points_bind, points_mapError]
  refine points_bind_of (points_of_writes (G := fun l => l.check = none) (fun _ _ hf => hf.elim)
    hp.writes hcheck hws) (fun p' loc' hl acct minor hc => ?_) (fun a loc' h => ?_)
    fun _ _ _ => trivial
  · rw [hl.1] at hc
    cases hc
  · have := hg a loc' h.1 h.2
    rwa [points_bind, points_mapError] at this

/-- A program without labels is about to check nothing. -/
theorem checks_of_plain {customerId : Uuid} {key : String} {p : Tx TradeRow} {loc : Loc}
    (hp : Plain (fun _ => True) p) (hcheck : loc.label.check = none) :
    Checks customerId key (asOp p) loc := by
  rw [← Prog.bind_ret p]
  exact checks_plain hp hcheck (fun _ _ => trivial) fun _ _ _ _ => trivial

section Trade

variable (session : Session) (input : TradeInput) (conn : Conn) (row : TradeRow)
  (localAcct usdcAcct : Uuid) (usdcMinor localMinor : ℤ)

/-- What a trade does once the balance is found to cover it. -/
def settle : Tx TradeRow := do
  Tx.mark (·.withCheck none)
  match ← insertTrade row with
  | none => do
    Tx.rollback
    match ← findByKey session.customerId input.idempotencyKey with
    | some row => return row
    | none => Prog.fail .serverError
  | some row => do
    let (localSigned, usdcSigned, description) := legs input.kind localMinor usdcMinor
    let _ ← postSettlementEntry conn
      ⟨localAcct, row.id, localSigned, .fiat input.localCurrency, description⟩
    let (_, usdcBalance) ← postSettlementEntry conn
      ⟨usdcAcct, row.id, usdcSigned, .usdc, description⟩
    Tx.write (.insertAudit (tradeAudit session row usdcBalance))
    Tx.commit
    return row

theorem checks_settle {customerId : Uuid} {key : String} {loc : Loc} :
    Checks customerId key
      (asOp (settle session input conn row localAcct usdcAcct usdcMinor localMinor)) loc := by
  change Checks customerId key (asOp (Prog.bind (insertTrade row) _))
    (loc.at' (loc.label.withCheck none))
  refine checks_of_plain
    ((Plain.insertTrade (fun _ => trivial) row).bind fun r => ?_) rfl
  split
  · refine Plain.rollback.bind fun _ => (Plain.findByKey _ _).bind fun r => ?_
    split
    · exact .ret _
    · exact .fail _
  · exact (Plain.appendEntry (fun _ => trivial) ..).bind fun _ =>
      (Plain.appendEntry (fun _ => trivial) ..).bind fun _ =>
        (Plain.write trivial).bind fun _ => Plain.commit.bind fun _ => .ret _

/-- With its key taken, the insert conflicts, and the trade that has the key is found. -/
theorem answers_settle {other : TradeRow} {loc : Loc}
    (hkey : row.customerId = session.customerId ∧ row.idempotencyKey = input.idempotencyKey) :
    Answers session.customerId input.idempotencyKey other
      (asOp (settle session input conn row localAcct usdcAcct usdcMinor localMinor)) loc := by
  refine ⟨trivial, fun d d' _ _ => ⟨trivial, fun d₁ h₁ => ?_⟩⟩
  have hsome := tradeByKey_applyAll h₁ loc.pending
  rw [← hkey.1, ← hkey.2] at hsome
  have htaken : ((applyAll loc.pending d₁).tradeByKey row.customerId row.idempotencyKey).isSome :=
    hsome ▸ rfl
  dsimp only [Prog.bind]
  split
  case isFalse hfree => exact absurd htaken hfree
  case isTrue =>
    refine ⟨trivial, trivial, fun d₂ h₂ => ?_⟩
    dsimp only [Prog.bind]
    rw [h₂]
    rfl

/-- What a trade does once its accounts are there and the debited one is locked. -/
theorem checks_check {loc : Loc} {label : String} {acct : Uuid} {minor : ℤ}
    (hkey : row.customerId = session.customerId ∧ row.idempotencyKey = input.idempotencyKey)
    (hopened : brief loc.pending = []) :
    Checks session.customerId input.idempotencyKey
      (asOp (Prog.mark (·.withCheck (some (acct, minor))) (.read fun d =>
        (toBigint (d.balance acct)).bind fun balance => if balance < minor then
          .fail (.validation ("Insufficient " ++ label ++ " balance."))
        else settle session input conn row localAcct usdcAcct usdcMinor localMinor))) loc := by
  refine ⟨fun acct' minor' hc => ⟨hopened, _, rfl, fun d => ⟨fun hno => ?_, fun hyes other => ?_⟩⟩,
    fun d _ => ?_⟩
  · cases hc
    dsimp only [toBigint]
    split
    case isFalse => exact ⟨_, rfl⟩
    case isTrue hfit =>
      have hlt : d.balance acct < minor := Int.not_le.1 fun hle => hno ⟨hle, hfit⟩
      refine ⟨insufficient label, ?_⟩
      simp only [Prog.pure_eq, Prog.bind, if_pos hlt]
      rfl
  · cases hc
    dsimp only [toBigint]
    rw [if_pos hyes.2]
    simp only [Prog.pure_eq, Prog.bind, if_neg (Int.not_lt.2 hyes.1)]
    exact answers_settle session input conn row localAcct usdcAcct usdcMinor localMinor hkey
  · dsimp only [toBigint]
    split
    case isFalse => trivial
    case isTrue =>
      simp only [Prog.pure_eq, Prog.bind]
      split
      · trivial
      · exact checks_settle session input conn row localAcct usdcAcct usdcMinor localMinor

end Trade

/-- Whatever has its label set in a trade's transaction is about to check the balance. -/
theorem checks_trade (session : Session) (input : TradeInput) (rate : WalletRate)
    (usdcMinor localMinor : ℤ) (body : String) {loc : Loc} (hcheck : loc.label.check = none)
    (hpending : loc.pending = []) :
    Checks session.customerId input.idempotencyKey
      (asOp (trade session input rate usdcMinor localMinor body)) loc := by
  have hopens : ∀ {ws : List Write}, (∀ w ∈ ws, w.brief = none) → brief ws = [] := fun h =>
    List.filterMap_eq_nil_iff.2 h
  refine checks_plain (P := fun w => w.brief = none) .begin hcheck (by simp [hpending])
    fun conn loc₁ h₁ hw₁ => ?_
  refine checks_plain (.getOrCreateAccountByCode (fun _ => rfl) _ _) h₁ hw₁
    fun localAcct loc₂ h₂ hw₂ => ?_
  refine checks_plain (.getOrCreateAccountByCode (fun _ => rfl) _ _) h₂ hw₂
    fun usdcAcct loc₃ h₃ hw₃ => ?_
  generalize debit input.kind localAcct usdcAcct input.localCurrency localMinor usdcMinor = what
  obtain ⟨acct, minor, label⟩ := what
  refine checks_plain (.lock _) h₃ hw₃ fun _ loc₄ h₄ hw₄ => ?_
  exact checks_check session input conn _ localAcct usdcAcct usdcMinor localMinor ⟨rfl, rfl⟩
    (hopens hw₄)

theorem checks_executeTrade (session : Session) (input : TradeInput)
    (feed : Except ApiError WalletRate) (body : String) :
    Checks session.customerId input.idempotencyKey (Op.executeTrade session input feed body).prog
      { label := default } := by
  change Checks _ _ (asOp (executeTrade session input feed body)) _
  unfold executeTrade
  generalize Util.byteLen (Util.trim input.idempotencyKey) = len
  split
  · trivial
  -- nothing is written before the transaction begins
  refine checks_plain (P := fun _ => False) (.findByKey _ _) rfl (by simp) fun r loc₁ h₁ hw₁ => ?_
  have hpending : loc₁.pending = [] := List.eq_nil_iff_forall_not_mem.2 hw₁
  split
  · trivial
  split
  · trivial
  split
  · trivial
  dsimp only
  split
  · trivial
  · exact checks_trade session input _ _ _ body h₁ hpending

/-! ### Every run -/

section Runs

variable {ι : Type} [DecidableEq ι] {ops : ι → Op} {d₀ : World}

/-- A recorded trade stays the one with its key. -/
theorem tradeByKey_of_step (hwf : Wf d₀) {e : Event ι}
    {s s' : Sys ι World Write Key Label Failure Answer} (hr : Reach (Step Env) (system ops d₀) s)
    (hst : Step Env e s s') {customerId : Uuid} {key : String} {row : TradeRow}
    (h : s.shared.tradeByKey customerId key = some row) :
    s'.shared.tradeByKey customerId key = some row := by
  have hm := moved_of_reach hwf hr hst
  generalize s'.shared = d' at hm ⊢
  cases hm with
  | crash i => exact h
  | env d he => cases he <;> exact h
  | go i d _ hch =>
    rcases hch with rfl | rfl | ⟨ws, rfl, -, -⟩
    · exact h
    · exact h
    · exact tradeByKey_applyAll h ws

/-- A call whose label says so is about to check a balance. -/
theorem atCheck_of_reach {s : Sys ι World Write Key Label Failure Answer} {i : ι}
    (hr : Reach (Step Env) (system ops d₀) s) {session : Session} {input : TradeInput}
    {feed : Except ApiError WalletRate} {body : String}
    (hop : ops i = .executeTrade session input feed body) {acct : Uuid} {minor : ℤ}
    (hcheck : (s.calls i).label.check = some (acct, minor)) :
    ∃ p loc w, s.calls i = .run p loc w ∧
      AtCheck session.customerId input.idempotencyKey acct minor p loc := by
  have hstart : Checks session.customerId input.idempotencyKey (ops i).prog { label := default } :=
    hop ▸ checks_executeTrade session input feed body
  have hpoints : (s.calls i).Points (fun _ => True)
      (Marked session.customerId input.idempotencyKey) (fun _ _ => True) :=
    (points_of_reach trivial (fun _ _ _ _ _ _ => trivial) (Call.points_settle hstart) hr).2
  cases hcall : s.calls i with
  | run p loc w =>
    rw [hcall] at hpoints hcheck
    exact ⟨p, loc, w, rfl, hpoints.1 acct minor hcheck⟩
  | done | crashed => rw [hcall] at hcheck; cases hcheck

/-- **Replays**: a call whose balance check runs while a trade with its key is committed answers
with that trade, whatever happens after the check, exactly when the balance is read and covers the
amount. -/
theorem replayed_iff (hwf : Wf d₀) {s s₁ : Sys ι World Write Key Label Failure Answer} {i : ι}
    (hr : Reach (Step Env) (system ops d₀) s) (hst : Step Env (.go i) s s₁) {session : Session}
    {input : TradeInput} {feed : Except ApiError WalletRate} {body : String}
    (hop : ops i = .executeTrade session input feed body) {acct : Uuid} {minor : ℤ}
    (hcheck : (s.calls i).label.check = some (acct, minor)) {row : TradeRow}
    (hkey : s.shared.tradeByKey session.customerId input.idempotencyKey = some row) :
    (∀ s' r made, Reach (Step Env) s₁ s' → s'.calls i = .done r made → r = .ok (.trade row)) ↔
      minor ≤ s.shared.balance acct ∧ FitsI64 (s.shared.balance acct) := by
  obtain ⟨p, loc, w, hcall, hopened, f, rfl, hf⟩ := atCheck_of_reach hr hop hcheck
  have hst' := hst
  obtain ⟨free, -, d, c, hn, rfl⟩ := hst
  rw [hcall] at hn
  have hnext : d = s.shared ∧ c = Call.settle (f (applyAll loc.pending s.shared)) loc := by
    cases w <;> cases hn <;> exact ⟨rfl, rfl⟩
  obtain ⟨rfl, rfl⟩ := hnext
  obtain ⟨hpoor, hrich⟩ := hf (applyAll loc.pending s.shared)
  rw [Covers, balance_of_brief hopened] at hpoor hrich
  constructor
  · intro h
    by_contra hno
    obtain ⟨e, hfail⟩ := hpoor hno
    have hdone := h _ (.error e) loc.made .refl (by simp [hfail, Call.settle])
    cases hdone
  · intro hcovers s' r made hr' hdone
    have hanswers := points_of_reach (i := i) (s := ⟨s.shared, Function.update s.calls i
        (Call.settle (f (applyAll loc.pending s.shared)) loc)⟩) hkey
      (fun s₂ e s₃ h₂ hst₂ hs => tradeByKey_of_step hwf ((hr.tail ⟨_, hst'⟩).trans h₂) hst₂ hs)
      (by simpa using Call.points_settle (hrich hcovers row)) hr'
    rw [hdone] at hanswers
    obtain ⟨-, -, -, h⟩ := hanswers
    exact h

end Runs

/-- Dollars come in, and the same purchase is asked for twice. -/
def twiceOps (amountMinor : ℤ) : Fin 3 → Op
  | 0 => .applyInbound (samplePayment "payment" amountMinor)
  | 1 | 2 => .executeTrade sampleSession ⟨.buy, "purchase", .usd, 6000⟩
    (.error .serverError) "trade"

/-- The second call waits for the account while the first commits, and finds enough left. -/
theorem replayed_of_covered :
    ∃ s s₁ row, Reach (Step Env) (system (twiceOps 20000) (sampleWorld "NG")) s ∧
      Step Env (.go 2) s s₁ ∧ s.shared.tradeByKey 1 "purchase" = some row ∧
      ∀ s' r made, Reach (Step Env) s₁ s' → s'.calls 2 = .done r made → r = .ok (.trade row) := by
  obtain ⟨s, s₁, hr, hst, h⟩ := exists_step (twiceOps 20000) (sampleWorld "NG") [0, 1, 2]
    [(0, 15), (2, 2), (1, 27), (2, 4)] 2
    (fun s _ => decide ((s.calls 2).label.check = some (101, 6000)) &&
      (s.shared.tradeByKey 1 "purchase").isSome && decide (6000 ≤ s.shared.balance 101) &&
      decide (FitsI64 (s.shared.balance 101)))
    (by decide) (by decide +kernel)
  simp only [Bool.and_eq_true, decide_eq_true_eq] at h
  obtain ⟨⟨⟨hcheck, hkey⟩, hle⟩, hfit⟩ := h
  obtain ⟨row, hrow⟩ := Option.isSome_iff_exists.1 hkey
  have hop : twiceOps 20000 2 =
      .executeTrade sampleSession ⟨.buy, "purchase", .usd, 6000⟩
        (.error .serverError) "trade" := rfl
  exact ⟨s, s₁, row, hr, hst, hrow,
    (replayed_iff (wf_sampleWorld "NG") hr hst hop hcheck hrow).2 ⟨hle, hfit⟩⟩

/-- The call has answered that a balance does not cover the amount. -/
def foundInsufficient (label : String) : Call World Write Key Label Failure Answer → Bool
  | .done (.error e) _ => decide (e = insufficient label)
  | _ => false

/-- The second call waits for the account while the first commits, and finds the money spent. -/
theorem not_replayed_of_spent :
    ∃ s s₁ row, Reach (Step Env) (system (twiceOps 10000) (sampleWorld "NG")) s ∧
      Step Env (.go 2) s s₁ ∧ (s.calls 2).label.check = some (101, 6000) ∧
      s.shared.tradeByKey 1 "purchase" = some row ∧
      foundInsufficient "USD" (s₁.calls 2) = true := by
  obtain ⟨s, s₁, hr, hst, h⟩ := exists_step (twiceOps 10000) (sampleWorld "NG") [0, 1, 2]
    [(0, 15), (2, 2), (1, 27), (2, 4)] 2
    (fun s s₁ => decide ((s.calls 2).label.check = some (101, 6000)) &&
      (s.shared.tradeByKey 1 "purchase").isSome && foundInsufficient "USD" (s₁.calls 2))
    (by decide) (by decide +kernel)
  simp only [Bool.and_eq_true, decide_eq_true_eq] at h
  obtain ⟨⟨hcheck, hkey⟩, hfound⟩ := h
  obtain ⟨row, hrow⟩ := Option.isSome_iff_exists.1 hkey
  exact ⟨s, s₁, row, hr, hst, hcheck, hrow, hfound⟩

end Kimana.SettlementWallet
