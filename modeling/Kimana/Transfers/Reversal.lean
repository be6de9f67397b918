import Kimana.ReadCommitted.Point
import Kimana.Transfers.History
import Kimana.Transfers.Refund

/-!
# Manual reversals

`reverseTransfer` is meant for transfers that have been completed.  Its guard is the transition
table, which also lets a transfer at `SETTLED` or `PAYING_OUT` go to `REVERSING`, for vault events.

* `points_reverseTransfer` : the row that a reversal locks decides whether it is refused.
* `reversal_of_lock` : **post-completion only**, exactly when that row stands neither at `SETTLED`
  nor at `PAYING_OUT`.
* `reversed_of_early` : a reversal of a transfer that was never completed.
-/

namespace Kimana

open ReadCommitted Table TransferStatus Engine Ledger

/-! ### Errors of the engine's pieces -/

/-- The program sets no label, and fails with no conflict. -/
structure Unrefused {A : Type} (p : Tx A) : Prop where
  fails : p.Fails fun e => e.code ≠ .conflict

namespace Unrefused

variable {A B : Type}

theorem ret (a : A) : Unrefused (.ret a) := ⟨trivial⟩

theorem serverError : Unrefused (.fail .serverError : Tx A) := ⟨nofun⟩

theorem read : Unrefused Tx.read := ⟨fun _ => trivial⟩

theorem fresh : Unrefused Tx.fresh := ⟨fun _ => trivial⟩

theorem write (w : Write) : Unrefused (Tx.write w) := ⟨trivial⟩

theorem commit : Unrefused Tx.commit := ⟨trivial⟩

theorem lock (k : Key) : Unrefused (Tx.lock k) := ⟨fun _ _ => trivial⟩

theorem bind {p : Tx B} {g : B → Tx A} (hp : Unrefused p) (hg : ∀ b, Unrefused (g b)) :
    Unrefused (p.bind g) := ⟨hp.fails.bind fun b => (hg b).fails⟩

theorem getOrCreateAccountByCode (customerId : Uuid) (currency : LedgerCurrency) :
    Unrefused (Ledger.getOrCreateAccountByCode customerId currency) := by
  refine read.bind fun d => ?_
  split
  · exact ret _
  · refine (lock _).bind fun _ => read.bind fun d => ?_
    split
    · exact serverError
    · exact fresh.bind fun _ => (write _).bind fun _ => ret _

theorem accountBalanceMinor (accountId : Uuid) :
    Unrefused (Ledger.accountBalanceMinor accountId) := by
  refine read.bind fun d => ?_
  unfold Ledger.toBigint
  split
  · exact ret _
  · exact serverError

theorem appendEntry (conn : Conn) (accountId : Uuid) (amountMinor : ℤ) (currency : LedgerCurrency)
    (description : String) (source : EntrySource) (reversalOfEntryId : Option Uuid) :
    Unrefused (Ledger.appendEntry conn accountId amountMinor currency description source
      reversalOfEntryId) :=
  (lock _).bind fun _ => (accountBalanceMinor _).bind fun _ => fresh.bind fun _ =>
    (write _).bind fun _ => ret _

theorem postLeg (conn : Conn) (t : LockedTransfer) (currency : CurrencyCode) (amountMinor : ℤ)
    {describe : Tx String} (hd : Unrefused describe) (reversalOfEntryId : Option Uuid) :
    Unrefused (Engine.postLeg conn t currency amountMinor describe reversalOfEntryId) :=
  (getOrCreateAccountByCode _ _).bind fun _ => hd.bind fun _ => appendEntry ..

/-- An unwinding posts what the transition to `REVERSING` moves. -/
theorem postLedgerFor (conn : Conn) (t : LockedTransfer) (source : TransferStatus)
    {target : TransferStatus} (h : target ≠ .completed) :
    Unrefused (Engine.postLedgerFor conn t source target) := by
  unfold Engine.postLedgerFor
  split
  · exact (postLeg _ _ _ _ (ret _) _).bind fun _ => ret _
  · exact (postLeg _ _ _ _ (ret _) _).bind fun _ => ret _
  · exact absurd rfl h
  · split
    · exact (postLeg _ _ _ _ (ret _) _).bind fun _ => ret _
    · exact (postLeg _ _ _ _ (ret _) _).bind fun _ => ret _
    · exact ret _
  · exact ret _

/-- A transition of the table is not refused. -/
theorem apply (conn : Conn) (t : LockedTransfer) (actorId : Option Uuid)
    {source target : TransferStatus} (h : target ∈ source.allowed) (hne : target ≠ .completed)
    (payload : Option JObj) : Unrefused (Engine.apply conn t actorId source target payload) := by
  unfold Engine.apply assertTransition
  rw [if_pos h]
  exact (read.bind fun _ => write _).bind fun _ => (write _).bind fun _ =>
    (postLedgerFor _ _ _ hne).bind fun _ => write _

theorem postSendRefund (conn : Conn) (t : LockedTransfer) :
    Unrefused (Engine.postSendRefund conn t) :=
  read.bind fun _ => (postLeg _ _ _ _ (ret _) _).bind fun _ => ret _

end Unrefused

/-! ### What the lock decides -/

/-- The statement that locks a transfer finds its row in its snapshot. -/
def Finds (id : Uuid) (snap : World) : Prop :=
  ∃ seen r, snap.transfer id = some seen ∧
    snap.recipients.find? (fun r => r.id = seen.recipientId) = some r

/-- Where a reversal stands that is about to lock its transfer's row: the row it gets decides
whether it is refused, by an error of kind `V`. -/
def AtLock {E A : Type} (V : E → Prop) (id : Uuid) (p : Prog World Write Key Label E A)
    (loc : Loc) :
    Prop :=
  loc.label.locking = some id → loc.pending = [] ∧ ∃ k f, p = .lock k f ∧
    ∀ snap cur, Finds id snap → ∀ t, cur.transfer id = some t →
      (f snap cur).Points (fun _ => True) (fun _ _ => True)
        (fun r _ => (∃ e, r = .error e ∧ V e) ↔ .reversing ∉ t.currentStatus.allowed) (loc.hold k)

/-- The unwinding of a locked transfer is refused if the table has no transition for it. -/
theorem points_unwind (conn : Conn) (t : LockedTransfer) (reason : String) (actorId : Option Uuid)
    {loc : Loc} (h : loc.label.locking = none) :
    ((Engine.apply conn t actorId t.row.currentStatus .reversing
        (some [("reason", .str reason)])).bind fun _ =>
      (Engine.postSendRefund conn t).bind fun entryId =>
        (Engine.apply conn t actorId .reversing .reversed
          (some [("reason", .str reason), ("reversalLedgerEntryId", .id entryId)])).bind fun _ =>
        Tx.commit.bind fun _ => .ret entryId).Points (fun _ => True)
      (fun _ loc' => loc'.label.locking = none)
      (fun r _ => (∃ e, r = .error e ∧ e.code = .conflict) ↔
        .reversing ∉ t.row.currentStatus.allowed) loc := by
  by_cases hall : .reversing ∈ t.row.currentStatus.allowed
  · have hend : TransferStatus.reversed ∈ TransferStatus.reversing.allowed := by decide
    have hp := (Unrefused.apply conn t actorId hall nofun (some [("reason", .str reason)])).bind
      fun _ => (Unrefused.postSendRefund conn t).bind fun entryId =>
        (Unrefused.apply conn t actorId hend nofun
          (some [("reason", .str reason), ("reversalLedgerEntryId", .id entryId)])).bind fun _ =>
        Unrefused.commit.bind fun _ => Unrefused.ret entryId
    refine points_mono (fun _ loc' hl => hl ▸ h) (fun r loc' hr => ?_)
      (points_of_fails hp.fails (rfl : loc.label = loc.label))
    refine iff_of_false ?_ (not_not.2 hall)
    rintro ⟨e, rfl, he⟩
    exact hr.2 e rfl he
  · unfold Engine.apply assertTransition
    rw [if_neg hall]
    exact iff_of_true ⟨_, rfl, rfl⟩ hall

/-- What `lock` answers, by what its statement finds and what the lock grants. -/
def granted (id : Uuid) (snap cur : World) : Tx LockedTransfer :=
  match snap.transfer id, cur.transfer id with
  | some seen, some row =>
    match snap.recipients.find? fun r => r.id = seen.recipientId with
    | some r => return ⟨row, r.country, snap.latestPayload id⟩
    | none => Prog.fail (.notFound "Transfer not found.")
  | _, _ => Prog.fail (.notFound "Transfer not found.")

/-- The program of a reversal. -/
theorem points_reverseTransfer (id : Uuid) (reason : String) (actorId : Option Uuid) :
    (reverseTransfer id reason actorId).Points (fun _ => True)
      (AtLock (fun e => e.code = .conflict) id) (fun _ _ => True) { label := default } := by
  -- What follows the grant, by what the statement and its lock find.
  have hrest : ∀ (conn : Conn) (snap cur : World) (loc : Loc), loc.label.locking = none →
      ((granted id snap cur).bind fun t =>
        (Engine.apply conn t actorId t.row.currentStatus .reversing
        (some [("reason", .str reason)])).bind fun _ =>
      (Engine.postSendRefund conn t).bind fun entryId =>
        (Engine.apply conn t actorId .reversing .reversed
          (some [("reason", .str reason), ("reversalLedgerEntryId", .id entryId)])).bind fun _ =>
        Tx.commit.bind fun _ => .ret entryId).Points (fun _ => True)
      (fun _ loc' => loc'.label.locking = none)
      (fun r _ => Finds id snap → ∀ t, cur.transfer id = some t →
        ((∃ e, r = .error e ∧ e.code = .conflict) ↔ .reversing ∉ t.currentStatus.allowed)) loc := by
    intro conn snap cur loc hloc
    unfold granted
    split
    · next seen row hseen hrow =>
      split
      · next r hr =>
        refine points_mono (fun _ _ h => h) (fun x _ hx hfind t ht => ?_)
          (points_unwind conn ⟨row, r.country, snap.latestPayload id⟩ reason actorId hloc)
        rw [hrow] at ht
        cases ht
        exact hx
      · next hr =>
        rintro ⟨seen', r, hseen', hr'⟩
        rw [hseen] at hseen'
        cases hseen'
        rw [hr] at hr'
        cases hr'
    · next hno =>
      rintro ⟨seen, r, hseen, hr⟩ t ht
      exact absurd ht (hno seen t hseen)
  refine ⟨(fun h => by cases h), fun d _ =>
    ⟨fun _ => ⟨rfl, _, _, rfl, fun snap cur hfind t ht => ?_⟩,
    fun snap cur _ _ => ?_⟩⟩
  · exact points_mono (fun _ _ _ => trivial) (fun r loc' hr => hr hfind t ht)
      (hrest ⟨d.clock⟩ snap cur _ rfl)
  · exact points_mono (fun _ _ h hl => by rw [h] at hl; cases hl) (fun _ _ _ => trivial)
      (hrest ⟨d.clock⟩ _ _ _ rfl)

theorem AtLock.wrap {E A : Type} {e : E → Failure} {a : A → Answer} {V : Failure → Prop} {id : Uuid}
    {p : Prog World Write Key Label E A} {loc : Loc} (h : AtLock (fun x => V (e x)) id p loc) :
    AtLock V id (wrap e a p) loc := by
  intro hl
  obtain ⟨hpend, k, f, rfl, hf⟩ := h hl
  refine ⟨hpend, k, fun d d' => Kimana.wrap e a (f d d'), rfl, fun snap cur hfind t ht => ?_⟩
  refine points_bind.2 (points_mapError.2 (points_mono (fun _ _ _ => trivial) (fun r loc' hr => ?_)
    (hf snap cur hfind t ht)))
  rw [← hr]
  cases r with
  | ok x => exact iff_of_false nofun nofun
  | error x =>
    exact ⟨fun ⟨_, hx, hv⟩ => ⟨x, rfl, by cases hx; exact hv⟩,
      fun ⟨_, hx, hv⟩ => ⟨e x, rfl, by cases hx; exact hv⟩⟩

/-- A conflict, as an operation reports it. -/
def IsConflict (e : Failure) : Prop := ∃ x : ApiError, e = .api x ∧ x.code = .conflict

theorem points_prog_reverseTransfer (id : Uuid) (reason : String) (actorId : Option Uuid) :
    (Op.reverseTransfer id reason actorId).prog.Points (fun _ => True) (AtLock IsConflict id)
      (fun _ _ => True) { label := default } := by
  refine points_bind.2 (points_mapError.2 (points_mono (fun p loc h => ?_) (fun r loc _ => ?_)
    (points_reverseTransfer id reason actorId)))
  · refine AtLock.wrap (e := .api) (a := .entry) fun hl => ?_
    obtain ⟨hpend, k, f, hp, hf⟩ := h hl
    refine ⟨hpend, k, f, hp, fun snap cur hfind t ht => ?_⟩
    refine points_mono (fun _ _ h => h) (fun r _ hr => ?_) (hf snap cur hfind t ht)
    rw [← hr]
    exact exists_congr fun x => and_congr_right fun _ =>
      ⟨fun ⟨_, hx, hc⟩ => by cases hx; exact hc, fun hc => ⟨x, rfl, hc⟩⟩
  · cases r <;> trivial

/-! ### Runs -/

section Runs

variable {ι : Type} [DecidableEq ι] {ops : ι → Op} {d₀ : World}

/-- In this step a call gets the row lock of a transfer, whose row is `t` then. -/
structure TakesLock (i : ι) (t : TransferRow)
    (s s' : Sys ι World Write Key Label Failure Answer) : Prop where
  step : Step Env (.go i) s s'
  locking : (s.calls i).label.locking = some t.id
  waits : ∃ snap, (s.calls i).wait = some snap ∧ Finds t.id snap
  row : s.shared.transfer t.id = some t

/-- A transfer has been completed. -/
def HasCompleted (id : Uuid) (d : World) : Prop := ∃ r ∈ d.historyOf id, r.status = .completed

/-- What a reversal promises of a transfer that it finds as `d` has it: it succeeds only if the
transfer has been completed; else it reports a conflict, and changes nothing. -/
structure PostCompletion (id : Uuid) (d : World) (r : Except Failure Answer)
    (made : List (World × World)) : Prop where
  completed : ∀ a, r = .ok a → HasCompleted id d
  conflict : ¬HasCompleted id d → ∃ e, r = .error e ∧ IsConflict e
  unchanged : ∀ e, r = .error e → made = []

theorem InSequence.rank_le {t : TransferRow} {es : List LedgerEntry} {hs : List HistoryRow}
    (h : InSequence t es hs) {r : HistoryRow} (hr : r ∈ hs) :
    r.status.rank ≤ t.currentStatus.rank := by
  have hrank : (hs.map (·.status)).Pairwise fun s s' => s.rank < s'.rank :=
    List.isChain_iff_pairwise.1 (h.edges.imp fun _ _ he => rank_lt he)
  have hlast := h.last
  obtain ⟨init, hinit⟩ := List.getLast?_eq_some_iff.1 hlast
  have hmem := List.mem_map_of_mem (f := (·.status)) hr
  rw [hinit] at hrank hmem
  rcases List.mem_append.1 hmem with hmem | hmem
  · exact le_of_lt ((List.pairwise_append.1 hrank).2.2 _ hmem _ (by simp))
  · rw [List.mem_singleton.1 hmem]

/-- A transfer that stands at `COMPLETED` has been completed, and one before it has not. -/
theorem HistoryOk.hasCompleted {id : Uuid} {d : World} (h : HistoryOk id d) {t : TransferRow}
    (ht : d.transfer id = some t) :
    (t.currentStatus = .completed → HasCompleted id d) ∧
      (t.currentStatus.rank < TransferStatus.completed.rank → ¬HasCompleted id d) := by
  have hseq := h.inSequence ht
  constructor
  · intro hst
    obtain ⟨s, hs, hlast⟩ := List.mem_map.1 (List.mem_of_getLast? hseq.last)
    obtain ⟨r, hr, rfl⟩ := List.mem_map.1 hs
    exact ⟨r, hr, hlast.trans hst⟩
  · rintro hlt ⟨r, hr, hst⟩
    have hle := hseq.rank_le (List.mem_map_of_mem hr)
    rw [show r.strip.status = r.status from rfl, hst] at hle
    omega

theorem status_of_reversing {s : TransferStatus} (h : .reversing ∈ s.allowed) :
    s = .settled ∨ s = .payingOut ∨ s = .completed := by
  revert h
  cases s <;> decide

/-- A reversal that fails has changed nothing, and it keeps its promise exactly when the row it
locks stands neither at `SETTLED` nor at `PAYING_OUT`, whatever the other calls do. -/
theorem reversal_of_lock (hwf : Wf d₀) (hnew : d₀.transfers = [])
    {s s' s'' : Sys ι World Write Key Label Failure Answer}
    (hr : Reach (Step Env) (system ops d₀) s) {i : ι} {reason : String} {actorId : Option Uuid}
    {t : TransferRow} (hop : ops i = .reverseTransfer t.id reason actorId)
    (hlock : TakesLock i t s s') (hr' : Reach (Step Env) s' s'') {r : Except Failure Answer}
    {made : List (World × World)} (hdone : s''.calls i = .done r made) :
    (∀ e, r = .error e → made = []) ∧ (PostCompletion t.id s.shared r made ↔
      t.currentStatus ≠ .settled ∧ t.currentStatus ≠ .payingOut) := by
  -- The row at the grant decides whether the call is refused.
  have hpoint : (s.calls i).Points (fun _ => True) (AtLock IsConflict t.id) fun _ _ => True := by
    have hstart : (Call.start (ops i).prog).Points (fun _ => True) (AtLock IsConflict t.id)
        fun _ _ => True := by
      rw [hop]
      exact Call.points_settle (points_prog_reverseTransfer t.id reason actorId)
    exact (points_of_reach trivial (fun _ _ _ _ _ _ => trivial) hstart hr).2
  obtain ⟨hst, hlocking, ⟨snap, hwait, hfind⟩, hrow⟩ := hlock
  have hrefused : (∃ e, r = .error e ∧ IsConflict e) ↔ .reversing ∉ t.currentStatus.allowed := by
    obtain ⟨free, -, d, c, hn, rfl⟩ := hst
    match hc : s.calls i with
    | .done _ _ => rw [hc] at hwait; cases hwait
    | .crashed _ => rw [hc] at hwait; cases hwait
    | .run p loc w =>
      rw [hc] at hpoint hwait hlocking hn
      obtain rfl : w = some snap := hwait
      obtain ⟨hpend, k, f, rfl, hf⟩ := hpoint.1 hlocking
      simp only [Call.next] at hn
      split at hn <;> cases hn
      have hafter := hf snap s.shared hfind t hrow
      rw [hpend] at hr'
      have := (points_of_reach (i := i) trivial (fun _ _ _ _ _ _ => trivial)
        (by simpa using Call.points_settle hafter) hr').2
      rw [hdone] at this
      obtain ⟨_, -, hQ⟩ := this
      exact hQ
  have hunchanged : ∀ e, r = .error e → made = [] := by
    rintro e rfl
    have hall : Reach (Step Env) (system ops d₀) s'' := (hr.tail ⟨_, hst⟩).trans hr'
    have hpost := (sysOk_of_reach lax_anyChange granted_noAssumption hwf
      (hall.mono fun _ _ _ h => stepIf_of_step h)).answer hdone
    rw [hop] at hpost
    exact hpost
  have hhist : HistoryOk t.id s.shared :=
    (historyOk_of_reach lax_anyChange granted_noAssumption hwf
      (.of_new hwf (by rw [World.transfer, hnew]; rfl)) (hr.mono fun _ _ _ h => stepIf_of_step h)).2
  obtain ⟨hcompleted, hbefore⟩ := hhist.hasCompleted hrow
  refine ⟨hunchanged, ?_, ?_⟩
  · rintro ⟨-, hconflict, -⟩
    constructor <;> intro hs <;> rw [hs] at hbefore hrefused <;>
      exact hrefused.1 (hconflict (hbefore (by decide))) (by decide)
  · rintro ⟨hsettled, hpaying⟩
    by_cases hall : .reversing ∈ t.currentStatus.allowed
    · have hs : t.currentStatus = .completed :=
        ((status_of_reversing hall).resolve_left hsettled).resolve_left hpaying
      exact ⟨fun _ _ => hcompleted hs, fun hno => absurd (hcompleted hs) hno, hunchanged⟩
    · obtain ⟨e, rfl, he⟩ := hrefused.2 hall
      exact ⟨fun a ha => (by cases ha), fun _ => ⟨e, rfl, he⟩, hunchanged⟩

/-- A transfer is taken one step after another to `SETTLED`, and reversed there. -/
def earlyOps : Fin 6 → Op
  | 0 => .applyInbound (samplePayment "payment" 10000)
  | 1 => sampleCreate false "transfer" 3
  | 5 => .reverseTransfer 103 "operator" none
  | _ => .advanceOnce (sampleState false) 103 none "step"

/-- A transfer that was never completed is reversed by hand. -/
theorem reversed_of_early :
    ∃ s a made, Reach (Step Env) (system earlyOps (sampleWorld "NG")) s ∧
      s.calls 5 = .done (.ok a) made ∧ s.shared.status 103 = some .reversed ∧
      ¬HasCompleted 103 s.shared := by
  obtain ⟨s, hr, hs⟩ := exists_reach earlyOps (sampleWorld "NG") [0, 1, 2, 3, 4, 5]
    [(0, 15), (1, 41), (2, 12), (3, 5), (4, 14), (5, 17)]
    (fun s => (s.calls 5).succeeded && s.shared.status 103 = some .reversed &&
      (s.shared.historyOf 103).all fun r => r.status ≠ .completed) (by decide) (by decide +kernel)
  simp only [Bool.and_eq_true, decide_eq_true_eq] at hs
  obtain ⟨a, made, hdone⟩ := exists_of_succeeded hs.1.1
  refine ⟨s, a, made, hr, hdone, hs.1.2, ?_⟩
  rintro ⟨r, hmem, hst⟩
  simpa [hst] using List.all_eq_true.1 hs.2 r hmem

/-- A completed transfer is reversed. -/
def lateOps : Fin 4 → Op
  | 0 => .applyInbound (samplePayment "payment" 10000)
  | 1 => sampleCreate false "transfer" 3
  | 2 => .advanceToCompletion (sampleState false) 103 fun _ => "payout"
  | 3 => .reverseTransfer 103 "operator" none

/-- The reversal of a completed transfer keeps its promise. -/
theorem reversal_of_completed :
    ∃ s s' s'' t a made, Reach (Step Env) (system lateOps (sampleWorld "NG")) s ∧
      TakesLock 3 t s s' ∧ Reach (Step Env) s' s'' ∧ s''.calls 3 = .done (.ok a) made ∧
      PostCompletion t.id s.shared (.ok a) made := by
  obtain ⟨s, hr, hs⟩ := exists_reach lateOps (sampleWorld "NG") [0, 1, 2, 3]
    [(0, 15), (1, 41), (2, 48), (3, 2)]
    (fun s => (s.shared.transfer 103).any (fun t => t.id = 103 && t.currentStatus = .completed) &&
      (s.calls 3).label.locking = some 103 &&
      (s.calls 3).wait.any (fun snap => (snap.transfer 103).any fun seen =>
        (snap.recipients.find? fun r => r.id = seen.recipientId).isSome) &&
      (playMove [0, 1, 2, 3] s (.go 3)).any fun s' =>
        (play [0, 1, 2, 3] (schedule [(3, 9)]) s').any fun s'' => (s''.calls 3).succeeded)
    (by decide) (by decide +kernel)
  simp only [Bool.and_eq_true, decide_eq_true_eq] at hs
  obtain ⟨⟨⟨ht, hlocking⟩, hwait⟩, hrest⟩ := hs
  obtain ⟨t, ht, hst⟩ := (Option.any_eq_true ..).1 ht
  simp only [Bool.and_eq_true, decide_eq_true_eq] at hst
  obtain ⟨snap, hsnap, hfind⟩ := (Option.any_eq_true ..).1 hwait
  obtain ⟨seen, hseen, hrec⟩ := (Option.any_eq_true ..).1 hfind
  obtain ⟨r, hrec⟩ := Option.isSome_iff_exists.1 hrec
  obtain ⟨s', hs', hrest⟩ := (Option.any_eq_true ..).1 hrest
  obtain ⟨s'', hs'', hdone⟩ := (Option.any_eq_true ..).1 hrest
  obtain ⟨a, made, hdone⟩ := exists_of_succeeded hdone
  have hall : ∀ i : Fin 4, i ∈ [0, 1, 2, 3] := by decide
  have hlock : TakesLock 3 t s s' := by
    refine ⟨step_of_playMove hall (by simp) hs', ?_, ⟨snap, hsnap, ?_⟩, ?_⟩ <;> rw [hst.1]
    · exact hlocking
    · exact ⟨seen, r, hseen, hrec⟩
    · exact ht
  have hr' : Reach (Step Env) s' s'' := reach_of_play hall (env_schedule _) hs''
  refine ⟨s, s', s'', t, a, made, hr, hlock, hr', hdone, ?_⟩
  refine (reversal_of_lock (wf_sampleWorld "NG") rfl hr (by rw [hst.1]; rfl) hlock hr'
    hdone).2.2 ?_
  rw [hst.2]
  exact ⟨nofun, nofun⟩

end Runs

end Kimana
