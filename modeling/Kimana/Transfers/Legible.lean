import Kimana.Transfers.Reversal
import Kimana.Transfers.Walk
import Kimana.ReadCommitted.Point
import Mathlib.Data.Fintype.Basic

/-!
# Payloads that can be read back

The payload of a transfer's last history row is what its state is read from.

* `Logged` : the rows that a transaction appends have what is read from them.
* `Legible` : every row of a transfer can be read without a default, and a `REVERSED` row names
  the compensating entry.
* `legible_of_reach` : **every reachable state of every transfer is read without a default**, as
  long as no vault event makes a transfer `REJECTED`, `REVERSING` or `REVERSED`: those rows hold
  what the chain says and nothing else (`illegible_of_cancelled`).
-/

namespace Kimana

open ReadCommitted Table TransferStatus Engine

/-- The rows that a transaction appends have what is read from them; a `REVERSED` row names the
last entry of the transaction. -/
def Logged (rows : List HistoryRow) (entries : List LedgerEntry) : Prop :=
  ∀ row ∈ rows, Repo.Readable row.status row.payload ∧ (row.status = .reversed →
    ∃ e, entries.getLast? = some e ∧
      (row.payload.getD []).get "reversalLedgerEntryId" = some (.id e.id))

/-! ### Where an operation commits -/

/-- Where a call stands whose next commit, if it is one, appends rows that can be read back. -/
def CommitsLogged {E A : Type} : Prog World Write Key Label E A → Loc → Prop
  | .commit _, loc => Logged (loc.pending.filterMap Write.historyRow)
      (loc.pending.filterMap Write.entry)
  | .fresh _, _ | .query _, _ | .read _, _ | .lock _ _, _ | .rollback _, _ => True
  | .ret _, _ | .fail _, _ | .write _ _, _ | .mark _ _, _ | .atomic _ _, _ => False

/-- A write that logs, if anything, a row of the way forward. -/
def LogsForward (w : Write) : Prop := ∀ row, w = .insertHistory row → row.Forward

/-- A write of a transition of a transfer to `target`. -/
structure LogsOnly (id : Uuid) (target : TransferStatus) (payload : Option JObj) (w : Write) :
    Prop where
  row : ∀ row, w = .insertHistory row →
    row.transferId = id ∧ row.status = target ∧ row.payload = payload
  entry : target = .reversed → ∀ e, w ≠ .insertEntry e

section Points

variable {E E' A B : Type} {S : World → Prop} {loc : Loc}

theorem CommitsLogged.bind {p : Prog World Write Key Label E B}
    {g : B → Prog World Write Key Label E A} (h : CommitsLogged p loc) :
    CommitsLogged (p.bind g) loc := by
  cases p with
  | ret | fail | write | mark => exact h.elim
  | _ => exact h

theorem CommitsLogged.mapError {f : E → E'} {p : Prog World Write Key Label E A}
    (h : CommitsLogged p loc) : CommitsLogged (p.mapError f) loc := by
  cases p <;> exact h

theorem commitsLogged_of_looks {p : Prog World Write Key Label E A} (h : p.Looks) :
    CommitsLogged p loc := by
  cases p with
  | fresh | query | read | lock => trivial
  | _ => exact h.elim

theorem points_wrap {e : E → Failure} {a : A → Answer} {p : Prog World Write Key Label E A}
    {Q : Except E A → Loc → Prop} (h : p.Points S CommitsLogged Q loc) :
    (wrap e a p).Points S CommitsLogged (fun _ _ => True) loc := by
  have hmap : (p.mapError e).Points S CommitsLogged (fun _ _ => True) loc :=
    points_mapError.2 (points_mono (fun _ _ hk => hk.mapError) (fun _ _ _ => trivial) h)
  exact points_bind_of hmap (fun _ _ hk => hk.bind) (fun _ _ _ => trivial) fun _ _ _ => trivial

/-- Rows of the way forward can be read back. -/
theorem logged_of_forward {ws : List Write} (h : ∀ w ∈ ws, LogsForward w)
    (entries : List LedgerEntry) : Logged (ws.filterMap Write.historyRow) entries := by
  intro row hrow
  obtain ⟨w, hw, hwrow⟩ := List.mem_filterMap.1 hrow
  have hf : row.Forward := by
    cases w with
    | insertHistory r =>
      cases hwrow
      exact h _ hw _ rfl
    | _ => cases hwrow
  exact ⟨hf.readable, fun hs => absurd hs hf.status⟩

/-- A program that logs rows of the way forward only. -/
theorem points_of_forward {K : Key → Prop} {p : Tx A} (hp : Walks LogsForward K p)
    (h : ∀ w ∈ loc.pending, LogsForward w) :
    p.Points S CommitsLogged (fun _ _ => True) loc := by
  refine points_mono (fun q loc' hk => ?_) (fun _ _ _ => trivial)
    (points_statement (points_of_writes (G := fun _ => True) (fun _ _ _ _ => trivial) hp.writes
      trivial h))
  obtain ⟨hq, -, hpend, hatomic⟩ := hk
  cases q with
  | ret | fail | write | mark => exact hq.elim
  | commit => exact logged_of_forward hpend _
  | atomic u f => exact hatomic u f rfl
  | _ => trivial

end Points

/-! ### A reversal -/

section Reversal

variable {S : World → Prop} {loc : Loc}

theorem adds_getOrCreateAccount {V : Write → Prop} (h : ∀ row, V (.insertAccount row)) (c : Uuid)
    (currency : CurrencyCode) : (Ledger.getOrCreateAccount c currency).Adds V := by
  intro d
  simp only [Prog.bind]
  split
  · trivial
  · intro _ _ d'
    simp only [Prog.bind]
    split
    · trivial
    · exact fun _ => ⟨h _, trivial⟩

theorem adds_appendEntry {V : Write → Prop} (h : ∀ e, V (.insertEntry e)) (conn : Conn)
    (acct : Uuid) (amount : ℤ) (currency : LedgerCurrency) (text : String) (source : EntrySource)
    (reversal : Option Uuid) :
    (Ledger.appendEntry conn acct amount currency text source reversal).Adds V := fun _ _ =>
  (Ledger.adds_accountBalanceMinor _).bind fun _ _ => ⟨h _, trivial⟩

theorem adds_postLeg {V : Write → Prop} (hacct : ∀ row, V (.insertAccount row))
    (he : ∀ e, V (.insertEntry e)) (conn : Conn) (t : LockedTransfer) (currency : CurrencyCode)
    (amount : ℤ) {describe : Tx String} (hd : describe.Adds V) (reversal : Option Uuid) :
    (postLeg conn t currency amount describe reversal).Adds V :=
  (adds_getOrCreateAccount hacct _ _).bind fun _ => hd.bind fun _ =>
    adds_appendEntry he _ _ _ _ _ _ _

theorem adds_beneficiary {V : Write → Prop} (t : TransferRow) : (beneficiary t).Adds V := by
  intro d
  simp only [Prog.bind]
  split <;> trivial

theorem adds_postLedgerFor {V : Write → Prop} {target : TransferStatus}
    (hacct : ∀ row, V (.insertAccount row)) (he : target ≠ .reversed → ∀ e, V (.insertEntry e))
    (conn : Conn) (t : LockedTransfer) (source : TransferStatus) :
    (postLedgerFor conn t source target).Adds V := by
  cases target
  case funded | settled =>
    exact (adds_postLeg hacct (he (by nofun)) _ _ _ _ (.ret _) _).bind fun _ => .ret _
  case completed =>
    exact (adds_postLeg hacct (he (by nofun)) _ _ _ _ ((adds_beneficiary _).bind fun _ => .ret _)
      _).bind fun _ => .ret _
  case reversing =>
    cases source
    case settled | payingOut =>
      exact (adds_postLeg hacct (he (by nofun)) _ _ _ _ (.ret _) _).bind fun _ => .ret _
    all_goals trivial
  all_goals trivial

/-- A transition logs one row, and one to `REVERSED` posts nothing. -/
theorem adds_apply (conn : Conn) (t : LockedTransfer) (actorId : Option Uuid)
    (source target : TransferStatus) (payload : Option JObj) :
    (Engine.apply conn t actorId source target payload).Adds
      (LogsOnly t.row.id target payload) := by
  unfold Engine.apply
  split
  case h_1 => trivial
  case h_2 =>
    intro d
    refine ⟨⟨fun row hrow => ?_, fun _ => nofun⟩, ⟨nofun, fun _ => nofun⟩, ?_⟩
    · cases hrow
      exact ⟨rfl, rfl, rfl⟩
    · exact (adds_postLedgerFor (fun _ => ⟨nofun, fun _ => nofun⟩)
        (fun hne _ => ⟨nofun, fun he => absurd he hne⟩) ..).bind fun _ =>
          ⟨⟨nofun, fun _ => nofun⟩, trivial⟩

theorem points_appendEntry {conn : Conn} {acct : Uuid} {amount : ℤ} {currency : LedgerCurrency}
    {text : String} {source : EntrySource} {reversal : Option Uuid} :
    (Ledger.appendEntry conn acct amount currency text source reversal).Points S CommitsLogged
      (fun r loc' => ∀ x, r = .ok x →
        ∃ e, loc'.pending = loc.pending ++ [.insertEntry e] ∧ e.id = x.1) loc := by
  simp only [Ledger.appendEntry, Prog.bind_eq, Prog.pure_eq]
  have hlock : (Tx.lock (.account acct) : Tx Unit).Adds fun _ => False := fun _ _ => trivial
  refine points_bind_of (points_of_adds hlock (.refl loc))
    (fun _ _ hk => (commitsLogged_of_looks hk.2).bind) (fun _ loc₁ h₁ => ?_)
    fun _ _ _ _ hr => by cases hr
  refine points_bind_of (points_of_adds (Ledger.adds_accountBalanceMinor acct) h₁)
    (fun _ _ hk => (commitsLogged_of_looks hk.2).bind)
      (fun _ loc₂ h₂ => ⟨trivial, fun n x hx => ?_⟩)
    fun _ _ _ _ hr => by cases hr
  obtain ⟨ws, hws, hnone⟩ := h₂.pending
  rw [List.eq_nil_iff_forall_not_mem.2 hnone, List.append_nil] at hws
  cases hx
  exact ⟨_, by rw [Local.wrote_pending]; exact congrArg (· ++ _) hws, rfl⟩

/-- The compensating entry comes last, after at most a new account. -/
theorem points_postSendRefund {conn : Conn} {t : LockedTransfer} :
    (postSendRefund conn t).Points S CommitsLogged (fun r loc' => ∀ n, r = .ok n →
      ∃ ws e, loc'.pending = loc.pending ++ ws ++ [.insertEntry e] ∧ e.id = n ∧
        ws.filterMap Write.historyRow = []) loc := by
  simp only [postSendRefund, Prog.bind_eq, Tx.read, Prog.bind]
  refine ⟨trivial, fun d _ => ?_⟩
  have hleg : (postLeg conn t t.row.sendCurrency t.row.sendAmountMinor
      (return entryText t.row "reversed")
      (fundingEntryId (applyAll loc.pending d) t.row.id)).Points S CommitsLogged (fun r loc' => ∀ x,
        r = .ok x → ∃ ws e, loc'.pending = loc.pending ++ ws ++ [.insertEntry e] ∧ e.id = x.1 ∧
          ws.filterMap Write.historyRow = []) loc := by
    refine points_bind_of (points_of_adds (adds_getOrCreateAccount
      (V := fun w => w.historyRow = none) (fun _ => rfl) _ _) (.refl loc))
      (fun _ _ hk => (commitsLogged_of_looks hk.2).bind) (fun acct loc₁ h₁ => ?_)
      fun _ _ _ _ hr => by cases hr
    obtain ⟨ws, hws, hnone⟩ := h₁.pending
    refine points_mono (fun _ _ h => h) (fun r loc₂ h₂ x hx => ?_) points_appendEntry
    obtain ⟨e, he, hid⟩ := h₂ x hx
    exact ⟨ws, e, by rw [he, hws], hid, List.filterMap_eq_nil_iff.2 hnone⟩
  refine points_bind_of hleg (fun _ _ hk => hk.bind) ?_ fun _ _ _ _ hr => by cases hr
  rintro x loc₁ hx n ⟨⟩
  exact hx x rfl

theorem points_engineLock {id : Uuid} :
    (Engine.lock id).Points S CommitsLogged (fun _ loc' => loc'.pending = loc.pending) loc := by
  refine ⟨trivial, fun d d' _ _ => ?_⟩
  simp only [Prog.bind_eq, Prog.bind, Tx.mark]
  split
  · split <;> rfl
  · rfl

theorem entries_of_reversed {id : Uuid} {payload : Option JObj} {ws : List Write}
    (h : ∀ w ∈ ws, LogsOnly id .reversed payload w) : ws.filterMap Write.entry = [] := by
  refine List.filterMap_eq_nil_iff.2 fun w hw => ?_
  cases w with
  | insertEntry e => exact absurd rfl ((h _ hw).entry rfl e)
  | _ => rfl

theorem LogsOnly.of_mem {id : Uuid} {target : TransferStatus} {payload : Option JObj}
    {ws : List Write} (h : ∀ w ∈ ws, LogsOnly id target payload w) {row : HistoryRow}
    (hrow : row ∈ ws.filterMap Write.historyRow) :
    row.transferId = id ∧ row.status = target ∧ row.payload = payload := by
  obtain ⟨w, hw, hwrow⟩ := List.mem_filterMap.1 hrow
  cases w with
  | insertHistory r =>
    cases hwrow
    exact (h _ hw).row _ rfl
  | _ => cases hwrow

/-- A reversal logs the reason twice, and the id of the compensating entry. -/
theorem logged_reverseTransfer {id : Uuid} {reason : String} {actorId : Option Uuid}
    (h : loc.pending = []) :
    (reverseTransfer id reason actorId).Points S CommitsLogged (fun _ _ => True) loc := by
  simp only [reverseTransfer, begin, Prog.bind_eq, Tx.query, Prog.pure_eq, Prog.bind]
  refine ⟨trivial, fun d _ => ?_⟩
  refine points_bind_of points_engineLock (fun _ _ hk => hk.bind) (fun t loc₁ h₁ => ?_)
    fun _ _ _ => trivial
  refine points_bind_of (points_of_adds (adds_apply _ _ _ _ _ _) (.refl loc₁))
    (fun _ _ hk => (commitsLogged_of_looks hk.2).bind) (fun _ loc₂ h₂ => ?_) fun _ _ _ => trivial
  refine points_bind_of points_postSendRefund (fun _ _ hk => hk.bind) (fun n loc₃ h₃ => ?_)
    fun _ _ _ => trivial
  refine points_bind_of (points_of_adds (adds_apply _ _ _ _ _ _) (.refl loc₃))
    (fun _ _ hk => (commitsLogged_of_looks hk.2).bind) (fun _ loc₄ h₄ => ?_) fun _ _ _ => trivial
  refine ⟨?_, fun _ _ => trivial⟩
  obtain ⟨ws₂, hws₂, hV₂⟩ := h₂.pending
  obtain ⟨ws₃, e, hws₃, rfl, hnone⟩ := h₃ n rfl
  obtain ⟨ws₄, hws₄, hV₄⟩ := h₄.pending
  have hpend : loc₄.pending = ws₂ ++ ws₃ ++ [.insertEntry e] ++ ws₄ := by
    rw [hws₄, hws₃, hws₂, h₁, h]
    rfl
  have hlast : (loc₄.pending.filterMap Write.entry).getLast? = some e := by
    rw [hpend, List.filterMap_append, entries_of_reversed hV₄, List.append_nil,
      List.filterMap_append]
    exact List.getLast?_concat
  intro row hrow
  rw [hpend, List.filterMap_append, List.filterMap_append, List.filterMap_append, hnone] at hrow
  simp only [List.append_nil, List.filterMap_cons, Write.historyRow, List.filterMap_nil,
    List.mem_append] at hrow
  rcases hrow with hrow | hrow
  · obtain ⟨-, hs, hp⟩ := LogsOnly.of_mem hV₂ hrow
    rw [hs, hp]
    exact ⟨fun _ => rfl, fun hr => by cases hr⟩
  · obtain ⟨-, hs, hp⟩ := LogsOnly.of_mem hV₄ hrow
    rw [hs, hp]
    exact ⟨fun _ => rfl, fun _ => ⟨e, hlast, rfl⟩⟩

end Reversal

/-! ### Operations -/

/-- The operations that bring vault events. -/
def Op.onchain : Op → Bool
  | applyOnchain .. | runOnce _ => true
  | _ => false

theorem creating_logsForward (quoteId : Uuid) :
    Walks.Creating quoteId LogsForward fun _ => True where
  write w _ hno row he := absurd he (hno row)
  rows row hf row' he := by
    cases he
    exact hf
  lock _ _ := trivial
  inserts _ _ he := by cases he
  claims _ _ he := by cases he
  refers _ _ _ he := by cases he
  keys _ _ := trivial

/-- The operations on transfers that bring no vault events log what can be read back. -/
theorem points_prog (op : Op) (ht : op.ofTransfers = true) (hc : op.onchain = false)
    {S : World → Prop} :
    op.prog.Points S CommitsLogged (fun _ _ => True) { label := default } := by
  have hforward : ∀ {A : Type} {a : A → Answer} {p : Tx A}, Walks LogsForward (fun _ => True) p →
      (wrap .api a p).Points S CommitsLogged (fun _ _ => True) { label := default } :=
    fun hp => points_wrap (points_of_forward hp (by simp))
  have hb := (creating_logsForward 0).toBasic
  cases op with
  | createTransfer => exact hforward (.createTransfer creating_logsForward ..)
  | advanceOnce => exact hforward (.advanceOnce hb ..)
  | advanceToCompletion => exact hforward (.advanceToCompletion hb ..)
  | expireTransfer => exact hforward (.expireTransfer hb ..)
  | resolveScreeningHold => exact hforward (.resolveScreeningHold hb ..)
  | reverseTransfer => exact points_wrap (logged_reverseTransfer rfl)
  | applyOnchain | runOnce => cases hc
  | executeTrade | cancelCollection | applyInbound | receiveYellowcard | receiveBridge => cases ht

/-! ### Every reachable state -/

/-- The compensating entry of a transfer. -/
def Compensates (t : TransferRow) (e : LedgerEntry) : Prop :=
  e.strip = entryOf t t.sendCurrency t.sendAmountMinor "reversed"

/-- Every row of a transfer can be read without a default, and a `REVERSED` row names the
compensating entry. -/
structure Legible (id : Uuid) (d : World) : Prop where
  rows : ∀ r ∈ d.historyOf id, Repo.Readable r.status r.payload
  refunds : ∀ r ∈ d.historyOf id, r.status = .reversed → ∀ t, d.transfer id = some t →
    ∃ e ∈ d.entriesOfTransfer id, Compensates t e ∧
      (r.payload.getD []).get "reversalLedgerEntryId" = some (.id e.id)

/-- A path that ends in `REVERSED` posts the compensating entry last. -/
theorem getLast_pathEntries {t : TransferRow} {s : TransferStatus} {steps : List PathStep}
    (hp : pathAllowed s (steps.map (·.target)) = true)
    (hrev : .reversed ∈ steps.map (·.target)) :
    (pathEntries t s steps).getLast? =
      some (entryOf t t.sendCurrency t.sendAmountMinor "reversed") := by
  induction steps generalizing s with
  | nil => cases hrev
  | cons st steps ih =>
    simp only [List.map_cons, pathAllowed, Bool.and_eq_true, decide_eq_true_eq] at hp
    obtain ⟨-, hp⟩ := hp
    rcases List.mem_cons.1 hrev with hst | hmem
    · -- Nothing follows `REVERSED`.
      have htarget : st.target = .reversed := hst.symm
      rw [htarget] at hp
      have hnil : steps = [] := by
        cases steps with
        | nil => rfl
        | cons st' steps => simp [pathAllowed, allowed] at hp
      subst hnil
      simp [pathEntries, htarget, refundFor, legFor]
    · have hlast := ih hp hmem
      rw [pathEntries, List.getLast?_append, List.getLast?_append, hlast]
      rfl

section Commit

variable {A : Assumed} {op : Op} {d : World} {ws : List Write} {id : Uuid}

/-- The last entry of a commit that reverses a transfer compensates it. -/
theorem Op.Commits.compensates (hk : op.Commits A d ws) {row : HistoryRow}
    (hrow : row ∈ ws.filterMap Write.historyRow) (hs : row.status = .reversed) {e : LedgerEntry}
    (he : (ws.filterMap Write.entry).getLast? = some e) :
    ∃ t, d.transfer row.transferId = some t ∧ Compensates t e := by
  have hstrip : row.strip ∈ (brief ws).filterMap Write.historyRow := by
    rw [historyRows_brief]
    exact List.mem_map_of_mem hrow
  have hlast : ((brief ws).filterMap Write.entry).getLast? = some e.strip := by
    rw [entries_brief, List.getLast?_map, he]
    rfl
  cases hk.kind with
  | @path t steps tail hm htail _ =>
    have hrows : tail.filterMap Write.historyRow = [] := by obtain rfl | ⟨ev, rfl⟩ := htail <;> rfl
    have hentries : tail.filterMap Write.entry = [] := by obtain rfl | ⟨ev, rfl⟩ := htail <;> rfl
    rw [hm.brief, List.filterMap_append, hrows, List.append_nil, historyRow_pathBrief] at hstrip
    rw [hm.brief, List.filterMap_append, hentries, List.append_nil, entry_pathBrief] at hlast
    obtain ⟨st, hst, heq⟩ := List.mem_map.1 hstrip
    have hid : row.transferId = t.id := (congrArg HistoryRow.transferId heq).symm
    have htarget : st.target = .reversed := (congrArg HistoryRow.status heq).trans hs
    rw [getLast_pathEntries hm.allowed (htarget ▸ List.mem_map_of_mem hst)] at hlast
    exact ⟨t, hid ▸ hm.found, (Option.some.inj hlast).symm⟩
  | create hop hc =>
    rw [hc.brief] at hstrip
    simp only [List.filterMap_cons, Write.historyRow, List.filterMap_nil, List.mem_singleton]
      at hstrip
    have : row.status = .created := congrArg HistoryRow.status hstrip
    rw [hs] at this
    cases this
  | apart ha =>
    rw [ha.history] at hstrip
    cases hstrip

/-- A commit whose rows can be read back keeps a transfer legible. -/
theorem Legible.commit (h : Legible id d) (hwf : Wf d) (hk : op.Commits A d ws)
    (hlog : Logged ((ws.filterMap Write.historyRow).filter fun r => r.transferId = id)
      (ws.filterMap Write.entry)) : Legible id (applyAll ws d) := by
  refine ⟨fun r hr => ?_, fun r hr hs t' ht' => ?_⟩ <;> rw [historyOf_applyAll] at hr <;>
    rcases List.mem_append.1 hr with hr | hr
  · exact h.rows r hr
  · exact (hlog r hr).1
  · obtain ⟨t, ht⟩ : ∃ t, d.transfer id = some t := by
      by_contra hno
      rw [hwf.historyOf_of_none (Option.eq_none_iff_forall_ne_some.2 fun t ht => hno ⟨t, ht⟩)] at hr
      cases hr
    obtain ⟨t'', ht'', hcore, -⟩ := transfer_applyAll_some ht ws
    cases ht'.symm.trans ht''
    obtain ⟨e, he, hcomp, hget⟩ := h.refunds r hr hs t ht
    refine ⟨e, ?_, ?_, hget⟩
    · rw [entriesOfTransfer_applyAll]
      exact List.mem_append_left _ he
    · rw [Compensates, hcomp]
      exact (TransferRow.eq_of_core (fun t => entryOf t t.sendCurrency t.sendAmountMinor "reversed")
        (fun _ => rfl) hcore).symm
  · obtain ⟨e, he, hget⟩ := (hlog r hr).2 hs
    obtain ⟨hmem, hid⟩ := List.mem_filter.1 hr
    obtain ⟨t, ht, hcomp⟩ := hk.compensates hmem hs he
    rw [of_decide_eq_true hid] at ht
    obtain ⟨t'', ht'', hcore, -⟩ := transfer_applyAll_some ht ws
    cases ht'.symm.trans ht''
    refine ⟨e, ?_, ?_, hget⟩
    · rw [entriesOfTransfer_applyAll]
      refine List.mem_append_right _ (List.mem_filter.2 ⟨List.mem_of_getLast? he, ?_⟩)
      have hsource : e.source = .transfer t.id := congrArg LedgerEntry.source hcomp
      rw [hsource, (World.transfer_mem ht).2]
      simp
    · rw [Compensates, hcomp]
      exact (TransferRow.eq_of_core (fun t => entryOf t t.sendCurrency t.sendAmountMinor "reversed")
        (fun _ => rfl) hcore).symm

end Commit

/-! ### Runs -/

section Runs

variable {ι : Type} [DecidableEq ι] {ops : ι → Op} {d₀ : World} {id : Uuid}

/-- No vault event makes the transfer `REJECTED`, `REVERSING` or `REVERSED`. -/
def Spares (ops : ι → Op) (id : Uuid) (e : Event ι)
    (s s' : Sys ι World Write Key Label Failure Answer) : Prop :=
  ∀ i, e = .go i → (ops i).onchain = true → ∀ st, s'.shared.status id = some st →
    s.shared.status id ≠ some st → st ≠ .rejected ∧ st ≠ .reversing ∧ st ≠ .reversed

/-- The path of an event that ends elsewhere goes nowhere near. -/
theorem onchainPath_spares {target : OnchainTarget} {s st : TransferStatus}
    (hl : (onchainPath target s).getLastD s ≠ .rejected ∧
      (onchainPath target s).getLastD s ≠ .reversing ∧
        (onchainPath target s).getLastD s ≠ .reversed)
    (hst : st ∈ onchainPath target s) : st = .settling ∨ st = .settled ∨ st = .expired := by
  revert hl hst
  cases target with
  | settled => cases s <;> simp [onchainPath] <;> tauto
  | reversing => cases s <;> simp [onchainPath]
  | reversed => cases s <;> simp [onchainPath]
  | cancelled q =>
    cases q <;> cases s <;> simp [onchainPath, allowed] <;> tauto

/-- The rows of an event that ends elsewhere hold nothing that is read. -/
theorem logged_of_spares {A : Assumed} {op : Op} {d : World} {ws : List Write}
    (hop : op.onchain = true) (hk : op.Commits A d ws)
    (hspares : ∀ st, (applyAll ws d).status id = some st → d.status id ≠ some st →
      st ≠ .rejected ∧ st ≠ .reversing ∧ st ≠ .reversed) (entries : List LedgerEntry) :
    Logged ((ws.filterMap Write.historyRow).filter fun r => r.transferId = id) entries := by
  intro row hrow
  obtain ⟨hmem, hid⟩ := List.mem_filter.1 hrow
  have hstrip : row.strip ∈ (brief ws).filterMap Write.historyRow := by
    rw [historyRows_brief]
    exact List.mem_map_of_mem hmem
  cases hk.kind with
  | @path t steps tail hm htail htakes =>
    have hrows : tail.filterMap Write.historyRow = [] := by obtain rfl | ⟨ev, rfl⟩ := htail <;> rfl
    rw [hm.brief, List.filterMap_append, hrows, List.append_nil, historyRow_pathBrief] at hstrip
    obtain ⟨st, hst, heq⟩ := List.mem_map.1 hstrip
    have htid : t.id = id :=
      (congrArg HistoryRow.transferId heq).trans (of_decide_eq_true hid)
    have htarget : st.target = row.status := congrArg HistoryRow.status heq
    have hne : steps ≠ [] := List.ne_nil_of_mem hst
    -- The row is a step of a path that an event takes.
    obtain ⟨target, hpath⟩ : ∃ target,
        steps.map (·.target) = onchainPath target t.currentStatus := by
      have hsteps : ∀ {target payload}, OnchainSteps target payload t steps →
          steps.map (·.target) = onchainPath target t.currentStatus :=
        fun h => h.path.resolve_right fun hno => hne hno.1
      cases op with
      | applyOnchain => exact ⟨_, hsteps htakes.2.1⟩
      | runOnce =>
        obtain ⟨target, payload, ht, -⟩ := htakes
        cases target with
        | none => exact absurd ht hne
        | some target => exact ⟨target, hsteps ht⟩
      | _ => cases hop
    obtain ⟨t', ht', -, hend⟩ := hm.transfer htail
    rw [htid] at ht'
    have hfound := hm.found
    rw [htid] at hfound
    have hout := hspares (pathEnd t.currentStatus steps)
      (by rw [World.status, ht', ← hend]; rfl) <| by
      rw [World.status, hfound]
      intro he
      exact pathEnd_ne hm.allowed hne (Option.some.inj he).symm
    rw [pathEnd_eq, hpath] at hout
    -- A path that ends in none of the three statuses passes through none of them.
    have hstatus := onchainPath_spares hout (hpath ▸ List.mem_map_of_mem hst)
    rw [htarget] at hstatus
    rcases hstatus with h | h | h <;> rw [h] <;> exact ⟨fun _ => rfl, fun hr => by cases hr⟩
  | create hcreate hc =>
    obtain ⟨bodies, rfl⟩ := hcreate
    cases hop
  | apart ha =>
    rw [ha.history] at hstrip
    cases hstrip

/-- Operations that are not on transfers append no rows. -/
theorem rows_of_not_ofTransfers {A : Assumed} {op : Op} {d : World} {ws : List Write}
    (hop : op.ofTransfers = false) (hk : op.Commits A d ws) :
    ws.filterMap Write.historyRow = [] := by
  have hnone : (brief ws).filterMap Write.historyRow = [] := by
    cases hk.kind with
    | path _ _ htakes =>
      cases op with
      | executeTrade | cancelCollection | applyInbound | receiveYellowcard | receiveBridge =>
        exact htakes.elim
      | _ => cases hop
    | create hcreate _ =>
      obtain ⟨bodies, rfl⟩ := hcreate
      cases hop
    | apart ha => exact ha.history
  rw [historyRows_brief] at hnone
  exact List.map_eq_nil_iff.1 hnone

/-- What a step of an operation on transfers that brings no vault event appends can be read back. -/
theorem logged_of_step {i : ι} (ht : (ops i).ofTransfers = true) (hc : (ops i).onchain = false)
    {s s' : Sys ι World Write Key Label Failure Answer}
    (hr : Reach (Step Env) (system ops d₀) s) (hst : Step Env (.go i) s s') :
    ∃ rows entries, s'.shared.history = s.shared.history ++ rows ∧
      s'.shared.ledger = s.shared.ledger ++ entries ∧ Logged rows entries := by
  have hpts := (points_of_reach (S := fun _ => True) (i := i) trivial (fun _ _ _ _ _ _ => trivial)
    (Call.points_settle (points_prog (ops i) ht hc)) hr).2
  obtain ⟨free, -, d, c, hn, rfl⟩ := hst
  obtain ⟨-, rfl | rfl⟩ | ⟨p, loc, w, -, -, hat, hd⟩ := Call.points_cases hpts hn
  · exact ⟨[], [], by simp, by simp, by simp [Logged]⟩
  · exact ⟨[], [], by simp [bump, Store.bump], by simp [bump, Store.bump], by simp [Logged]⟩
  · obtain ⟨q, rfl, rfl⟩ | ⟨u, f, rfl, -⟩ := hd
    · exact ⟨_, _, history_applyAll _ _, ledger_applyAll _ _, hat⟩
    · exact hat.elim

/-- One step keeps the transfer legible. -/
theorem Legible.step (hwf₀ : Wf d₀) {s s' : Sys ι World Write Key Label Failure Answer}
    {e : Event ι} (hr : Reach (Step Env) (system ops d₀) s) (hst : Step Env e s s')
    (hspares : Spares ops id e s s') (hwf : Wf s.shared) (h : Legible id s.shared) :
    Legible id s'.shared := by
  have hm := moved_of_reach hwf₀ hr hst
  generalize hs' : s'.shared = d at hm ⊢
  cases hm with
  | env d he => cases he <;> exact ⟨h.rows, h.refunds⟩
  | crash i => exact h
  | go i d hbelow hch =>
    rcases hch with rfl | rfl | ⟨ws, rfl, hv, hk⟩
    · exact h
    · exact ⟨h.rows, h.refunds⟩
    have hk : (ops i).Commits noAssumption s.shared ws := hk
    refine h.commit hwf hk ?_
    cases hchain : (ops i).onchain
    case true => exact logged_of_spares hchain hk (hs' ▸ hspares i rfl hchain) _
    cases htransfers : (ops i).ofTransfers
    case false =>
      rw [rows_of_not_ofTransfers htransfers hk]
      simp [Logged]
    obtain ⟨rows, entries, hrows, hentries, hlog⟩ := logged_of_step htransfers hchain hr hst
    rw [hs', history_applyAll, List.append_right_inj] at hrows
    rw [hs', ledger_applyAll, List.append_right_inj] at hentries
    subst hrows hentries
    exact fun row hrow => hlog row (List.mem_of_mem_filter hrow)

/-- **Readable payloads**: in every reachable state of every run in which no vault event makes the
transfer `REJECTED`, `REVERSING` or `REVERSED`, its rows can be read without a default, a
`REVERSED` row names the compensating entry, and the state that is shown is the one that was
written. -/
theorem legible_of_reach (hwf : Wf d₀) (h₀ : HistoryOk id d₀) (hl : Legible id d₀)
    {s : Sys ι World Write Key Label Failure Answer}
    (hr : Reach (fun e s s' => Step Env e s s' ∧ Spares ops id e s s') (system ops d₀) s) :
    Legible id s.shared ∧ ∀ t, s.shared.transfer id = some t → ∀ enteredAt,
      Repo.readState t.currentStatus enteredAt (s.shared.latestPayload id) =
        some (Repo.buildState t.currentStatus enteredAt (s.shared.latestPayload id)) := by
  have hlegible : Legible id s.shared := by
    refine hr.invariant (I := fun s => Legible id s.shared) hl fun s₁ e s₂ hr₁ hi hst => ?_
    have hr₁ := hr₁.mono fun _ _ _ h => h.1
    exact hi.step hwf hr₁ hst.1 hst.2 (wf_of_reach hwf hr₁)
  refine ⟨hlegible, fun t ht enteredAt => ?_⟩
  have hhist := (historyOk_of_reach lax_anyChange granted_noAssumption hwf h₀
    (hr.mono fun _ _ _ h => stepIf_of_step h.1)).2
  have hlast := (hhist.inSequence ht).last
  obtain ⟨r, hr', hs⟩ : ∃ r, (s.shared.historyOf id).getLast? = some r ∧
      r.status = t.currentStatus := by
    rw [List.map_map, List.getLast?_map] at hlast
    obtain ⟨r, hr', hs⟩ := Option.map_eq_some_iff.1 hlast
    exact ⟨r, hr', hs⟩
  have hpayload : s.shared.latestPayload id = r.payload := by
    rw [hhist.numbered.latestPayload, hr']
    rfl
  rw [hpayload, ← hs]
  exact (hlegible.rows r (List.mem_of_getLast? hr')).eq enteredAt

/-- The rows of a completed transfer that is reversed by hand can be read back. -/
theorem legible_of_completed :
    ∃ s, Reach (Step Env) (system lateOps (sampleWorld "NG")) s ∧
      s.shared.status 103 = some .reversed ∧ Legible 103 s.shared := by
  obtain ⟨s, hr, hs⟩ := exists_reach lateOps (sampleWorld "NG") [0, 1, 2, 3]
    [(0, 15), (1, 41), (2, 48), (3, 12)] (fun s => s.shared.status 103 = some .reversed)
    (by decide) (by decide +kernel)
  have hquiet : ∀ i, (lateOps i).onchain = false := by decide
  refine ⟨s, hr, of_decide_eq_true hs, ?_⟩
  refine (legible_of_reach (wf_sampleWorld "NG") (.of_new (wf_sampleWorld "NG") rfl)
    ⟨by simp [World.historyOf, sampleWorld], by simp [World.historyOf, sampleWorld]⟩
    (hr.mono fun e s s' hst => ⟨hst, fun i _ hc => ?_⟩)).1
  rw [hquiet i] at hc
  cases hc

/-- A new transfer is cancelled on the chain. -/
def quoteCancelledOps : Fin 2 → Op
  | 0 => sampleCreate true "transfer" 3
  | 1 => .applyOnchain 100 (.cancelled false) (Listener.chainPayload (.quoteCancelled 100 7) 8 1)

/-- A transfer that the chain cancelled has no failure category and no reason code: it is shown
with the defaults. -/
theorem illegible_of_cancelled :
    ∃ s, Reach (Step Env) (system quoteCancelledOps (sampleWorld "NG")) s ∧
      s.shared.status 100 = some .rejected ∧
      Repo.readState .rejected 0 (s.shared.latestPayload 100) = none ∧
      Repo.buildState .rejected 0 (s.shared.latestPayload 100) =
        .rejected 0 .partnerFailure (.str "UNKNOWN") := by
  obtain ⟨s, hr, hs⟩ := exists_reach quoteCancelledOps (sampleWorld "NG") [0, 1] [(0, 41), (1, 5)]
    (fun s => s.shared.status 100 = some .rejected &&
      Repo.readState .rejected 0 (s.shared.latestPayload 100) = none &&
      Repo.buildState .rejected 0 (s.shared.latestPayload 100) =
        .rejected 0 .partnerFailure (.str "UNKNOWN")) (by decide) (by decide +kernel)
  simp only [Bool.and_eq_true, decide_eq_true_eq] at hs
  exact ⟨s, hr, hs.1.1, hs.1.2, hs.2⟩

end Runs

end Kimana
