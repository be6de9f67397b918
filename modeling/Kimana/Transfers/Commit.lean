import Kimana.Transfers.Transition

/-!
# What the engine's operations commit

`Moves` : a transaction took a transfer, as it found it, through allowed steps.  For each operation
a predicate says which steps (`Advance` and its companions), and a specification shows that under
interference it commits nothing else.

`Assumed` names the two conditions on runs under which the checks of `advanceOnce` can be trusted;
`Granted` is what they mean for the rules.
-/

namespace Kimana.Engine

open ReadCommitted Table TransferStatus Util Ledger

/-- Conditions on the runs considered. -/
structure Assumed where
  /-- While a call waits for a transfer's row, nobody enters `SCREENED`. -/
  hold : Prop
  /-- While a call relies on the funds it found, nobody debits the account. -/
  funds : Prop

/-- What the conditions mean for the changes others make. -/
structure Granted {ι : Type} (A : Assumed) (R : Rules ι World Key Label) : Prop where
  hold : A.hold → ∀ ℓ ids l snap id d d', l.locking = some id →
    R.Others ℓ ids l (some snap) d d' → d'.status id = some .screened →
      d.status id = some .screened ∧ d'.latestPayload id = d.latestPayload id
  funds : A.funds → ∀ ℓ ids l w acct d d', l.funds = some acct → R.Others ℓ ids l w d d' →
    d.balance acct ≤ d'.balance acct

/-- A transaction took transfer `t`, as found in `d`, through `steps`; `tail` is what it wrote
besides. -/
structure Moves (d : World) (ws : List Write) (t : TransferRow) (steps : List PathStep)
    (tail : List Write) : Prop where
  found : d.transfer t.id = some t
  allowed : pathAllowed t.currentStatus (steps.map (·.target)) = true
  brief : brief ws = pathBrief t t.currentStatus steps ++ tail

theorem Moves.events {d : World} {ws : List Write} {t : TransferRow} {steps : List PathStep}
    {tail : List Write} (h : Moves d ws t steps tail) :
    ws.filterMap Write.event = tail.filterMap Write.event := by
  rw [← events_brief, h.brief, List.filterMap_append, filterMap_pathBrief (fun _ => rfl)
    (fun _ => rfl) (fun _ _ _ => rfl) (fun _ => rfl), List.nil_append]

/-- The steps of `advanceOnce`. -/
inductive Advance (A : Assumed) (state : AppState) (d : World) (ws : List Write)
    (t : TransferRow) : List PathStep → Prop
  /-- At a waypoint. -/
  | stay : ws = [] → Advance A state d ws t []
  | forward (st : PathStep) : t.currentStatus.forwardStep = some st.target →
      ¬ (t.currentStatus = .settling ∧ state.settlementOnchain = true) →
      (A.hold → t.currentStatus = .screened → holds (d.latestPayload t.id) = false) →
      (A.funds → st.target = .funded → ∀ acct,
        ⟨acct, t.customerId, .fiat t.sendCurrency⟩ ∈ (applyAll ws d).accounts →
          t.sendAmountMinor ≤ d.balance acct) →
      st.Plain → Advance A state d ws t [st]
  /-- The funds are not there. -/
  | reject (payee : String) : t.currentStatus = .awaitingFunds →
      Advance A state d ws t [⟨.rejected, some insufficientFunds, payee⟩]

/-- What `advanceOnce` commits. -/
def AdvanceCommits (A : Assumed) (state : AppState) (id : Uuid) (d : World) (ws : List Write) :
    Prop :=
  ∃ t steps, t.id = id ∧ Moves d ws t steps [] ∧ Advance A state d ws t steps

/-- What an operation of fixed steps commits. -/
def StepsCommit (id : Uuid) (ok : TransferRow → List PathStep → Prop) (d : World)
    (ws : List Write) : Prop :=
  ∃ t steps, t.id = id ∧ Moves d ws t steps [] ∧ ok t steps

section Spec

variable {ι : Type} {R : Rules ι World Key Label} {i : ι} {loc loc' : Loc} {d d' : World}
  {A : Assumed}

/-- From the lock on, a transaction that wrote `ws` commits a move of the locked transfer. -/
theorem Locked.moves (hR : Framed R) {id : Uuid} {t : LockedTransfer} {loc₁ loc₂ : Loc}
    {d₁ d₂ : World} {ws tail : List Write} {steps : List PathStep} (hi : loc.pending = [])
    (hl : Locked R id loc d t loc₁ d₁) (h : Ran R loc₁ d₁ loc₂ d₂ ws)
    (hp : pathAllowed t.row.currentStatus (steps.map (·.target)) = true)
    (hb : brief ws = pathBrief t.row t.row.currentStatus steps ++ tail) :
    loc₂.pending = ws ∧ Moves d₂ ws t.row steps tail := by
  have hp₁ : loc₁.pending = [] := by rw [hl.ran.pending, hi]; rfl
  have hrow := hl.row
  rw [view_of_pending _ hp₁] at hrow
  refine ⟨by rw [h.pending, hp₁]; rfl, ?_, hp, hb⟩
  rw [hl.rowId, ← (h.agree hR).transfer hl.key, hrow]

theorem Locked.stands {id : Uuid} {t : LockedTransfer} {loc₁ : Loc} {d₁ : World}
    (hl : Locked R id loc d t loc₁ d₁) : Stands t.row t.row.currentStatus (view loc₁ d₁) :=
  .self (hl.rowId ▸ hl.row)

theorem Locked.key' {id : Uuid} {t : LockedTransfer} {loc₁ : Loc} {d₁ : World}
    (hl : Locked R id loc d t loc₁ d₁) : .transfer t.row.id ∈ loc₁.locks := hl.rowId ▸ hl.key

/-! ### Operations of fixed steps -/

theorem pathBrief_singleton {t : TransferRow} {source : TransferStatus} {st : PathStep}
    (h : st.target ≠ .reversed) : pathBrief t source [st] = transitionBrief t source st := by
  simp [pathBrief, refundFor, h]

/-- A transaction that locks a transfer, carries out one transition and commits. -/
theorem applyOnce_spec {B : Type} (hR : Framed R) {P : World → List Write → Prop}
    (hg : Grants R i P) {id : Uuid} (conn : Conn) {t : LockedTransfer} (actor : Option Uuid)
    {target : TransferStatus} {payload : Option JObj} (answer : B) {loc₁ : Loc} {d₁ : World}
    (hp : loc.pending = []) (hl : Locked R id loc d t loc₁ d₁) (hrev : target ≠ .reversed)
    (hP : ∀ d ws payee, Moves d ws t.row [⟨target, payload, payee⟩] [] → P d ws) :
    wp R i (fun a loc' d' => a = answer ∧ Committed loc loc' d')
      (fun e loc' d' => Dropped loc loc' d' ∧
        (e.code = .conflict → target ∉ t.row.currentStatus.allowed))
      (do apply conn t actor t.row.currentStatus target payload; Tx.commit; return answer)
      loc₁ d₁ := by
  simp only [Prog.bind_eq, Tx.commit, Prog.pure_eq, Prog.bind]
  refine wp_bind_of (apply_spec hR hl.ran.inTx hl.key' hl.stands) ?_ ?_
  · rintro e loc₂ d₂ (⟨hf, hno, -⟩ | he)
    · exact ⟨(hf.dropped hl.ran.inTx.calm).trans hl.ran, fun _ => hno⟩
    · refine ⟨(he.toFailed.dropped hl.ran.inTx.calm).trans hl.ran, fun hc => ?_⟩
      rw [he.error] at hc
      cases hc
  rintro _ loc₂ d₂ ⟨ws, payee, h₂, hall, hb, -, -⟩
  rw [← pathBrief_singleton hrev] at hb
  refine h₂.wp_commit_of hR hg (fun d₃ h₃ => ?_) fun d₃ h₃ hc => ⟨rfl, hc.trans hl.ran⟩
  have hm : loc₂.pending = ws ∧ Moves d₃ ws t.row [⟨target, payload, payee⟩] [] :=
    hl.moves hR hp h₃ (by simp [pathAllowed, hall]) (by simpa using hb)
  exact hm.1 ▸ hP _ _ _ hm.2

/-- `expireTransfer` commits the step to `EXPIRED`. -/
theorem expireTransfer_spec (hR : Framed R) {id : Uuid} {actor : Option Uuid}
    (hg : Grants R i (StepsCommit id fun _ steps => ∃ payee, steps = [⟨.expired, none, payee⟩]))
    (h : Idle loc d) :
    wp R i (fun _ loc' d' => Committed loc loc' d') (fun _ loc' d' => Dropped loc loc' d')
      (expireTransfer id actor) loc d := by
  refine wp_begin hR h fun conn d₁ _ h₁ => ?_
  refine wp_bind_of (lock_spec hR h₁.inTx id) (fun e _ _ he => he.1.dropped h.calm) ?_
  intro t loc₂ d₂ hl
  refine wp_mono (fun _ _ _ h => h.2) (fun _ _ _ h => h.1)
    (applyOnce_spec hR hg conn actor () h₁.pending (hl : Locked R id loc d₁ t loc₂ d₂) (by simp)
      fun d ws payee hm => ⟨t.row, _, hl.rowId, hm, payee, rfl⟩)

/-- A decision on a hold commits one step from `SCREENED`, on a transfer that was held in the
snapshot of the lock. -/
theorem resolveScreeningHold_spec (hR : Framed R) {id : Uuid} {decision : ScreeningDecision}
    {reason : Option String} {actor : Option Uuid} {body : String}
    (hg : Grants R i (StepsCommit id fun t steps => t.currentStatus = .screened ∧
      ∃ payee, steps = [⟨(resolution decision reason body).1,
        some (resolution decision reason body).2, payee⟩])) (h : Idle loc d) :
    wp R i (fun _ loc' d' => Committed loc loc' d') (fun _ loc' d' => Dropped loc loc' d')
      (resolveScreeningHold id decision reason actor body) loc d := by
  refine wp_begin hR h fun conn d₁ _ h₁ => ?_
  refine wp_bind_of (lock_spec hR h₁.inTx id) (fun e _ _ he => he.1.dropped h.calm) ?_
  intro t loc₂ d₂ hl
  dsimp only
  split
  case isTrue hno => exact hl.ran.dropped
  case isFalse hno =>
    have hs : t.row.currentStatus = .screened := by
      simp only [ne_eq, Bool.or_eq_true, decide_eq_true_eq, not_or, not_not] at hno
      exact hno.1
    refine wp_mono (fun _ _ _ h => h.2) (fun _ _ _ h => h.1)
      (applyOnce_spec hR hg conn actor _ h₁.pending (hl : Locked R id loc d₁ t loc₂ d₂) ?_
        fun d ws payee hm => ⟨t.row, _, hl.rowId, hm, hs, payee, rfl⟩)
    cases decision <;> simp [resolution]

/-- `reverseTransfer` commits `REVERSING` and `REVERSED`. -/
theorem reverseTransfer_spec (hR : Framed R) {id : Uuid} {reason : String} {actor : Option Uuid}
    (hg : Grants R i (StepsCommit id fun _ steps =>
      steps.map (·.target) = [.reversing, .reversed] ∧ ∀ st ∈ steps, st.Plain)) (h : Idle loc d) :
    wp R i (fun _ loc' d' => Committed loc loc' d') (fun _ loc' d' => Dropped loc loc' d')
      (reverseTransfer id reason actor) loc d := by
  refine wp_begin hR h fun conn d₁ _ h₁ => ?_
  refine wp_bind_of (lock_spec hR h₁.inTx id) (fun e _ _ he => he.1.dropped h.calm) ?_
  intro t loc₂ d₂ hl
  refine wp_bind_of (apply_spec hR hl.ran.inTx hl.key' hl.stands) ?_ ?_
  · rintro e loc₃ d₃ (⟨hf, -⟩ | he)
    · exact (hf.dropped hl.ran.inTx.calm).trans hl.ran
    · exact (he.toFailed.dropped hl.ran.inTx.calm).trans hl.ran
  rintro _ loc₃ d₃ ⟨ws₁, payee₁, h₃, hall₁, hb₁, hs₃, -⟩
  refine wp_bind_of (postSendRefund_spec hR h₃.inTx hs₃.owner)
    (fun _ _ _ he => (he.toFailed.dropped h₃.inTx.calm).trans (hl.ran.trans h₃)) ?_
  rintro n loc₄ d₄ ⟨ws₂, h₄, hb₂⟩
  have h₂₄ := h₃.trans h₄
  have hs₄ := (hs₃.agree (h₄.agree_view hR) (h₃.locks _ hl.key')).applyAll ws₂
  rw [← h₄.view_eq, ← statusIn_brief, hb₂, statusIn_entries] at hs₄
  refine wp_bind_of (apply_spec hR h₄.inTx (h₂₄.locks _ hl.key') hs₄) ?_ ?_
  · rintro e loc₅ d₅ (⟨hf, -⟩ | he)
    · exact (hf.dropped h₄.inTx.calm).trans (hl.ran.trans h₂₄)
    · exact (he.toFailed.dropped h₄.inTx.calm).trans (hl.ran.trans h₂₄)
  rintro _ loc₅ d₅ ⟨ws₃, payee₃, h₅, hall₃, hb₃, -, -⟩
  refine (h₂₄.trans h₅).wp_commit_of hR hg (fun d₆ h₆ => ?_) fun d₆ h₆ hc => hc.trans hl.ran
  let steps : List PathStep := [⟨.reversing, some [("reason", .str reason)], payee₁⟩,
    ⟨.reversed, some [("reason", .str reason), ("reversalLedgerEntryId", .id n)], payee₃⟩]
  have hm : loc₅.pending = ws₁ ++ ws₂ ++ ws₃ ∧ Moves d₆ (ws₁ ++ ws₂ ++ ws₃) t.row steps [] :=
    hl.moves hR h₁.pending h₆ (by simp [steps, pathAllowed, hall₁, hall₃])
      (by simp [steps, hb₁, hb₂, hb₃, pathBrief, refundFor])
  rw [hm.1]
  refine ⟨t.row, steps, hl.rowId, hm.2, rfl, ?_⟩
  refine List.forall_mem_cons.2 ⟨?_, List.forall_mem_singleton.2 ?_⟩ <;> rintro _ ⟨⟩ <;> rfl

/-! ### On-chain events -/

/-- What the listener does with an event, by the status it finds. -/
def onchainOutcome (target : OnchainTarget) (source : TransferStatus) : OnchainOutcome :=
  let path := onchainPath target source
  if path = [] then .alreadyApplied source
  else if pathAllowed source path then .applied (path.getLastD source)
  else .ignored source

/-- The steps of an event: its path, or none when the path is not allowed. -/
structure OnchainSteps (target : OnchainTarget) (payload : JObj) (t : TransferRow)
    (steps : List PathStep) : Prop where
  recorded : ∀ st ∈ steps, Recorded payload st
  path : steps.map (·.target) = onchainPath target t.currentStatus ∨
    steps = [] ∧ pathAllowed t.currentStatus (onchainPath target t.currentStatus) = false

/-- An event applied to a transfer that the transaction locks. -/
structure AppliedOnchain (R : Rules ι World Key Label) (id : Uuid) (target : OnchainTarget)
    (payload : JObj) (loc : Loc) (d : World) (outcome : OnchainOutcome) (loc' : Loc) (d' : World)
    (t : LockedTransfer) (loc₁ : Loc) (d₁ : World) (ws : List Write) (steps : List PathStep) :
    Prop where
  locked : Locked R id loc d t loc₁ d₁
  ran : Ran R loc₁ d₁ loc' d' ws
  kind : OnchainSteps target payload t.row steps
  allowed : pathAllowed t.row.currentStatus (steps.map (·.target)) = true
  brief : brief ws = pathBrief t.row t.row.currentStatus steps
  quiet : steps = [] → ws = []
  outcome : outcome = onchainOutcome target t.row.currentStatus

theorem pathEnd_eq (source : TransferStatus) (steps : List PathStep) :
    pathEnd source steps = (steps.map (·.target)).getLastD source := by
  induction steps generalizing source with
  | nil => rfl
  | cons st steps ih => rw [pathEnd_cons, ih, List.map_cons, List.getLastD_cons]

/-- A posting of the path of an event would find a balance that 64 bits do not hold. -/
def Unpostable (d : World) (t : TransferRow) (target : OnchainTarget) : Prop :=
  ∃ steps es e, steps.map (·.target) = onchainPath target t.currentStatus ∧
    pathAllowed t.currentStatus (steps.map (·.target)) = true ∧
    es ++ [e] <+: pathEntries t t.currentStatus steps ∧
    ¬ FitsI64 (d.funds t.customerId e.currency + netIn es e.currency)

/-- An event is given up under the transfer's row lock: others opened an account first, or a step of
its path can not be posted. -/
def AbandonedOnchain (R : Rules ι World Key Label) (id : Uuid) (target : OnchainTarget) (loc : Loc)
    (d : World) (e : ApiError) (loc' : Loc) (d' : World) : Prop :=
  ∃ t loc₁ d₁, Locked R id loc d t loc₁ d₁ ∧
    pathAllowed t.row.currentStatus (onchainPath target t.row.currentStatus) = true ∧
    GaveUp R loc₁ (PathOverflown R t.row t.row.currentStatus
      (onchainPath target t.row.currentStatus) loc₁ d₁) e loc' d'

/-- An event given up: others opened an account first, or it could not be posted where it
stopped. -/
theorem AbandonedOnchain.why (hR : Framed R) {id : Uuid} {target : OnchainTarget} {e : ApiError}
    (h : AbandonedOnchain R id target loc d e loc' d') (hi : loc.pending = []) :
    (∃ loc₁, .transfer id ∈ loc₁.locks ∧ Raced R loc₁) ∨
      ∃ t, R.Rely loc none d d' ∧ d'.transfer id = some t ∧ Unpostable d' t target := by
  obtain ⟨t, loc₁, d₁, hl, hall, hg⟩ := h
  refine hg.why.imp (⟨loc₁, hl.key, ·⟩) fun ⟨steps, es, x, hpath, hpre, hov⟩ => ?_
  have hp₁ : loc₁.pending = [] := by rw [hl.ran.pending, hi]; rfl
  have hnone : (brief loc₁.pending).filterMap Write.entry = [] := by rw [hp₁]; rfl
  have hno := hov.not_fits hR hnone
    (fun y hy => source_of_mem_pathEntries (hpre.subset (List.mem_append_left _ hy)))
    hl.stands.owner
  obtain ⟨ws, hr, -⟩ := hov
  have hrow : d'.transfer id = some t.row := by
    rw [← (hr.agree hR).transfer hl.key, ← view_of_pending d₁ hp₁]
    exact hl.row
  exact ⟨t.row, (hl.ran.trans hr).rely, hrow, steps, es, x, hpath, hpath ▸ hall, hpre, hno⟩

/-- An event is applied, or the transfer is not there, or the event is given up. -/
theorem applyOnchain_spec (hR : Framed R) (h : InTx loc d) (conn : Conn) (id : Uuid)
    (target : OnchainTarget) (payload : JObj) :
    wp R i (fun outcome loc' d' => ∃ t loc₁ d₁ ws steps,
        AppliedOnchain R id target payload loc d outcome loc' d' t loc₁ d₁ ws steps)
      (fun e loc' d' => Failed loc loc' d' ∧
        ((∃ d₁, R.Rely loc none d d₁ ∧ (view loc d₁).transfer id = none) ∨
          AbandonedOnchain R id target loc d e loc' d'))
      (Engine.applyOnchain conn id target payload) loc d := by
  simp only [Engine.applyOnchain, Prog.bind_eq, Prog.pure_eq]
  refine wp_bind_of (lock_spec hR h id) (fun e _ _ he => ⟨he.1, .inl he.2.2⟩) ?_
  intro t loc₁ d₁ hl
  split
  case isTrue hnil =>
    exact ⟨t, loc₁, d₁, [], [], hl, .refl hl.ran.inTx, ⟨by simp, .inl (by simp [hnil])⟩, rfl, rfl,
      fun _ => rfl, by simp [onchainOutcome, hnil]⟩
  case isFalse hne =>
    split
    case isFalse hno =>
      exact ⟨t, loc₁, d₁, [], [], hl, .refl hl.ran.inTx, ⟨by simp, .inr ⟨rfl, by simpa using hno⟩⟩,
        rfl, rfl, fun _ => rfl, by simp [onchainOutcome, hne, hno]⟩
    case isTrue hyes =>
      refine wp_bind_of (walk_spec hR hl.ran.inTx hyes hl.key' hl.stands) ?_ ?_
      · exact fun e _ _ he => ⟨he.toFailed.trans hl.ran, .inr ⟨t, loc₁, d₁, hl, hyes, he⟩⟩
      rintro _ loc₂ d₂ ⟨ws, steps, h₂, hpath, hrec, hb, rfl⟩
      refine ⟨t, loc₁, d₁, ws, steps, hl, h₂, ⟨hrec, .inl hpath⟩, hpath ▸ hyes, hb, ?_,
        by simp [onchainOutcome, hne, hyes, pathEnd_eq, hpath]⟩
      rintro rfl
      exact absurd hpath.symm hne

end Spec

end Kimana.Engine
