import Kimana.Ledger.Balance
import Kimana.Transfers.Commit

/-!
# Advancing a transfer under interference

* `nextStep` : the step that `advanceOnce` takes from a status.
* `advanceOnce_advanced` : one call of `advanceOnce` commits that step, a rejection of a transfer
  whose funds it did not find, or nothing; it fails for no other reasons than those of `Blocked`.
* `drive_spec` : so does every turn of a drive loop, which ends.
-/

namespace Kimana.Engine

open ReadCommitted Table TransferStatus Util Ledger

variable {ι : Type} {R : Rules ι World Key Label} {i : ι} {loc loc' : Loc} {d d' : World}
  {A : Assumed}

/-- The payload of a forward step writes nothing, and names no status. -/
theorem payloadFor_spec (hR : Framed R) (h : InTx loc d) (t : LockedTransfer)
    (target : TransferStatus) (threshold : ℤ) (body : String) :
    wp R i (fun p loc' d' => Ran R loc d loc' d' [] ∧ ∀ o, p = some o → o.get "status" = none)
      (fun _ _ _ => False) (payloadFor t target threshold body) loc d := by
  cases target
  case screened =>
    simp only [payloadFor]
    generalize Screening.screen _ _ = outcome
    split
    · simp only [Prog.bind_eq, Tx.query, Prog.pure_eq, Prog.bind]
      exact (Ran.refl h).wp_query hR fun _ _ h₁ => ⟨h₁, by rintro _ ⟨⟩; rfl⟩
    · exact ⟨Ran.refl h, by rintro _ ⟨⟩; rfl⟩
  all_goals exact ⟨Ran.refl h, by rintro _ ⟨⟩; try rfl⟩

/-- The step that `advanceOnce` takes from a status. -/
def nextStep (onchain : Bool) (s : TransferStatus) : Option TransferStatus :=
  (forwardStep s).filter fun _ => !(s = .settling && onchain)

/-- What a call of `advanceOnce` that began in `d` found before it commits. -/
structure Checked (R : Rules ι World Key Label) (state : AppState) (loc : Loc) (d : World)
    (t : TransferRow) (steps : List PathStep) : Prop where
  found : ∃ d₁, R.Rely loc none d d₁ ∧ d₁.transfer t.id = some t
  stay : steps = [] → nextStep state.settlementOnchain t.currentStatus = none
  payee : ∀ st ∈ steps, Payee R loc d t st.target st.payee
  poor : .rejected ∈ steps.map (·.target) → ∃ d₁, R.Rely loc none d d₁ ∧
    d₁.transfer t.id = some t ∧ d₁.funds t.customerId (.fiat t.sendCurrency) < t.sendAmountMinor

/-- The customer of a transfer has a balance that 64 bits do not hold. -/
def Unheld (id : Uuid) (d : World) : Prop :=
  ∃ c currency, d.Owner (.transfer id) c ∧ ¬ FitsI64 (d.funds c currency)

theorem unheld_of_overflown (hR : Framed R) {t : TransferRow} {currency : LedgerCurrency}
    (h : Overflown R t.customerId currency [] loc d loc' d')
    (hp : (brief loc.pending).filterMap Write.entry = [])
    (ho : d.Owner (.transfer t.id) t.customerId) : Unheld t.id d' := by
  have hno := h.not_fits hR hp (by simp) (ho.ext (ext_applyAll _ _))
  obtain ⟨ws, hr, -⟩ := h
  exact ⟨_, currency, ho.ext (hr.rely_ext hR), by simpa using hno⟩

/-- A call that holds a transfer, from `AWAITING_FUNDS` on, stops in `d'` because of a balance that
64 bits do not hold. -/
structure Halted (R : Rules ι World Key Label) (t : TransferRow) (loc : Loc) (d d' : World) :
    Prop where
  rely : R.Rely loc none d d'
  row : d'.transfer t.id = some t
  rank : awaitingFunds.rank ≤ t.currentStatus.rank
  unheld : Unheld t.id d'

/-- Nothing is posted before `AWAITING_FUNDS`. -/
theorem rank_of_leg {t : TransferRow} {s target : TransferStatus} {payee : String} {e : LedgerEntry}
    (hall : target ∈ s.allowed) (h : legFor t payee s target = [e]) :
    awaitingFunds.rank ≤ s.rank := by
  cases s <;> simp only [allowed, List.mem_cons, List.not_mem_nil, or_false] at hall <;>
    first
    | decide
    | (rcases hall with rfl | rfl | rfl <;> cases h)

theorem LegOverflown.halted (hR : Framed R) {t : TransferRow} {target : TransferStatus}
    (h : LegOverflown R t t.currentStatus target loc d loc' d')
    (hp : (brief loc.pending).filterMap Write.entry = []) (hk : .transfer t.id ∈ loc.locks)
    (hrow : d.transfer t.id = some t) (hall : target ∈ t.currentStatus.allowed) :
    Halted R t loc d d' := by
  obtain ⟨payee, e, hleg, ho⟩ := h
  refine ⟨?_, ?_, rank_of_leg hall hleg, unheld_of_overflown hR ho hp (Stands.self hrow).owner⟩
  all_goals obtain ⟨ws, hr, -⟩ := ho
  · exact hr.rely
  · exact (hr.agree hR).transfer hk ▸ hrow

/-- A forward step commits its transition. -/
theorem stepForward_spec (hR : Framed R) {P : World → List Write → Prop} (hg : Grants R i P)
    {state : AppState} {conn : Conn} {t : LockedTransfer} {actor : Option Uuid}
    {target : TransferStatus} {body : String} (h : InTx loc d)
    (hk : .transfer t.row.id ∈ loc.locks) (hrow : d.transfer t.row.id = some t.row)
    (hb : brief loc.pending = []) (hall : target ∈ t.row.currentStatus.allowed)
    (hrev : target ≠ .reversed)
    (hP : ∀ loc' d' ws st, Ran R loc d loc' d' ws → st.target = target → st.Plain →
      Payee R loc d t.row st.target st.payee → Moves d' loc'.pending t.row [st] [] →
      P d' loc'.pending) :
    wp R i (fun s loc' d' => s = target ∧ Committed loc loc' d' ∧
        ∃ d₁ ws, d' = applyAll ws d₁ ∧ P d₁ ws)
      (fun e loc' d' => Dropped loc loc' d' ∧ e = .serverError ∧
        (Raced R loc ∨ Halted R t.row loc d d'))
      (stepForward state conn t actor t.row.currentStatus target body) loc d := by
  refine wp_bind_of (payloadFor_spec hR h t target _ body) (fun _ _ _ he => he.elim) ?_
  rintro payload loc₁ d₁ ⟨h₁, hplain⟩
  have hs : Stands t.row t.row.currentStatus (view loc d) := by
    have := (Stands.self hrow).applyAll loc.pending
    rwa [← statusIn_brief, hb] at this
  have hs₁ := (hs.agree (h₁.agree_view hR) hk).applyAll []
  rw [← h₁.view_eq] at hs₁
  refine wp_bind_of (apply_spec hR h₁.inTx (h₁.locks _ hk) hs₁) ?_ ?_
  · rintro e loc₂ d₂ (⟨-, hno, -⟩ | he)
    · exact absurd hall hno
    · have hg : GaveUp R loc (fun _ => Halted R t.row loc d) e loc₂ d₂ := he.trans h₁ fun ho =>
        (ho.after h₁ rfl).halted hR (by rw [hb]; rfl) hk hrow hall
      exact ⟨(he.toFailed.dropped h₁.inTx.calm).trans h₁, hg.error, hg.why⟩
  rintro _ loc₂ d₂ ⟨ws, payee, h₂, -, hbr, -, hpayee⟩
  have hcommit : ∀ d₃, Ran R loc d loc₂ d₃ ([] ++ ws) → P d₃ loc₂.pending := by
    intro d₃ h₃
    refine hP _ _ _ ⟨target, payload, payee⟩ h₃ rfl hplain (hpayee.trans h₁)
      ⟨?_, by simp [pathAllowed, hall], ?_⟩
    · rw [← (h₃.agree hR).transfer hk, hrow]
    · rw [h₃.pending, brief_append, hb, pathBrief_singleton hrev]
      simpa using hbr
  exact (h₁.trans h₂).wp_commit_of hR hg hcommit fun d₃ h₃ hc =>
    ⟨rfl, { hc with calm := hc.calm }, d₃, _, rfl, hcommit d₃ h₃⟩

/-- A payload read in the snapshot of the lock is that of the state at the grant, as long as
nobody enters `SCREENED` during the wait. -/
theorem Locked.latestPayload (hA : Granted A R) (ha : A.hold) {id : Uuid} {t : LockedTransfer}
    {loc₁ : Loc} {d₁ : World} (hp : loc.pending = []) (hl : Locked R id loc d t loc₁ d₁)
    (hs : d₁.status id = some .screened) : t.latestPayload = d₁.latestPayload id := by
  obtain ⟨d₀, -, hr, he⟩ := hl.payload
  rw [view_of_pending _ hp] at he
  rw [he]
  clear he hl
  induction hr with
  | refl => rfl
  | tail _ ho ih =>
    obtain ⟨hs', he⟩ := hA.hold ha _ _ _ _ _ _ _ rfl ho hs
    rw [he, ih hs']

/-- The funds a call relies on stay. -/
theorem Granted.balance_le (hA : Granted A R) (ha : A.funds) {w : Option World} {acct : Uuid}
    (hl : loc.label.funds = some acct) (hr : R.Rely loc w d d') :
    d.balance acct ≤ d'.balance acct :=
  hr.invariant (P := fun x => d.balance acct ≤ x.balance acct) (Int.le_refl _) fun _ _ hle ho =>
    Int.le_trans hle (hA.funds ha _ _ _ _ _ _ _ hl ho)

theorem eq_awaitingFunds_of_forwardStep {s : TransferStatus}
    (h : s.forwardStep = some .funded) : s = .awaitingFunds := by
  cases s <;> simp_all [forwardStep]

/-- What a call of `advanceOnce` that began in `d` commits in `d₁`: it takes the transfer to
`next`. -/
def Advanced (A : Assumed) (R : Rules ι World Key Label) (state : AppState) (id : Uuid) (loc : Loc)
    (d : World) (next : TransferStatus) (d₁ : World) (ws : List Write) : Prop :=
  ∃ t steps, t.id = id ∧ next = pathEnd t.currentStatus steps ∧ Moves d₁ ws t steps [] ∧
    Advance A state d₁ ws t steps ∧ Checked R state loc d t steps

/-- Why a call of `advanceOnce` that began in `d` fails in `d'`. -/
inductive Blocked (R : Rules ι World Key Label) (id : Uuid) (loc : Loc) (d d' : World) :
    ApiError → Prop
  | missing {e : ApiError} {d₁ : World} : R.Rely loc none d d₁ → d₁.transfer id = none →
      e.code = .notFound → Blocked R id loc d d' e
  | held {e : ApiError} {d₁ : World} : R.Rely loc none d d₁ →
      holds (d₁.latestPayload id) = true → R.Rely loc none d d' →
      d'.status id = some .screened → e.code = .complianceHold → Blocked R id loc d d' e
  | raced {loc₁ : Loc} : Raced R loc₁ → Blocked R id loc d d' .serverError
  | halted {t : TransferRow} {loc₁ : Loc} {d₁ : World} : t.id = id → R.Rely loc none d d₁ →
      Halted R t loc₁ d₁ d' → Blocked R id loc d d' .serverError

theorem Blocked.not_conflict {id : Uuid} {e : ApiError} (h : Blocked R id loc d d' e) :
    e.code ≠ .conflict := by
  cases h with
  | missing _ _ he | held _ _ _ _ he => rw [he]; decide
  | raced | halted => decide

/-- One call of `advanceOnce`: what it commits, and why it fails. -/
theorem advanceOnce_advanced (hR : Framed R) (hA : Granted A R) {state : AppState} {id : Uuid}
    {actor : Option Uuid} {body : String} {P : World → List Write → Prop} (hg : Grants R i P)
    (h : Idle loc d) (hP : ∀ next d₁ ws, Advanced A R state id loc d next d₁ ws → P d₁ ws) :
    wp R i (fun next loc' d' => Committed loc loc' d' ∧
        ∃ d₁ ws, d' = applyAll ws d₁ ∧ Advanced A R state id loc d next d₁ ws)
      (fun e loc' d' => Dropped loc loc' d' ∧ Blocked R id loc d d' e)
      (advanceOnce state id actor body) loc d := by
  have hg : ∀ next, Grants R i (Advanced A R state id loc d next) := fun next ℓ ids d₁ ws hv ha =>
    hg ℓ ids d₁ ws hv (hP next d₁ ws ha)
  refine wp_begin hR h fun conn d₁ hr₁ h₁ => ?_
  refine wp_bind_of (lock_spec hR h₁.inTx id) (fun e _ _ he => ⟨he.1.dropped h.calm, ?_⟩) ?_
  · obtain ⟨-, hcode, d₃, hr₃, hnone⟩ := he
    exact .missing (hr₁.trans hr₃) (view_of_pending d₃ h₁.pending ▸ hnone) hcode
  intro t loc₂ d₂ hl
  have hl : Locked R id loc d₁ t loc₂ d₂ := hl
  have hp₂ : loc₂.pending = [] := by rw [hl.ran.pending, h₁.pending]; rfl
  have hrely : ∀ {d₃}, R.Rely loc₂ none d₂ d₃ → R.Rely loc none d d₃ := fun hr₃ =>
    hr₁.trans ((hl.ran.rely).trans (hr₃.weaken hl.ran.locks hl.ran.ids fun _ _ hc =>
      hl.ran.label ▸ hc))
  have hpay : ∀ {target payee}, Payee R loc₂ d₂ t.row target payee →
      Payee R loc d t.row target payee := fun hp ht => by
    obtain ⟨d₃, hr₃, he⟩ := hp ht
    exact ⟨d₃, hrely hr₃, he⟩
  have hrow : d₂.transfer t.row.id = some t.row := by
    have := hl.row
    rwa [view_of_pending _ hp₂, ← hl.rowId] at this
  have hfound : ∃ d₃, R.Rely loc none d d₃ ∧ d₃.transfer t.row.id = some t.row :=
    ⟨d₂, hrely (.refl d₂), hrow⟩
  dsimp only
  split
  case isTrue hheld =>
    simp only [Bool.and_eq_true, decide_eq_true_eq] at hheld
    obtain ⟨d₃, hr₃, -, hpayload⟩ := hl.payload
    rw [view_of_pending _ h₁.pending] at hpayload
    refine ⟨hl.ran.dropped, .held (hr₁.trans hr₃) (hpayload ▸ hheld.2) (hrely (.refl d₂)) ?_ rfl⟩
    rw [← hl.rowId, World.status, hrow, Option.map_some, hheld.1]
  case isFalse hheld =>
  have hfree : A.hold → t.row.currentStatus = .screened →
      ∀ d₃ : World, d₃.historyOf t.row.id = d₂.historyOf t.row.id →
        holds (d₃.latestPayload t.row.id) = false := by
    intro ha hs d₃ he
    have hst : d₂.status id = some .screened := by
      rw [← hl.rowId, World.status, hrow, Option.map_some, hs]
    rw [World.latestPayload, he, ← World.latestPayload, hl.rowId,
      ← hl.latestPayload hA ha h₁.pending hst]
    simpa [hs, isHeld] using hheld
  split
  case h_1 hnone =>
    have hcommit : ∀ d₃, Ran R loc₂ d₂ loc₂ d₃ [] →
        Advanced A R state id loc d t.row.currentStatus d₃ loc₂.pending := by
      intro d₃ h₃
      have hm : loc₂.pending = [] ∧ Moves d₃ [] t.row [] [] :=
        hl.moves hR h₁.pending h₃ rfl rfl
      exact hm.1 ▸ ⟨t.row, [], hl.rowId, rfl, hm.2, .stay rfl, hfound, fun _ => hnone, by simp,
        by simp⟩
    exact (Ran.refl hl.ran.inTx).wp_commit_of hR (hg _) hcommit fun d₃ h₃ hc =>
      ⟨hc.trans hl.ran, d₃, _, rfl, hcommit d₃ h₃⟩
  case h_2 target htarget =>
  have hfwd : t.row.currentStatus.forwardStep = some target ∧
      ¬ (t.row.currentStatus = .settling ∧ state.settlementOnchain = true) := by
    rw [Option.filter_eq_some_iff] at htarget
    refine ⟨htarget.1, fun hc => ?_⟩
    simp [hc.1, hc.2] at htarget
  have hall := forwardStep_mem hfwd.1
  have hrev : target ≠ .reversed := by
    rintro rfl
    revert hfwd
    cases t.row.currentStatus <;> simp [forwardStep]
  have hchecked : ∀ {st : PathStep}, st.target = target →
      Payee R loc₂ d₂ t.row st.target st.payee → Checked R state loc d t.row [st] := by
    rintro st rfl hp
    refine ⟨hfound, by simp, by simpa using hpay hp, fun hrej => ?_⟩
    have hrej : .rejected = st.target := List.mem_singleton.1 hrej
    rw [← hrej] at hfwd
    revert hfwd
    cases t.row.currentStatus <;> simp [forwardStep]
  split
  case isFalse hnf =>
    -- No funding check: the transition is taken as it is.
    refine wp_mono ?_ ?_ (stepForward_spec hR (hg target) hl.ran.inTx hl.key' hrow
      (by rw [hp₂]; rfl) hall hrev ?_)
    · rintro _ loc₃ d₃ ⟨rfl, hc, hadv⟩
      exact ⟨hc.trans hl.ran, hadv⟩
    · rintro e loc₃ d₃ ⟨hd, rfl, hraced | hhalt⟩
      · exact ⟨hd.trans hl.ran, .raced hraced⟩
      · exact ⟨hd.trans hl.ran, .halted hl.rowId (hrely (.refl d₂)) hhalt⟩
    rintro loc₃ d₃ ws st h₃ rfl hplain hpayee hm
    have he := (h₃.agree hR).historyOf hl.key'
    refine ⟨t.row, [st], hl.rowId, rfl, hm, .forward st hfwd.1 hfwd.2
      (fun ha hs => hfree ha hs d₃ he.symm) (fun _ hf => ?_) hplain, hchecked rfl hpayee⟩
    have := hfwd.1
    rw [hf] at this
    exact absurd (eq_awaitingFunds_of_forwardStep this) hnf
  case isTrue hf =>
  have htgt : target = .funded := by
    have := hfwd.1
    rw [hf] at this
    exact (Option.some.inj this).symm
  simp only [Prog.bind_eq]
  refine wp_bind_of (getOrCreateAccount_spec hR hl.ran.inTx _ _) (fun _ _ _ he =>
    ⟨(he.toFailed.dropped hl.ran.inTx.calm).trans hl.ran, he.error ▸ .raced he.raced⟩) ?_
  rintro acct loc₃ d₃ ⟨ws₀, h₃, hb₀, hacct⟩
  have hp₄ : loc₃.pending = ws₀ := by rw [h₃.pending, hp₂]; rfl
  have hown : d₃.Owner (.transfer t.row.id) t.row.customerId :=
    (Stands.self ((h₃.agree hR).transfer hl.key' ▸ hrow)).owner
  refine wp_bind_of (accountBalanceMinor_spec hR h₃.inTx hacct) ?_ ?_
  · rintro e loc₄ d₄ ⟨hfail, rfl, hov⟩
    have hun := unheld_of_overflown hR hov (by rw [hp₄, hb₀]; rfl) hown
    obtain ⟨ws, hr, -⟩ := hov
    have hr := h₃.trans hr
    exact ⟨((hfail.trans h₃).dropped hl.ran.inTx.calm).trans hl.ran,
      .halted hl.rowId (hrely (.refl d₂))
        ⟨hr.rely, (hr.agree hR).transfer hl.key' ▸ hrow, by rw [hf], hun⟩⟩
  rintro b loc₄ d₄ ⟨rfl, h₃₄, hr₄, rfl, -⟩
  have h₄ : Ran R loc₂ d₂ loc₄ d₄ ws₀ := List.append_nil ws₀ ▸ h₃.trans h₃₄
  have hrely₄ : ∀ {d₅}, R.Rely loc₄ none d₄ d₅ → R.Rely loc none d d₅ := fun hr₅ =>
    hrely (h₄.rely.trans (hr₅.weaken h₄.locks h₄.ids fun _ _ hc => h₄.label ▸ hc))
  have hs₄ : Stands t.row t.row.currentStatus (view loc₄ d₄) := by
    have := (hl.stands.agree (h₄.agree_view hR) hl.key').applyAll ws₀
    rwa [← h₄.view_eq, ← statusIn_brief, hb₀] at this
  split
  case isTrue hpoor =>
    refine wp_bind_of (apply_spec hR h₄.inTx (h₄.locks _ hl.key') hs₄) ?_ ?_
    · rintro e loc₅ d₅ (⟨-, hno, -⟩ | he)
      · exact absurd (by rw [hf]; decide) hno
      · refine ⟨(he.toFailed.dropped h₄.inTx.calm).trans (hl.ran.trans h₄), he.error ▸ ?_⟩
        rcases he.why with hraced | hov
        · exact .raced hraced
        · have hrow₄ : d₄.transfer t.row.id = some t.row := (h₄.agree hR).transfer hl.key' ▸ hrow
          have hhalt := hov.halted hR (by rw [hp₄, hb₀]; rfl) (h₄.locks _ hl.key') hrow₄
            (by rw [hf]; decide)
          exact .halted hl.rowId (hrely₄ (.refl d₄)) hhalt
    rintro _ loc₅ d₅ ⟨ws, payee, h₅, hall₅, hb₅, -, hpayee⟩
    rw [← pathBrief_singleton (by simp)] at hb₅
    have hcommit : ∀ d₆, Ran R loc₂ d₂ loc₅ d₆ (ws₀ ++ ws) →
        Advanced A R state id loc d .rejected d₆ loc₅.pending := by
      intro d₆ h₆
      have hm : loc₅.pending = ws₀ ++ ws ∧
          Moves d₆ (ws₀ ++ ws) t.row [⟨.rejected, some insufficientFunds, payee⟩] [] :=
        hl.moves hR h₁.pending h₆ (by simp [pathAllowed, hall₅]) (by simp [hb₀, hb₅])
      refine hm.1 ▸ ⟨t.row, _, hl.rowId, rfl, hm.2, .reject payee hf, hfound, by simp,
        by simpa using hpay (hpayee.trans h₄), fun _ => ⟨d₄, hrely h₄.rely, ?_, ?_⟩⟩
      · rw [← (h₄.agree hR).transfer hl.key', hrow]
      · have hmem := (h₃.inTx.agree_view hR hr₄).ext.accounts _ hacct
        rw [h₄.inTx.wf.funds_of_account h₄.inTx.view_wf (ext_applyAll _ _) hmem,
          ← balance_of_brief hb₀ d₄ acct, ← hp₄]
        exact hpoor
    exact (h₄.trans h₅).wp_commit_of hR (hg _) hcommit fun d₆ h₆ hc =>
      ⟨hc.trans hl.ran, d₆, _, rfl, hcommit d₆ h₆⟩
  case isFalse hrich =>
    -- The check passed; from here on the call relies on the funds.
    have hin := h₄.inTx.relabel (l := loc₄.label.withFunds (some acct)) h₄.inTx.calm
    have hrow₄ : d₄.transfer t.row.id = some t.row := by
      rw [← (h₄.agree hR).transfer hl.key', hrow]
    refine wp_mono ?_ ?_ (stepForward_spec hR (hg target) hin (h₄.locks _ hl.key') hrow₄
      (by rw [Local.at'_pending, hp₄, hb₀]) hall hrev ?_)
    · rintro _ loc₅ d₅ ⟨rfl, hc, hadv⟩
      exact ⟨hc.of_at'.trans (hl.ran.trans h₄), hadv⟩
    · rintro e loc₅ d₅ ⟨hd, rfl, hraced | hhalt⟩
      · exact ⟨hd.of_at'.trans (hl.ran.trans h₄), .raced hraced⟩
      · exact ⟨hd.of_at'.trans (hl.ran.trans h₄), .halted hl.rowId (hrely₄ (.refl d₄)) hhalt⟩
    rintro loc₅ d₅ ws st h₅ rfl hplain - hm
    have he := ((h₄.agree hR).historyOf hl.key').trans
      ((h₅.agree hR).historyOf (h₄.locks _ hl.key'))
    refine ⟨t.row, [st], hl.rowId, rfl, hm, .forward st hfwd.1 hfwd.2
      (fun ha hs => hfree ha hs d₅ he.symm) (fun ha _ acct' hacct' => ?_) hplain,
      hchecked rfl fun hc => by rw [htgt] at hc; cases hc⟩
    have hmem := (h₅.ext_view hR).accounts _
      ((h₃.inTx.agree_view hR hr₄).ext.accounts _ hacct)
    have heq : acct' = acct := Option.some.inj
      ((h₅.inTx.view_wf.accountOf_eq hacct').symm.trans (h₅.inTx.view_wf.accountOf_eq hmem))
    rw [heq]
    refine Int.le_trans ?_ (hA.balance_le ha rfl h₅.rely)
    rw [← balance_of_brief hb₀ d₄ acct, ← hp₄]
    exact Int.not_lt.1 hrich

/-- One call of `advanceOnce`, with what it found. -/
theorem advanceOnce_spec_of (hR : Framed R) (hA : Granted A R) {state : AppState} {id : Uuid}
    {actor : Option Uuid} {body : String} {P : World → List Write → Prop} (hg : Grants R i P)
    (h : Idle loc d)
    (hP : ∀ d₁ ws t steps, t.id = id → Moves d₁ ws t steps [] → Advance A state d₁ ws t steps →
      Checked R state loc d t steps → P d₁ ws) :
    wp R i (fun _ loc' d' => Committed loc loc' d')
      (fun e loc' d' => Dropped loc loc' d' ∧ e.code ≠ .conflict)
      (advanceOnce state id actor body) loc d := by
  refine wp_mono (fun _ _ _ hc => hc.1) (fun _ _ _ he => ⟨he.1, he.2.not_conflict⟩)
    (advanceOnce_advanced hR hA hg h ?_)
  rintro next d₁ ws ⟨t, steps, hid, -, hm, ha, hc⟩
  exact hP d₁ ws t steps hid hm ha hc

/-- One call of `advanceOnce`. -/
theorem advanceOnce_spec (hR : Framed R) (hA : Granted A R) {state : AppState} {id : Uuid}
    {actor : Option Uuid} {body : String} (hg : Grants R i (AdvanceCommits A state id))
    (h : Idle loc d) :
    wp R i (fun _ loc' d' => Committed loc loc' d')
      (fun e loc' d' => Dropped loc loc' d' ∧ e.code ≠ .conflict)
      (advanceOnce state id actor body) loc d :=
  advanceOnce_spec_of hR hA hg h fun _ _ t steps hid hm ha _ => ⟨t, steps, hid, hm, ha⟩

/-! ### Drive loops -/

/-- One turn of a drive loop. -/
theorem advanceOnceOrHold_spec (hR : Framed R) (hA : Granted A R) {state : AppState} {id : Uuid}
    {source : TransferStatus} {body : String} (hg : Grants R i (AdvanceCommits A state id))
    (h : Idle loc d) :
    wp R i (fun _ loc' d' => Idle loc' d' ∧ loc.made <:+ loc'.made)
      (fun e loc' d' => Wf d' ∧ loc'.label.Calm ∧ loc.made <:+ loc'.made ∧ e.code ≠ .conflict)
      (advanceOnceOrHold state id source body) loc d := by
  refine wp_tryCatch.2 (wp_mono ?_ ?_ (advanceOnce_spec hR hA hg h))
  · rintro _ loc₁ d₁ hc
    obtain ⟨m, hm⟩ := hc.made
    exact ⟨hc.toIdle, hm ▸ List.suffix_cons _ _⟩
  · rintro e loc₁ d₁ ⟨hd, he⟩ d₂ hr
    refine ⟨hR.stand _ _ (.inl hd.calm), ?_⟩
    have hwf := (hR.rely hr hd.wf).2
    have hm : loc.made <:+ loc₁.ended.made := hd.made ▸ List.suffix_rfl
    split
    · exact ⟨⟨hwf, hd.calm, rfl, rfl⟩, hm⟩
    · exact ⟨hwf, hd.calm, hm, he⟩

/-- A drive loop commits forward steps only. -/
theorem drive_spec (hR : Framed R) (hA : Granted A R) {state : AppState} {id : Uuid}
    {more : TransferStatus → Bool} {bodies : ℕ → String}
    (hg : Grants R i (AdvanceCommits A state id)) {fuel : ℕ} {status : TransferStatus} {loc : Loc}
    {d : World} (h : Idle loc d) :
    wp R i (fun _ loc' d' => Idle loc' d' ∧ loc.made <:+ loc'.made)
      (fun e loc' d' => Wf d' ∧ loc'.label.Calm ∧ loc.made <:+ loc'.made ∧ e.code ≠ .conflict)
      (drive state id more bodies fuel status) loc d := by
  induction fuel generalizing status loc d with
  | zero => exact ⟨h.wf, h.calm, List.suffix_rfl, by decide⟩
  | succ fuel ih =>
    simp only [drive]
    split
    case isFalse => exact ⟨h, List.suffix_rfl⟩
    case isTrue =>
      refine wp_bind_of (advanceOnceOrHold_spec hR hA hg h) (fun _ _ _ he => he) ?_
      rintro next loc₁ d₁ ⟨h₁, hm₁⟩
      split
      · exact ⟨h₁, hm₁⟩
      · split
        · exact ⟨h₁, hm₁⟩
        · exact wp_mono (fun _ _ _ hk => ⟨hk.1, hm₁.trans hk.2⟩)
            (fun _ _ _ hk => ⟨hk.1, hk.2.1, hm₁.trans hk.2.2.1, hk.2.2.2⟩) (ih h₁)

/-- The status a drive loop starts from. -/
theorem statusOf_spec (hR : Framed R) {id : Uuid} (h : Idle loc d) :
    wp R i (fun _ loc' d' => loc' = loc ∧ Idle loc' d')
      (fun e loc' d' => loc' = loc ∧ Wf d' ∧ e.code = .notFound) (statusOf id) loc d := by
  simp only [statusOf, Prog.bind_eq, Tx.query, Prog.pure_eq, Prog.bind]
  refine (Ran.refl h.inTx).wp_query hR fun d₁ hr h₁ => ?_
  split
  · exact ⟨rfl, h.rely hR hr⟩
  · exact ⟨rfl, h₁.inTx.wf, rfl⟩

/-- Driving a transfer commits forward steps only. -/
theorem advanceToCompletion_spec (hR : Framed R) (hA : Granted A R) {state : AppState} {id : Uuid}
    {bodies : ℕ → String} (hg : Grants R i (AdvanceCommits A state id)) (h : Idle loc d) :
    wp R i (fun _ loc' d' => Idle loc' d' ∧ loc.made <:+ loc'.made)
      (fun e loc' d' => Wf d' ∧ loc'.label.Calm ∧ loc.made <:+ loc'.made ∧ e.code ≠ .conflict)
      (advanceToCompletion state id bodies) loc d := by
  refine wp_bind_of (statusOf_spec hR h) ?_ ?_
  · rintro e loc₁ d₁ ⟨rfl, hwf, he⟩
    exact ⟨hwf, h.calm, List.suffix_rfl, by rw [he]; decide⟩
  · rintro s loc₁ d₁ ⟨rfl, h₁⟩
    exact drive_spec hR hA hg h₁

/-- So does driving it to `AWAITING_FUNDS`. -/
theorem advanceToAwaitingFunds_spec (hR : Framed R) (hA : Granted A R) {state : AppState}
    {id : Uuid} {bodies : ℕ → String} (hg : Grants R i (AdvanceCommits A state id))
    (h : Idle loc d) :
    wp R i (fun _ loc' d' => Idle loc' d' ∧ loc.made <:+ loc'.made)
      (fun e loc' d' => Wf d' ∧ loc'.label.Calm ∧ loc.made <:+ loc'.made ∧ e.code ≠ .conflict)
      (advanceToAwaitingFunds state id bodies) loc d := by
  refine wp_bind_of (statusOf_spec hR h) ?_ ?_
  · rintro e loc₁ d₁ ⟨rfl, hwf, he⟩
    exact ⟨hwf, h.calm, List.suffix_rfl, by rw [he]; decide⟩
  · rintro s loc₁ d₁ ⟨rfl, h₁⟩
    exact drive_spec hR hA hg h₁

end Kimana.Engine
