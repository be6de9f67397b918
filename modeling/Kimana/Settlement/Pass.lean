import Kimana.Settlement.Listener
import Kimana.Transfers.Commit

/-!
# A listener pass under interference

`Passes` : what a pass keeps true as it goes on, as a predicate of the next block and the logs in
hand.  `runOnce_spec` : a pass commits log transactions (`Records`) and cursors, each of which the
rules allow when they keep that predicate.
-/

namespace Kimana.Listener

open ReadCommitted Table Engine

/-- A log with its position. -/
def logAt (txHash : B256) (logIndex block : ℕ) (hash : BlockHash) (event : VaultEvent) : RpcLog :=
  ⟨some txHash, some logIndex, some block, some hash, some event⟩

/-- The vault's key that a log is about. -/
def refOf (event : VaultEvent) : B256 := (describe event).2.1

/-- The event row of a log. -/
def eventRow (cfg : ListenerConfig) (event : VaultEvent) (id : Uuid) (txHash : B256)
    (logIndex block : ℕ) (hash : BlockHash) (outcome : Option OnchainOutcome) : SettlementEvent :=
  ⟨cfg.vault, txHash, logIndex, block, hash, (describe event).1, refOf event, id,
    (describe event).2.2.insert "outcome" (.str (outcomeText outcome))⟩

/-- The payload of the history rows that an event causes. -/
def chainPayload (event : VaultEvent) (txHash : B256) (block : ℕ) : JObj :=
  [("event", .str (describe event).1), ("txHash", .hash txHash), ("blockNumber", .num block)]

/-- Whether the locked quote had expired, with the events seen in `d₁` and the block in `d₂`. -/
def QuoteExpired (id : Uuid) (block : ℕ) (d₁ d₂ : World) (b : Bool) : Prop :=
  match lockedUntil d₁ id with
  | none => b = false
  | some (.error _) => False
  | some (.ok expiresAt) => ∃ blk, d₂.chain[block]? = some blk ∧
      b = decide (expiresAt ≤ Util.asI64 blk.timestamp)

/-- Where an event wants a transfer, with the events seen in `d₁` and the block in `d₂`. -/
def Target (event : VaultEvent) (id : Uuid) (block : ℕ) (d₁ d₂ : World)
    (r : Option OnchainTarget) : Prop :=
  match event with
  | .settlementInitiated .. => r = some .settled
  | .settlementReturned .. => r = some .reversing
  | .settlementRefunded .. => r = some .reversed
  | .quoteCancelled .. => ∃ b, r = some (.cancelled b) ∧ QuoteExpired id block d₁ d₂ b
  | _ => r = none

/-- The steps a target makes a transfer take. -/
def TargetSteps (target : Option OnchainTarget) (payload : JObj) (t : TransferRow)
    (steps : List PathStep) : Prop :=
  match target with
  | none => steps = []
  | some target => OnchainSteps target payload t steps

/-- What the transaction of a log commits. -/
structure Records (cfg : ListenerConfig) (event : VaultEvent) (txHash : B256) (logIndex block : ℕ)
    (hash : BlockHash) (target : Option OnchainTarget) (d : World) (ws : List Write)
    (t : TransferRow) (steps : List PathStep) : Prop where
  unseen : d.eventByKey txHash logIndex = none
  kind : TargetSteps target (chainPayload event txHash block) t steps
  moves : Moves d ws t steps [.insertEvent (eventRow cfg event t.id txHash logIndex block hash
    (target.map (onchainOutcome · t.currentStatus)))]

/-- A log that a pass has nothing to do for. -/
def Skipped (d : World) (log : RpcLog) : Prop :=
  log.event = none ∨ ∃ txHash logIndex block hash event,
    log = logAt txHash logIndex block hash event ∧
    ((d.eventByKey txHash logIndex).isSome ∨
      ∀ t ∈ d.transfers, t.settlementRef ≠ some (refOf event))

/-- An event that only a transfer not yet handed over causes. -/
def Cancels (event : VaultEvent) : Prop := ∃ ref quoteId, event = .quoteCancelled ref quoteId

/-- Only a currency can bring a zero character into an event row. -/
theorem hasNul_eventRow (cfg : ListenerConfig) (event : VaultEvent) (id : Uuid) (txHash : B256)
    (logIndex block : ℕ) (hash : BlockHash) (outcome : Option OnchainOutcome) :
    (eventRow cfg event id txHash logIndex block hash outcome).payload.hasNul =
      (describe event).2.2.hasNul := by
  have hout : (JVal.str (outcomeText outcome)).hasNul = false := by
    rcases outcome with _ | s | s | s <;> first | decide | (cases s <;> decide)
  have hkeep : ((describe event).2.2.filter fun f => f.1 != "outcome") = (describe event).2.2 := by
    cases event <;> rfl
  have hname : hasNul "outcome" = false := by decide
  rw [eventRow, JObj.insert, hkeep, JObj.hasNul, List.any_append, List.any_cons, hout, hname]
  simp [JObj.hasNul]

theorem brief_recordAudit (name : String) (id : Uuid) (row : JObj) :
    (Write.insertAudit (recordAudit name id row)).brief = none := by
  refine Write.brief_of_action ?_
  simp only [recordAudit, auditAction, stateChange]
  split
  · simp
  · split <;> simp

theorem eventByKey_ext {d d' : World} (h : Ext d d') {txHash : B256} {logIndex : ℕ}
    (hk : (d.eventByKey txHash logIndex).isSome) : (d'.eventByKey txHash logIndex).isSome := by
  simp only [World.eventByKey, List.find?_isSome] at hk ⊢
  obtain ⟨x, hx, hp⟩ := hk
  exact ⟨x, h.events x hx, hp⟩

section Spec

variable {ι : Type} {R : Rules ι World Key Label} {i : ι} {loc : Loc} {d : World}

/-! ### The target of an event -/

/-- No expiry to compare with: it was not recorded as a 64-bit number, or the block is missing. -/
inductive NoExpiry (R : Rules ι World Key Label) (id : Uuid) (block : ℕ) (loc : Loc) (d : World) :
    Prop
  | overflow {d₁ : World} {e : ListenerError} : R.Rely loc none d d₁ →
      lockedUntil (view loc d₁) id = some (.error e) → NoExpiry R id block loc d
  | missing {d₁ : World} : R.Rely loc none d d₁ → d₁.chain[block]? = none →
      NoExpiry R id block loc d

/-- A block as the node has it at that moment. -/
theorem getBlock_spec (hR : Framed R) (h : InTx loc d) (block : ℕ) :
    wp R i (fun b loc' d' => loc' = loc ∧ Ran R loc d loc d' [] ∧ d'.chain[block]? = some b)
      (fun _ _ _ => ∃ d₁, R.Rely loc none d d₁ ∧ d₁.chain[block]? = none)
      (getBlock block) loc d := by
  simp only [getBlock, Prog.bind_eq, Prog.pure_eq, Prog.bind]
  refine (Ran.refl h).wp_query hR fun d₁ hr₁ h₁ => ?_
  split
  case h_1 b hb => exact ⟨rfl, h₁, hb⟩
  case h_2 hb => exact ⟨d₁, hr₁, hb⟩

theorem quoteExpiredAt_spec (hR : Framed R) (h : InTx loc d) (id : Uuid) (block : ℕ) :
    wp R i (fun b loc' d' => loc' = loc ∧ Ran R loc d loc d' [] ∧
        ∃ d₁, R.Rely loc none d d₁ ∧ R.Rely loc none d₁ d' ∧
          QuoteExpired id block (view loc d₁) d' b)
      (fun _ _ _ => NoExpiry R id block loc d) (quoteExpiredAt id block) loc d := by
  simp only [quoteExpiredAt, Prog.bind_eq, Prog.bind]
  refine (Ran.refl h).wp_read hR fun d₁ hr₁ h₁ => ?_
  split
  case h_1 hl => exact ⟨rfl, h₁, d₁, hr₁, .refl d₁, by simp [QuoteExpired, hl]⟩
  case h_2 hl => exact .overflow hr₁ hl
  case h_3 e hl =>
    refine wp_bind_of (getBlock_spec hR h₁.inTx block) ?_ ?_
    · rintro _ _ _ ⟨d₂, hr₂, hb⟩
      exact .missing (hr₁.trans hr₂) hb
    rintro b loc₂ d₂ ⟨rfl, h₂, hb⟩
    exact ⟨rfl, h₁.trans h₂, d₁, hr₁, h₂.rely, by simp [QuoteExpired, hl, hb]⟩

theorem targetOf_spec (hR : Framed R) (h : InTx loc d) (event : VaultEvent) (id : Uuid)
    (block : ℕ) :
    wp R i (fun r loc' d' => loc' = loc ∧ Ran R loc d loc d' [] ∧
        ∃ d₁, R.Rely loc none d d₁ ∧ R.Rely loc none d₁ d' ∧
          Target event id block (view loc d₁) d' r)
      (fun _ _ _ => Cancels event ∧ NoExpiry R id block loc d)
      (targetOf event id block) loc d := by
  have hret : ∀ r, Target event id block (view loc d) d r →
      wp R i (fun r loc' d' => loc' = loc ∧ Ran R loc d loc d' [] ∧
        ∃ d₁, R.Rely loc none d d₁ ∧ R.Rely loc none d₁ d' ∧
          Target event id block (view loc d₁) d' r)
        (fun _ _ _ => Cancels event ∧ NoExpiry R id block loc d)
        (pure r : Lx (Option OnchainTarget)) loc d :=
    fun r hr => ⟨rfl, .refl h, d, .refl d, .refl d, hr⟩
  cases event
  case quoteCancelled =>
    refine wp_bind_of (quoteExpiredAt_spec hR h id block) (fun _ _ _ he => ⟨⟨_, _, rfl⟩, he⟩) ?_
    rintro b loc₁ d₁ ⟨rfl, h₁, d₂, hr₂, hr₁, hb⟩
    exact ⟨rfl, h₁, d₂, hr₂, hr₁, b, rfl, hb⟩
  all_goals exact hret _ rfl

/-! ### The transaction of a log -/

/-- An event applied in a transaction. -/
def Applied (R : Rules ι World Key Label) (id : Uuid) (payload : JObj) (loc : Loc) (d : World)
    (loc' : Loc) (d' : World) : Option OnchainTarget → Option OnchainOutcome → Prop
  | none, outcome => outcome = none ∧ Ran R loc d loc' d' []
  | some target, outcome => ∃ o t loc₁ d₁ ws steps, outcome = some o ∧
      AppliedOnchain R id target payload loc d o loc' d' t loc₁ d₁ ws steps

/-- An event is not applied: the transfer is not there, others opened an account first, or its path
can not be posted. -/
inductive NotApplied (R : Rules ι World Key Label) (id : Uuid) (target : OnchainTarget) (loc : Loc)
    (d : World) : Prop
  | missing {d₁ : World} : R.Rely loc none d d₁ → d₁.transfer id = none →
      NotApplied R id target loc d
  | raced {loc₁ : Loc} : Raced R loc₁ → NotApplied R id target loc d
  | unpostable {d₁ : World} {t : TransferRow} : R.Rely loc none d d₁ → d₁.transfer id = some t →
      Unpostable d₁ t target → NotApplied R id target loc d

theorem notApplied_of_failed (hR : Framed R) {id : Uuid} {target : OnchainTarget} {e : ApiError}
    {loc' : Loc} {d' : World} (hi : loc.pending = [])
    (h : (∃ d₁, R.Rely loc none d d₁ ∧ (view loc d₁).transfer id = none) ∨
      AbandonedOnchain R id target loc d e loc' d') : NotApplied R id target loc d := by
  obtain ⟨d₁, hr, hno⟩ | h := h
  · exact .missing hr (view_of_pending d₁ hi ▸ hno)
  · obtain ⟨loc₁, -, hraced⟩ | ⟨t, hr, ht, hun⟩ := h.why hR hi
    · exact .raced hraced
    · exact .unpostable hr ht hun

theorem applyTarget_spec (hR : Framed R) (h : InTx loc d) (hi : loc.pending = []) (conn : Conn)
    (id : Uuid) (payload : JObj) (target : Option OnchainTarget) :
    wp R i (fun outcome loc' d' => Applied R id payload loc d loc' d' target outcome)
      (fun _ _ _ => ∃ r, target = some r ∧ NotApplied R id r loc d)
      (applyTarget conn id payload target) loc d := by
  cases target with
  | none => exact ⟨rfl, .refl h⟩
  | some target =>
    simp only [applyTarget, lift, Prog.bind_eq, Prog.pure_eq]
    refine wp_bind_of (wp_mapError.2 (wp_mono (fun _ _ _ hp => hp)
      (fun _ _ _ he => ⟨target, rfl, notApplied_of_failed hR hi he.2⟩)
      (applyOnchain_spec hR h conn id target payload))) (fun _ _ _ hp => hp) ?_
    rintro o loc₁ d₁ ⟨t, loc₂, d₂, ws, steps, ha⟩
    exact ⟨o, t, loc₂, d₂, ws, steps, rfl, ha⟩

/-- The insert of an event row takes the key of its log, or finds it taken. -/
theorem insertEvent_spec (hR : Framed R) (h : InTx loc d) {row : SettlementEvent}
    (ht : ∃ t ∈ (view loc d).transfers, t.id = row.transferId) :
    wp R i (fun ok loc' d' => row.payload.hasNul = false ∧ ((ok = false ∧ Ran R loc d loc' d' [] ∧
          ((view loc' d').eventByKey row.txHash row.logIndex).isSome) ∨
        ok = true ∧ Ran R loc d loc' d' [.insertEvent row] ∧
          (view loc d').eventByKey row.txHash row.logIndex = none ∧
          .eventKey row.txHash row.logIndex ∈ loc'.locks))
      (fun _ _ _ => row.payload.hasNul = true) (insertEvent row) loc d := by
  simp only [insertEvent, Prog.bind_eq, Prog.pure_eq, Prog.bind]
  split
  case isTrue hnul => exact hnul
  case isFalse hnul =>
  rw [Bool.not_eq_true] at hnul
  refine (Ran.refl h).wp_lock hR fun _ d₁ _ _ h₁ => h₁.wp_read hR fun d₂ _ h₂ => ?_
  split
  case isTrue htaken => exact ⟨hnul, .inl ⟨rfl, h₂, htaken⟩⟩
  case isFalse hfree =>
    have hnone : (view loc d₂).eventByKey row.txHash row.logIndex = none := by simpa using hfree
    obtain ⟨t, ht, hid⟩ := ht
    obtain ⟨t', ht', hc⟩ := (h₂.ext_view hR).transfers t ht
    refine h₂.wp_write (w := .insertEvent row) ⟨by simp [Write.keys],
      ⟨hnone, t', ht', (TransferRow.id_of_core hc).trans hid⟩, by simp [Write.publishes]⟩
      fun h₃ => ⟨hnul, .inr ⟨rfl, h₃, hnone, List.mem_cons_self⟩⟩

theorem Applied.ran {id : Uuid} {payload : JObj} {target : Option OnchainTarget}
    {outcome : Option OnchainOutcome} {loc' : Loc} {d' : World}
    (h : Applied R id payload loc d loc' d' target outcome) : ∃ ws, Ran R loc d loc' d' ws := by
  cases target with
  | none => exact ⟨_, h.2⟩
  | some target =>
    obtain ⟨_, _, _, _, _, _, -, h⟩ := h
    exact ⟨_, h.locked.ran.trans h.ran⟩

/-- What a transaction that applied an event commits. -/
theorem Applied.moves (hR : Framed R) {id : Uuid} {payload : JObj} {target : Option OnchainTarget}
    {outcome : Option OnchainOutcome} {loc₁ loc₂ : Loc} {d₁ d₂ : World} {ws : List Write}
    (hi : loc.pending = []) (ht : ∃ t, d.transfer id = some t)
    (ha : Applied R id payload loc d loc₁ d₁ target outcome) (h : Ran R loc₁ d₁ loc₂ d₂ ws) :
    ∃ t steps, t.id = id ∧ TargetSteps target payload t steps ∧
      outcome = target.map (onchainOutcome · t.currentStatus) ∧
      Moves d₂ loc₂.pending t steps (brief ws) := by
  cases target with
  | none =>
    obtain ⟨rfl, ha⟩ := ha
    obtain ⟨t, ht⟩ := ht
    obtain ⟨t', ht'⟩ := transfer_isSome_ext (((ha.trans h).agree hR).ext) ht
    have hid := (World.transfer_mem ht').2
    refine ⟨t', [], hid, rfl, rfl, hid.symm ▸ ht', rfl, ?_⟩
    rw [h.pending, ha.pending, hi]
    rfl
  | some target =>
    obtain ⟨o, t, loc₃, d₃, ws', steps, rfl, ha⟩ := ha
    have hm : loc₂.pending = ws' ++ ws ∧ Moves d₂ (ws' ++ ws) t.row steps (brief ws) :=
      ha.locked.moves hR hi (ha.ran.trans h) ha.allowed (by rw [brief_append, ha.brief])
    refine ⟨t.row, steps, ha.locked.rowId, ha.kind, ?_, hm.1 ▸ hm.2⟩
    rw [ha.outcome, Option.map_some]

/-- The log of a known transfer was found recorded, or was recorded: its target was determined
with the events of `d₁` and the blocks of `d₂`, and its transaction committed at `d₃`. -/
inductive Handled (R : Rules ι World Key Label) (cfg : ListenerConfig) (event : VaultEvent)
    (id : Uuid) (txHash : B256) (logIndex block : ℕ) (hash : BlockHash) (loc : Loc) (d : World) :
    World → Prop
  | seen {d' : World} : R.Rely loc none d d' → (d'.eventByKey txHash logIndex).isSome →
      Handled R cfg event id txHash logIndex block hash loc d d'
  | recorded {d₁ d₂ d₃ : World} {target : Option OnchainTarget} {ws : List Write} {t : TransferRow}
      {steps : List PathStep} {ℓ : List Key} {ids : List ℕ} : R.Rely loc none d d₁ →
      R.Rely loc none d₁ d₂ → R.Rely loc none d₂ d₃ → t.id = id →
      Target event id block d₁ d₂ target →
      Records cfg event txHash logIndex block hash target d₃ ws t steps → Wf d₃ →
      Valid ℓ ids d₃ ws → (∀ n ∈ ids, n < d₃.nextId) →
      Handled R cfg event id txHash logIndex block hash loc d (applyAll ws d₃)

/-- The rules allow the transaction of a log. -/
def GrantsLog (R : Rules ι World Key Label) (i : ι) (cfg : ListenerConfig) (event : VaultEvent)
    (id : Uuid) (txHash : B256) (logIndex block : ℕ) (hash : BlockHash) (loc : Loc) (d : World) :
    Prop :=
  ∀ d₁ d₂ d₃ target ws t steps ℓ ids, R.Rely loc none d d₁ → R.Rely loc none d₁ d₂ →
    R.Rely loc none d₂ d₃ → t.id = id → Target event id block d₁ d₂ target →
    Records cfg event txHash logIndex block hash target d₃ ws t steps → Valid ℓ ids d₃ ws →
    R.guar i ℓ ids d₃ (applyAll ws d₃)

/-- What stops the transaction of a log. -/
inductive Obstructed (R : Rules ι World Key Label) (event : VaultEvent) (id : Uuid) (block : ℕ)
    (loc : Loc) (d : World) : Prop
  | expiry : Cancels event → NoExpiry R id block loc d → Obstructed R event id block loc d
  | text : (describe event).2.2.hasNul = true → Obstructed R event id block loc d
  | transfer {d₁ d₂ : World} {target : OnchainTarget} : R.Rely loc none d d₁ →
      R.Rely loc none d₁ d₂ → Target event id block d₁ d₂ (some target) →
      NotApplied R id target loc d₂ → Obstructed R event id block loc d

/-- The transaction of a log of a known transfer: it records the log, or finds it recorded. -/
theorem record_spec (hR : Framed R) {cfg : ListenerConfig} {conn : Conn} {event : VaultEvent}
    {id : Uuid} {txHash : B256} {logIndex block : ℕ} {hash : BlockHash} (h : InTx loc d)
    (hi : loc.pending = []) (ht : ∃ t, d.transfer id = some t)
    (hg : GrantsLog R i cfg event id txHash logIndex block hash loc d) :
    wp R i (fun _ loc' d' => Idle loc' d' ∧ loc'.label = loc.label ∧
        (describe event).2.2.hasNul = false ∧
        Handled R cfg event id txHash logIndex block hash loc d d')
      (fun _ _ _ => Obstructed R event id block loc d)
      (record cfg conn event id txHash logIndex block hash) loc d := by
  simp only [record, Prog.bind_eq]
  refine wp_bind_of (targetOf_spec hR h event id block) (fun _ _ _ he => .expiry he.1 he.2) ?_
  rintro target loc₂ d₂ ⟨rfl, h₂, d₁, hr₁, hr₂, htarget⟩
  rw [view_of_pending _ hi] at htarget
  refine wp_bind_of (applyTarget_spec hR h₂.inTx hi conn id _ target) ?_ ?_
  · rintro _ _ _ ⟨r, rfl, hno⟩
    exact .transfer hr₁ hr₂ htarget hno
  rintro outcome loc₃ d₃ ha
  obtain ⟨ws₃, h₃⟩ := ha.ran
  have ht₂ : ∃ t, d₂.transfer id = some t := by
    obtain ⟨t, ht⟩ := ht
    exact transfer_isSome_ext (h₂.agree hR).ext ht
  have hmem : ∃ t ∈ (view loc₃ d₃).transfers, t.id = id := by
    obtain ⟨t, ht⟩ := ht₂
    obtain ⟨t', ht'⟩ := transfer_isSome_ext (h₃.ext_view hR) (view_of_pending d₂ hi ▸ ht)
    exact ⟨t', World.transfer_mem ht'⟩
  -- Applying an event records none.
  have hev : ∀ d, (view loc₃ d).events = d.events := fun d => by
    obtain ⟨t, steps, -, -, -, hm⟩ := ha.moves hR hi ht₂ (.refl h₃.inTx)
    rw [view, events_applyAll, hm.events, brief_nil, List.filterMap_nil, List.append_nil]
  have hrow := hasNul_eventRow cfg event id txHash logIndex block hash outcome
  refine wp_bind_of (insertEvent_spec hR h₃.inTx hmem)
    (fun _ _ _ he => .text (hrow.symm.trans he)) ?_
  rintro ok loc₄ d₄ ⟨hnul, ⟨rfl, h₄, htaken⟩ | ⟨rfl, h₄, hnone, hkey⟩⟩
  all_goals replace hnul : (describe event).2.2.hasNul = false := hrow.symm.trans hnul
  · -- A concurrent listener recorded the log while this one applied it.
    refine h₄.wp_rollback hR fun d₅ hr₅ hin => ?_
    have hseen : (d₄.eventByKey txHash logIndex).isSome := by
      have : (view loc₄ d₄).events = d₄.events := by
        rw [h₄.view_eq]
        exact hev d₄
      rwa [World.eventByKey, this] at htaken
    have h₂₅ := (h₃.trans h₄).step hR hr₅
    exact ⟨⟨hin.wf, hin.calm, rfl, rfl⟩, h₂₅.label, hnul,
      .seen (h₂.rely.trans h₂₅.rely) (eventByKey_ext (hR.rely hr₅ h₄.inTx.wf).1.ext hseen)⟩
  · have hcommit : ∀ loc₅ ws₅, Ran R loc₃ d₃ loc₅ d₄ ws₅ →
        brief ws₅ = [.insertEvent (eventRow cfg event id txHash logIndex block hash outcome)] →
        .eventKey txHash logIndex ∈ loc₅.locks →
        wp R i (fun _ loc' d' => Idle loc' d' ∧ loc'.label = loc₂.label ∧
            (describe event).2.2.hasNul = false ∧
            Handled R cfg event id txHash logIndex block hash loc₂ d d')
          (fun _ _ _ => Obstructed R event id block loc₂ d)
            (.commit (.ret ()) : Lx Unit) loc₅ d₄ := by
      intro loc₅ ws₅ h₅ hb hk₅
      have hrec : ∀ d₆, R.Rely loc₅ none d₄ d₆ → Ran R loc₃ d₃ loc₅ d₆ ws₅ → ∃ t steps,
          t.id = id ∧
            Records cfg event txHash logIndex block hash target d₆ loc₅.pending t steps := by
        intro d₆ hr₆ h₆
        obtain ⟨t, steps, rfl, hkind, rfl, hm⟩ := ha.moves hR hi ht₂ h₆
        refine ⟨t, steps, rfl, ?_, hkind, hb ▸ hm⟩
        have hs := (hR.rely hr₆ h₅.inTx.wf).1.seen (.eventKey txHash logIndex) hk₅
        rw [World.eventByKey, hev d₄] at hnone
        exact (Seen.event.inj hs).symm.trans hnone
      have h₂₅ : ∀ d₆, Ran R loc₃ d₃ loc₅ d₆ ws₅ → R.Rely loc₂ none d₂ d₆ :=
        fun d₆ h₆ => (h₃.trans h₆).rely
      refine h₅.wp_commit hR (fun d₆ hr₆ h₆ => ?_) fun d₆ hr₆ h₆ hin => ?_
      · obtain ⟨t, steps, hid, hr⟩ := hrec d₆ hr₆ h₆
        exact hg _ _ _ _ _ _ _ _ _ hr₁ hr₂ (h₂₅ d₆ h₆) hid htarget hr h₆.inTx.valid
      · obtain ⟨t, steps, hid, hr⟩ := hrec d₆ hr₆ h₆
        exact ⟨⟨hin.wf, hin.calm, rfl, rfl⟩, h₆.label.trans h₃.label, hnul,
          .recorded hr₁ hr₂ (h₂₅ d₆ h₆) hid htarget hr h₆.inTx.wf h₆.inTx.valid h₆.inTx.below⟩
    rw [if_pos rfl]
    split
    case isTrue =>
      refine h₄.wp_write (w := .insertAudit _) ⟨by simp [Write.keys], trivial,
        by simp [Write.publishes]⟩ fun h₅ => hcommit _ _ h₅ ?_ hkey
      rw [brief_append, brief_cons, brief_cons, brief_recordAudit]
      rfl
    case isFalse => exact hcommit _ _ h₄ rfl hkey

/-! ### A pass -/

/-- The block a pass starts from. -/
def startAfter (cfg : ListenerConfig) : Option (ℕ × BlockHash) → ℕ
  | some (last, _) => last + 1
  | none => cfg.startBlock

/-- The logs of a range, in order. -/
def rangeLogs (cfg : ListenerConfig) (d : World) (start stop : ℕ) : List RpcLog :=
  (d.chain.getLogs cfg.vault start stop).insertionSort logLe

/-- What the handling of logs keeps true, as a predicate `T` of the logs in hand. -/
structure Handles (R : Rules ι World Key Label) (i : ι) (cfg : ListenerConfig)
    (T : List RpcLog → World → Prop) : Prop where
  stable : ∀ (loc : Loc) logs held d d', loc.label.pass = .past held → logs <:+ held →
    R.Rely loc none d d' → Wf d → T logs d → T logs d'
  skip : ∀ log logs d, T (log :: logs) d → Skipped d log → T logs d
  /-- The transfer was looked up in `d₀`. -/
  record : ∀ logs event id txHash logIndex block hash d₀ d₁ d₂ d₃ target ws t steps,
    (∀ d ∈ [d₀, d₁, d₂, d₃], Wf d ∧ T (logAt txHash logIndex block hash event :: logs) d) →
    Ext d₁ d₃ → (∃ t₀ ∈ d₀.transfers, t₀.id = id ∧ t₀.settlementRef = some (refOf event)) →
    t.id = id → Target event id block d₁ d₂ target →
    Records cfg event txHash logIndex block hash target d₃ ws t steps →
    (∀ ℓ ids, Valid ℓ ids d₃ ws → R.guar i ℓ ids d₃ (applyAll ws d₃)) ∧ T logs (applyAll ws d₃)

/-- What a pass to block `c` keeps true: `S` all the time, and from the comparison of the hashes on
`T c next logs`, which says that the blocks before `next` are done but for the logs `logs`.
`Q c` is what it leaves. -/
structure Passes (R : Rules ι World Key Label) (i : ι) (cfg : ListenerConfig) (S : World → Prop)
    (T : ℕ → ℕ → List RpcLog → World → Prop) (Q : ℕ → World → Prop) : Prop where
  inv : ∀ (loc : Loc) d d', R.Rely loc none d d' → Wf d → S d → S d'
  stand : ∀ (loc : Loc) n h d d', loc.label.pass = .found (some (n, h)) → Wf d → S d →
    d.cursor cfg.vault = some (n, h) → R.Rely loc none d d' → R.stand loc.label d'
  /-- The head was read in `d₀`, the cursor in `d₁`, and its hash compared in `d₂`. -/
  start : ∀ (loc₀ loc : Loc) d₀ d₁ d₂ cursor, Wf d₀ → S d₀ → R.Rely loc₀ none d₀ d₁ →
    cfg.confirmations ≤ d₀.chain.head → d₁.cursor cfg.vault = cursor →
    loc.label.pass = .found cursor → R.Rely loc none d₁ d₂ →
    (∀ n h, cursor = some (n, h) → d₂.chain.hash n = some h) →
    T (d₀.chain.head - cfg.confirmations) (startAfter cfg cursor) [] d₂
  handles : ∀ c next, Handles R i cfg (T c next)
  fetch : ∀ c next d, next ≤ c → T c next [] d →
    T c (rangeEnd cfg c next + 1) (rangeLogs cfg d next (rangeEnd cfg c next)) d
  save : ∀ (loc : Loc) c stop hash d d' ℓ ids, T c (stop + 1) [] d → Wf d →
    d.chain.hash stop = some hash →
    loc.label.pass = (if stop = c then .closing hash else .past []) → R.Rely loc none d d' →
    R.guar i ℓ ids d' (applyAll [.saveCursor ⟨cfg.vault, stop, hash⟩] d') ∧
      if stop = c then Q c (applyAll [.saveCursor ⟨cfg.vault, stop, hash⟩] d')
      else T c (stop + 1) [] (applyAll [.saveCursor ⟨cfg.vault, stop, hash⟩] d')

variable {cfg : ListenerConfig} {L : List RpcLog → World → Prop}

/-- A log is handled once. -/
theorem handle_spec (hR : Framed R) (hT : Handles R i cfg L) {log : RpcLog}
    {logs : List RpcLog} (h : Idle loc d) (hl : loc.label.pass = .past (log :: logs))
    (ht : L (log :: logs) d) :
    wp R i (fun _ loc' d' => Idle loc' d' ∧ loc'.label = loc.label ∧ L logs d')
      (fun _ _ _ => True) (handle cfg log) loc d := by
  rcases log with ⟨txHash?, logIndex?, block?, hash?, event?⟩
  simp only [handle]
  split
  case h_1 => exact ⟨h, rfl, hT.skip _ _ _ ht (.inl rfl)⟩
  case h_2 event =>
  split
  case h_2 => trivial
  case h_1 txHash logIndex block hash =>
  -- A log that was recorded before, or is of no transfer, leaves nothing to be done about it.
  have hskip : ∀ {d' : World}, R.Rely loc none d d' → ((d'.eventByKey txHash logIndex).isSome ∨
      ∀ t ∈ d'.transfers, t.settlementRef ≠ some (refOf event)) → L logs d' :=
    fun hr hs => hT.skip _ _ _ (hT.stable _ _ _ _ _ hl List.suffix_rfl hr h.wf ht)
      (.inr ⟨_, _, _, _, _, rfl, hs⟩)
  simp only [Prog.bind_eq, lift, Prog.bind]
  refine (Ran.refl h.inTx).wp_query hR fun d₁ hr₁ h₁ => ?_
  split
  case isTrue hseen => exact ⟨h.rely hR hr₁, rfl, hskip hr₁ (.inl hseen)⟩
  case isFalse =>
  simp only [begin, Prog.bind_eq, Tx.query, Prog.pure_eq, Prog.bind, Prog.mapError]
  refine h₁.wp_query hR fun d₂ hr₂ h₂ => h₂.wp_read hR fun d₃ hr₃ h₃ => ?_
  rw [view_of_pending _ h.pending]
  split
  case h_1 hfind =>
    refine h₃.wp_rollback hR fun d₄ hr₄ hin => ⟨⟨hin.wf, hin.calm, rfl, rfl⟩, rfl, ?_⟩
    refine hT.stable _ _ _ _ _ hl (List.suffix_cons _ _) hr₄ h₃.inTx.wf (hskip h₃.rely (.inr ?_))
    simpa [refOf] using hfind
  case h_2 t hfind =>
    have hmem := List.mem_of_find?_eq_some hfind
    have href : t.settlementRef = some (refOf event) := by simpa [refOf] using List.find?_some hfind
    have hT₃ := hT.stable _ _ _ _ _ hl List.suffix_rfl h₃.rely h.wf ht
    -- The target is found in one statement and applied in a later one; the fact is carried between.
    have hrec : ∀ {d₄ d₅ d₆ target ws t' steps}, R.Rely loc none d₃ d₄ → R.Rely loc none d₄ d₅ →
        R.Rely loc none d₅ d₆ → t'.id = t.id → Target event t.id block d₄ d₅ target →
        Records cfg event txHash logIndex block hash target d₆ ws t' steps →
        (∀ ℓ ids, Valid ℓ ids d₆ ws → R.guar i ℓ ids d₆ (applyAll ws d₆)) ∧
          L logs (applyAll ws d₆) := by
      intro d₄ d₅ d₆ target ws t' steps hr₄ hr₅ hr₆ hid htarget hr
      have hwf₄ := (hR.rely hr₄ h₃.inTx.wf).2
      have hwf₅ := (hR.rely hr₅ hwf₄).2
      have hT₄ := hT.stable _ _ _ _ _ hl List.suffix_rfl hr₄ h₃.inTx.wf hT₃
      have hT₅ := hT.stable _ _ _ _ _ hl List.suffix_rfl hr₅ hwf₄ hT₄
      have hT₆ := hT.stable _ _ _ _ _ hl List.suffix_rfl hr₆ hwf₅ hT₅
      refine hT.record logs event t.id txHash logIndex block hash d₃ d₄ d₅ d₆ target ws t'
        steps ?_ (hR.rely (hr₅.trans hr₆) hwf₄).1.ext ⟨t, hmem, rfl, href⟩ hid htarget hr
      simp only [List.mem_cons, List.not_mem_nil, or_false]
      rintro _ (rfl | rfl | rfl | rfl)
      · exact ⟨h₃.inTx.wf, hT₃⟩
      · exact ⟨hwf₄, hT₄⟩
      · exact ⟨hwf₅, hT₅⟩
      · exact ⟨(hR.rely hr₆ hwf₅).2, hT₆⟩
    refine wp_mono ?_ (fun _ _ _ _ => trivial) (record_spec hR h₃.inTx h.pending
      ⟨t, h₃.inTx.wf.of_transfer_mem hmem⟩ fun d₄ d₅ d₆ target ws t' steps ℓ ids hr₄ hr₅ hr₆ hid
        htarget hr hv => (hrec hr₄ hr₅ hr₆ hid htarget hr).1 ℓ ids hv)
    rintro _ loc₄ d₄ ⟨hidle, hlab, -, hh⟩
    refine ⟨hidle, hlab, ?_⟩
    cases hh with
    | seen hr hseen => exact hskip (h₃.rely.trans hr) (.inl hseen)
    | recorded hr₄ hr₅ hr₆ hid htarget hr => exact (hrec hr₄ hr₅ hr₆ hid htarget hr).2

theorem at'_spec {p : PassPoint} :
    wp R i (fun _ loc' d' => loc' = loc.at' (loc.label.withPass p) ∧ d' = d) (fun _ _ _ => False)
      (at' p) loc d := ⟨rfl, rfl⟩

theorem handleAll_spec (hR : Framed R) (hT : Handles R i cfg L) {logs : List RpcLog}
    {loc : Loc} {d : World} (h : Idle loc d) (ht : L logs d) :
    wp R i (fun _ loc' d' => Idle loc' d' ∧ L [] d')
      (fun _ _ _ => True) (handleAll cfg logs) loc d := by
  induction logs generalizing loc d with
  | nil => exact ⟨h, ht⟩
  | cons log logs ih =>
    refine wp_bind_of at'_spec (fun _ _ _ hp => hp.elim) ?_
    rintro _ _ _ ⟨rfl, rfl⟩
    refine wp_bind_of (handle_spec hR hT (h.relabel (h.calm.withPass (by simp))) rfl ht)
      (fun _ _ _ _ => trivial) ?_
    rintro _ loc₁ d₁ ⟨h₁, -, ht₁⟩
    exact ih h₁ ht₁

variable {S : World → Prop} {T : ℕ → ℕ → List RpcLog → World → Prop} {Q : ℕ → World → Prop}
  {c next : ℕ}

/-- The hash of a block as the node has it at that moment. -/
theorem blockHash_spec (hR : Framed R) (h : Idle loc d) (block : ℕ) :
    wp R i (fun hash loc' d' => loc' = loc ∧ Idle loc d' ∧ R.Rely loc none d d' ∧
        d'.chain.hash block = some hash)
      (fun _ _ _ => True) (blockHash block) loc d := by
  simp only [blockHash, Prog.bind_eq, Prog.pure_eq, Prog.bind]
  refine (Ran.refl h.inTx).wp_query hR fun d₁ hr h₁ => ?_
  split
  case h_1 hash hhash => exact ⟨rfl, h.rely hR hr, hr, hhash⟩
  case h_2 => trivial

theorem saveCursor_spec (hR : Framed R) (h : Idle loc d) {cfg : ListenerConfig} {stop : ℕ}
    {hash : BlockHash}
    (hg : ∀ d' ℓ ids, R.Rely loc none d d' →
      R.guar i ℓ ids d' (applyAll [.saveCursor ⟨cfg.vault, stop, hash⟩] d')) :
    wp R i (fun _ loc' d' => Idle loc' d' ∧ loc'.label = loc.label ∧ ∃ d₁, R.Rely loc none d d₁ ∧
        d' = applyAll [.saveCursor ⟨cfg.vault, stop, hash⟩] d₁)
      (fun _ _ _ => True) (saveCursor cfg stop hash) loc d := by
  simp only [saveCursor]
  refine (Ran.refl h.inTx).wp_write (w := .saveCursor _) ⟨by simp [Write.keys], trivial,
    by simp [Write.publishes]⟩ fun h₁ => ?_
  have hv : ∀ d', view (loc.wrote (.saveCursor ⟨cfg.vault, stop, hash⟩)) d' =
      applyAll [.saveCursor ⟨cfg.vault, stop, hash⟩] d' := fun d' => by
    rw [view_wrote, view_of_pending _ h.pending]; rfl
  refine h₁.wp_commit hR (fun d' hr _ => ?_) fun d' hr _ hin => ?_
  · rw [hv]
    exact hg d' _ _ hr
  · exact ⟨⟨hin.wf, hin.calm, rfl, rfl⟩, rfl, d', hr, hv d'⟩

/-- The ranges of a pass. -/
theorem ranges_spec (hR : Framed R) (hT : Passes R i cfg S T Q) {fuel : ℕ} {loc : Loc} {d : World}
    {next : ℕ} (h : Idle loc d) (hfuel : c + 1 - next ≤ fuel)
    (ht : (next ≤ c ∧ loc.label.pass = .past [] ∧ T c next [] d) ∨ (c < next ∧ Q c d)) :
    wp R i (fun _ _ d' => Q c d') (fun _ _ _ => True) (ranges cfg c fuel next) loc d := by
  induction fuel generalizing loc d next with
  | zero =>
    obtain ⟨hle, -, -⟩ | ⟨-, hq⟩ := ht
    · omega
    · exact hq
  | succ fuel ih =>
    simp only [ranges]
    split
    case isFalse hlt =>
      obtain ⟨hle, -, -⟩ | ⟨-, hq⟩ := ht
      · exact absurd hle hlt
      · exact hq
    case isTrue hle =>
    obtain ⟨-, hl, ht⟩ | ⟨hlt, -⟩ := ht
    case inr => omega
    -- A range is not empty and ends at the last block or before, so the fuel lasts.
    have hstop : next ≤ rangeEnd cfg c next ∧ rangeEnd cfg c next ≤ c := by
      simp only [rangeEnd]; omega
    have hfetch := fun d' => hT.fetch c next d' hle
    generalize rangeEnd cfg c next = stop at hstop hfetch ⊢
    simp only [Prog.bind_eq, Prog.bind]
    refine (Ran.refl h.inTx).wp_query hR fun d₁ hr₁ h₁ => ?_
    have ht₁ := hfetch d₁ ((hT.handles _ _).stable _ _ _ _ _ hl List.suffix_rfl hr₁ h.wf ht)
    refine wp_bind_of (handleAll_spec hR (hT.handles _ _) (h.rely hR hr₁) ht₁)
      (fun _ _ _ _ => trivial) ?_
    rintro _ loc₂ d₂ ⟨h₂, ht₂⟩
    refine wp_bind_of at'_spec (fun _ _ _ hp => hp.elim) ?_
    rintro _ _ d₂ ⟨rfl, rfl⟩
    refine wp_bind_of (blockHash_spec hR (h₂.relabel (h₂.calm.withPass (by simp))) stop)
      (fun _ _ _ _ => trivial) ?_
    rintro hash _ d₃ ⟨rfl, h₃, hr₃, hhash⟩
    have ht₃ := (hT.handles _ _).stable _ _ _ _ _ rfl List.suffix_rfl hr₃ h₂.wf ht₂
    refine wp_bind_of at'_spec (fun _ _ _ hp => hp.elim) ?_
    rintro _ _ d₃ ⟨rfl, rfl⟩
    have hsave := fun d' ℓ ids => hT.save
      ((loc₂.at' (loc₂.label.withPass (.past []))).at' (Label.withPass
        (loc₂.at' (loc₂.label.withPass (.past []))).label
        (if stop = c then .closing hash else .past [])))
      c stop hash d₃ d' ℓ ids ht₃ h₃.wf hhash rfl
    refine wp_bind_of (saveCursor_spec hR (h₃.relabel (h₃.calm.withPass (by split <;> simp)))
      fun d' ℓ ids hr => (hsave d' ℓ ids hr).1) (fun _ _ _ _ => trivial) ?_
    rintro _ loc₄ _ ⟨h₄, hl₄, d₄, hr₄, rfl⟩
    have hnext := (hsave d₄ [] [] hr₄).2
    refine ih h₄ (by omega) ?_
    -- The pass ends with the range that reaches the last block.
    by_cases hc : stop = c
    · rw [if_pos hc] at hnext
      exact .inr ⟨by omega, hnext⟩
    · rw [if_neg hc] at hnext
      exact .inl ⟨by omega, by rw [hl₄]; simp [Label.withPass, hc], hnext⟩

/-- The block a pass starts from, once the cursor's hash has been compared. -/
theorem startFrom_spec (hR : Framed R) (hT : Passes R i cfg S T Q) (h : Idle loc d) (hs : S d) :
    wp R i (fun start loc' d' => ∃ d₁ cursor, loc' = loc.at' (loc.label.withPass (.found cursor)) ∧
        R.Rely loc none d d₁ ∧ d₁.cursor cfg.vault = cursor ∧ R.Rely loc' none d₁ d' ∧
        (∀ n b, cursor = some (n, b) → d'.chain.hash n = some b) ∧ start = startAfter cfg cursor)
      (fun _ _ _ => True) (startFrom cfg) loc d := by
  simp only [startFrom, Prog.bind_eq, Prog.bind]
  refine (Ran.refl h.inTx).wp_query hR fun d₁ hr₁ h₁ => ?_
  refine wp_bind_of at'_spec (fun _ _ _ hp => hp.elim) ?_
  rintro _ _ d₁ ⟨rfl, rfl⟩
  cases hc : d₁.cursor cfg.vault with
  | none => exact ⟨d₁, none, rfl, hr₁, hc, .refl d₁, by simp, rfl⟩
  | some cursor =>
    obtain ⟨n, b⟩ := cursor
    simp only [blockHash, Prog.bind_eq, Prog.pure_eq, Prog.bind]
    intro d₂ hr₂
    refine ⟨hT.stand _ n b d₁ d₂ rfl h₁.inTx.wf (hT.inv _ _ _ hr₁ h.wf hs) hc hr₂, ?_⟩
    dsimp only
    split
    case h_2 => trivial
    case h_1 hash hhash =>
    simp only [Prog.bind]
    split
    case isTrue => trivial
    case isFalse heq =>
      rw [not_not] at heq
      exact ⟨d₁, some (n, b), rfl, hr₁, hc, hr₂, by rintro _ _ ⟨⟩; exact heq ▸ hhash, rfl⟩

/-- **A pass.** -/
theorem runOnce_spec (hR : Framed R) (hT : Passes R i cfg S T Q) (h : Idle loc d) (hs : S d) :
    wp R i (fun r _ d' => ∀ n, r = some n → Q n d') (fun _ _ _ => True) (runOnce cfg) loc d := by
  simp only [runOnce, Prog.bind_eq, Prog.bind]
  refine (Ran.refl h.inTx).wp_query hR fun d₀ hr₀ h₀ => ?_
  have hs₀ := hT.inv _ _ _ hr₀ h.wf hs
  split
  case isTrue => exact fun n hn => by cases hn
  case isFalse hconf =>
  refine wp_bind_of (startFrom_spec hR hT (h.rely hR hr₀) hs₀) (fun _ _ _ _ => trivial) ?_
  rintro start _ d₂ ⟨d₁, cursor, rfl, hr₁, hc, hr₂, hcheck, rfl⟩
  split
  case isTrue => exact fun n hn => by cases hn
  case isFalse hle =>
  have hwf₁ := (hR.rely hr₁ h₀.inTx.wf).2
  have ht := hT.start _ _ d₀ d₁ d₂ cursor h₀.inTx.wf hs₀ hr₁ (Nat.not_lt.1 hconf) hc rfl hr₂ hcheck
  refine wp_bind_of at'_spec (fun _ _ _ hp => hp.elim) ?_
  rintro _ _ d₂ ⟨rfl, rfl⟩
  have hidle : Idle ((loc.at' (loc.label.withPass (.found cursor))).at'
      (Label.withPass (loc.label.withPass (.found cursor)) (.past []))) d₂ :=
    ⟨(hR.rely hr₂ hwf₁).2, ⟨h.calm.1, by simp [Label.withPass]⟩, h.pending, h.ids⟩
  refine wp_bind_of (ranges_spec hR hT hidle le_rfl (.inl ⟨Nat.not_lt.1 hle, rfl, ht⟩))
    (fun _ _ _ _ => trivial) ?_
  rintro _ loc₃ d₃ hq n ⟨⟩
  exact hq

end Spec

end Kimana.Listener
