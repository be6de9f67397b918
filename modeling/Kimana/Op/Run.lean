import Kimana.Op
import Kimana.Collections.Inbound
import Kimana.Settlement.Pass
import Kimana.SettlementWallet.Trade
import Kimana.Transfers.Create

/-!
# Runs of operations

* `Op.Commits` : what a transaction of an operation may commit.
* `rules` : the rules of a system of operations, and `wp_prog` : each operation keeps them.
* `invariant_of_reach` : **invariants**: what every commit keeps holds in every reachable state.
-/

namespace Kimana

open ReadCommitted Table Engine TransferStatus

/-! ### What operations commit -/

/-- What a transaction of `apply_onchain` commits. -/
def DeliverCommits (id : Uuid) (target : OnchainTarget) (payload : JObj) (d : World)
    (ws : List Write) : Prop :=
  ∃ t steps, t.id = id ∧ Moves d ws t steps [] ∧ OnchainSteps target payload t steps ∧
    (steps = [] → ws = [])

/-- What a listener commits: a log, or its cursor. -/
def ListenerCommits (cfg : Listener.ListenerConfig) (d : World) (ws : List Write) : Prop :=
  (∃ event txHash logIndex block hash target t steps,
    Listener.Records cfg event txHash logIndex block hash target d ws t steps) ∨
    ∃ block hash, ws = [.saveCursor ⟨cfg.vault, block, hash⟩]

/-- What a transaction of an operation may commit. -/
def Op.Commits (A : Assumed) : Op → World → List Write → Prop
  | createTransfer state session input body _ =>
    Service.CreateCommits A state session input body
  | advanceOnce state id _ _ => AdvanceCommits A state id
  | advanceToCompletion state id _ => AdvanceCommits A state id
  | expireTransfer id _ => StepsCommit id fun _ steps => ∃ payee, steps = [⟨.expired, none, payee⟩]
  | reverseTransfer id _ _ => StepsCommit id fun _ steps =>
    steps.map (·.target) = [.reversing, .reversed] ∧ ∀ st ∈ steps, st.Plain
  | applyOnchain id target payload => DeliverCommits id target payload
  | resolveScreeningHold id decision reason _ body => StepsCommit id fun t steps =>
    t.currentStatus = .screened ∧ ∃ payee, steps = [⟨(resolution decision reason body).1,
      some (resolution decision reason body).2, payee⟩]
  | executeTrade session input feed _ => SettlementWallet.TradeCommits session input feed
  | cancelCollection _ session id answer => Collections.CancelCommits session id answer
  | applyInbound p => Collections.CreditCommits p.provider p.settlesClosed
  | receiveYellowcard _ _ => Collections.CreditCommits Collections.yellowcardName true
  | receiveBridge _ _ => Collections.CreditCommits Collections.bridgeName false
  | runOnce cfg => ListenerCommits cfg

/-- What happens besides the calls: time passes, and the chain changes. -/
inductive Env : World → World → Prop
  | tick {d : World} (now : Time) : d.clock ≤ now → Env d { d with clock := now }
  | chain {d : World} (c : Chain) : Env d { d with chain := c }

/-- The rules of a system of operations. -/
def rules {ι : Type} (A : Assumed) (ops : ι → Op)
    (cond : Label → Option World → World → World → Prop) :
    Rules ι World Key Label where
  guar i ℓ ids d d' := ∃ ws, d' = applyAll ws d ∧ Valid ℓ ids d ws ∧ (ops i).Commits A d ws
  env := Env
  cond := cond

theorem Env.agree {d d' : World} (h : Env d d') (ℓ : List Key) (ids : List ℕ) :
    Agree ℓ ids d d' := by
  cases h <;> exact ⟨fun k _ => by cases k <;> rfl, { Ext.refl d with }, fun _ _ h => { h with }⟩

theorem Env.wf {d d' : World} (h : Env d d') (hwf : Wf d) : Wf d' := by
  cases h <;> exact { hwf with below := fun n hn => { hwf.below n hn with } }

variable {ι : Type} {A : Assumed} {ops : ι → Op}
    {cond : Label → Option World → World → World → Prop}

theorem framed_rules (hc : ∀ l w d d', cond l w d d' → cond (l.withLocking none) none d d') :
    Framed (rules A ops cond) where
  guar i ℓ ids d d' h := by
    obtain ⟨ws, rfl, hv, -⟩ := h
    exact ⟨ws, rfl, hv⟩
  agree ℓ ids d d' h := h.agree ℓ ids
  wf d d' h := h.wf
  nextId d d' h := by cases h <;> exact le_rfl
  cond := hc
  stand _ _ _ := trivial

theorem grants_rules (i : ι) : Grants (rules A ops cond) i ((ops i).Commits A) :=
  fun _ _ _ ws hv hP => ⟨ws, rfl, hv, hP⟩

/-! ### Specifications of the operations -/

section Spec

variable {R : Rules ι World Key Label} {i : ι} {loc : Loc} {d : World}

/-- `apply_onchain` in a transaction of its own commits, unless the transfer is not there, others
opened an account first or the path can not be posted; then it changes nothing. -/
theorem deliver_spec (hR : Framed R) {id : Uuid} {target : OnchainTarget} {payload : JObj}
    (hg : Grants R i (DeliverCommits id target payload)) (h : Idle loc d) :
    wp R i (fun _ loc' d' => Committed loc loc' d' ∧ ∃ d₁ ws, d' = applyAll ws d₁ ∧
        DeliverCommits id target payload d₁ ws ∧ loc'.made = (d₁, d') :: loc.made)
      (fun _ loc' d' => Dropped loc loc' d' ∧
        ((∃ d₁, R.Rely loc none d d₁ ∧ d₁.transfer id = none) ∨
        (∃ loc₁, .transfer id ∈ loc₁.locks ∧ Raced R loc₁) ∨
        ∃ t, R.Rely loc none d d' ∧ d'.transfer id = some t ∧ Unpostable d' t target))
      (deliver id target payload) loc d := by
  refine wp_begin hR h fun conn d₁ hr₁ h₁ => ?_
  refine wp_bind_of (applyOnchain_spec hR h₁.inTx conn id target payload) ?_ ?_
  · rintro e loc₂ d₂ ⟨hf, ⟨d₃, hr₃, hn⟩ | he⟩
    · exact ⟨hf.dropped h.calm, .inl ⟨d₃, hr₁.trans hr₃, view_of_pending d₃ h₁.pending ▸ hn⟩⟩
    · refine ⟨hf.dropped h.calm, .inr ((he.why hR h₁.pending).imp_right ?_)⟩
      rintro ⟨t, hr, ht, hun⟩
      exact ⟨t, hr₁.trans hr, ht, hun⟩
  rintro outcome loc₂ d₂ ⟨t, loc₃, d₃, ws, steps, ha⟩
  simp only [Tx.commit, Prog.bind_eq, Prog.pure_eq, Prog.bind]
  have hP : ∀ d₄, Ran R loc₃ d₃ loc₂ d₄ ws → DeliverCommits id target payload d₄ loc₂.pending := by
    intro d₄ h₄
    have hm : loc₂.pending = ws ∧ Moves d₄ ws t.row steps [] :=
      ha.locked.moves hR h₁.pending h₄ ha.allowed (by rw [ha.brief, List.append_nil])
    exact hm.1 ▸ ⟨t.row, steps, ha.locked.rowId, hm.2, ha.kind, ha.quiet⟩
  refine ha.ran.wp_commit_of hR hg hP fun d₄ h₄ hc => ⟨hc.trans ha.locked.ran, d₄, loc₂.pending,
    rfl, hP d₄ h₄, ?_⟩
  simp [h₄.made, ha.locked.ran.made]

theorem wp_wrap {E B : Type} {e : E → Failure} {a : B → Answer} {p : Prog World Write Key Label E B}
    {Φ : Answer → Loc → World → Prop} {Ψ : Failure → Loc → World → Prop} :
    wp R i Φ Ψ (wrap e a p) loc d ↔
      wp R i (fun x => Φ (a x)) (fun x => Ψ (e x)) p loc d := by
  rw [wrap, wp_bind, wp_mapError]
  exact Iff.rfl

/-- A pass of the listener commits logs and cursors. -/
theorem passes_of_grants {cfg : Listener.ListenerConfig} (hst : ∀ l d, R.stand l d)
    (hg : ∀ ℓ ids d ws, Valid ℓ ids d ws → ListenerCommits cfg d ws →
      R.guar i ℓ ids d (applyAll ws d)) :
    Listener.Passes R i cfg (fun _ => True) (fun _ _ _ _ => True) fun _ _ => True where
  inv _ _ _ _ _ _ := trivial
  stand _ _ _ _ d' _ _ _ _ _ := hst _ d'
  start _ _ _ _ _ _ _ _ _ _ _ _ _ _ := trivial
  fetch _ _ _ _ _ := trivial
  handles c next :=
    { stable _ _ _ _ _ _ _ _ _ _ := trivial
      skip _ _ _ _ _ := trivial
      record logs event id txHash logIndex block hash d₀ d₁ d₂ d₃ target ws t steps _ _ _ _ _ hr :=
        ⟨fun ℓ ids hv => hg ℓ ids d₃ ws hv (.inl ⟨event, txHash, logIndex, block, hash, target, t,
          steps, hr⟩), trivial⟩ }
  save loc c stop hash d d' ℓ ids _ _ _ _ _ := by
    refine ⟨hg ℓ ids d' _ ⟨⟨by simp [Write.keys], trivial, by simp [Write.publishes]⟩, trivial⟩
      (.inr ⟨stop, hash, rfl⟩), ?_⟩
    split <;> trivial

end Spec

/-! ### Answers -/

/-- What the answer of an operation says, besides what it committed. -/
def Op.Post : Op → Except Failure Answer → List (World × World) → World → Prop
  | createTransfer _ session input _ _, .ok (.transfer t), _, d =>
    Service.keyed d session.customerId input.idempotencyKey = some t.row.id
  | createTransfer .., .error (.api e), made, _ => e.code = .conflict → made = []
  -- The engine's operations are one transaction each.
  | advanceOnce .., .error _, made, _ => made = []
  | expireTransfer .., .error _, made, _ => made = []
  | reverseTransfer .., .error _, made, _ => made = []
  | applyOnchain .., .error _, made, _ => made = []
  | resolveScreeningHold .., .error _, made, _ => made = []
  | applyInbound p, .ok (.applied first), made, d =>
    Collections.Recorded p.provider p.providerPaymentId first [] made d
  | receiveYellowcard _ w, .ok (.ack a), made, d =>
    Collections.Acknowledged Collections.yellowcardName w.key a [] made d
  | receiveBridge _ w, .ok (.ack a), made, d =>
    Collections.Acknowledged Collections.bridgeName w.key a [] made d
  | _, _, _, _ => True

theorem Collections.Recorded.ext {p i : String} {first : Bool} {before after : List (World × World)}
    {d d' : World} (h : Recorded p i first before after d) (he : Ext d d') :
    Recorded p i first before after d' := ⟨h.1, paymentByKey_ext he h.2⟩

theorem Collections.Acknowledged.ext {p : String} {key : Option String} {ack : WebhookAck}
    {before after : List (World × World)} {d d' : World} (h : Acknowledged p key ack before after d)
    (he : Ext d d') : Acknowledged p key ack before after d' := by
  simp only [Acknowledged] at h ⊢
  split
  case isTrue ha =>
    rw [if_pos ha] at h
    obtain ⟨i, hk, hr⟩ := h
    exact ⟨i, hk, hr.ext he⟩
  case isFalse ha => rwa [if_neg ha] at h

/-- What an answer says stays true. -/
theorem Op.Post.ext {op : Op} {r : Except Failure Answer} {made : List (World × World)}
    {d d' : World} (h : op.Post r made d) (he : Ext d d') (hwf : Wf d') : op.Post r made d' := by
  cases op <;> rcases r with (e | l) | (a | t | b | o | w | s | a | b | n) <;> try trivial
  case createTransfer.ok.transfer => exact Service.keyed_ext he hwf h
  case applyInbound.ok.applied => exact Collections.Recorded.ext h he
  case receiveYellowcard.ok.ack => exact Collections.Acknowledged.ext h he
  case receiveBridge.ok.ack => exact Collections.Acknowledged.ext h he

section Spec

variable {R : Rules ι World Key Label} {i : ι} {d : World}

/-- What holds of the answer and of every extension of the database holds from then on. -/
theorem stays_of_ext (hR : Framed R)
    {Q : Except Failure Answer → List (World × World) → World → Prop}
    {r : Except Failure Answer} {made : List (World × World)} (hwf : Wf d) (h : Q r made d)
    (he : ∀ d', Ext d d' → Wf d' → Q r made d → Q r made d') : Stays R Q r made d := fun d' hr => by
  have hr' : R.Rely { label := default } none d d' := hr
  exact he d' (hR.rely hr' hwf).1.ext (hR.rely hr' hwf).2 h

/-- **Operations**: each commits what it may and answers what it should. -/
theorem wp_prog (hR : Framed R) (hA : Granted A R) (hst : ∀ l d, R.stand l d) {op : Op}
    (hg : Grants R i (op.Commits A)) (hwf : Wf d) :
    Runs R i op.Post op.prog { label := default } d := by
  have h : Idle ({ label := default } : Loc) d := ⟨hwf, ⟨rfl, by rintro c ⟨⟩⟩, rfl, rfl⟩
  -- Rows are never deleted, so what a call has answered stays true while others go on.
  have hstays : ∀ {r made d'}, Wf d' → op.Post r made d' → Stays R op.Post r made d' :=
    fun hwf hp => stays_of_ext hR hwf hp fun d'' he hwf' hp' => hp'.ext he hwf'
  simp only [Runs]
  cases op with
  | createTransfer state session input body bodies =>
    simp only [Op.prog]
    refine wp_wrap.2 (wp_mono ?_ ?_ (Service.createTransfer_spec hR hA hg h))
    · rintro t loc' d' ⟨hwf', hkey⟩
      exact hstays hwf' hkey
    · rintro e loc' d' hconflict d'' -
      exact hconflict
  | advanceOnce state id actorId body =>
    simp only [Op.prog]
    exact wp_wrap.2 (wp_mono (fun _ _ _ _ _ _ => trivial) (fun _ _ _ he _ _ => he.1.made)
      (advanceOnce_spec hR hA hg h))
  | advanceToCompletion state id bodies =>
    simp only [Op.prog]
    exact wp_wrap.2 (wp_mono (fun _ _ _ _ _ _ => trivial) (fun _ _ _ _ _ _ => trivial)
      (advanceToCompletion_spec hR hA hg h))
  | expireTransfer id actorId =>
    simp only [Op.prog]
    exact wp_wrap.2 (wp_mono (fun _ _ _ _ _ _ => trivial) (fun _ _ _ he _ _ => he.made)
      (expireTransfer_spec hR hg h))
  | reverseTransfer id reason actorId =>
    simp only [Op.prog]
    exact wp_wrap.2 (wp_mono (fun _ _ _ _ _ _ => trivial) (fun _ _ _ he _ _ => he.made)
      (reverseTransfer_spec hR hg h))
  | applyOnchain id target payload =>
    simp only [Op.prog]
    exact wp_wrap.2 (wp_mono (fun _ _ _ _ _ _ => trivial) (fun _ _ _ he _ _ => he.1.made)
      (deliver_spec hR hg h))
  | resolveScreeningHold id decision reason actorId body =>
    simp only [Op.prog]
    exact wp_wrap.2 (wp_mono (fun _ _ _ _ _ _ => trivial) (fun _ _ _ he _ _ => he.made)
      (resolveScreeningHold_spec hR hg h))
  | executeTrade session input feed body =>
    simp only [Op.prog]
    exact wp_wrap.2 (wp_mono (fun _ _ _ _ _ _ => trivial) (fun _ _ _ _ _ _ => trivial)
      (SettlementWallet.executeTrade_spec hR hg h))
  | cancelCollection state session id answer =>
    simp only [Op.prog]
    exact wp_wrap.2 (wp_mono (fun _ _ _ _ _ _ => trivial) (fun _ _ _ _ _ _ => trivial)
      (Collections.cancelCollection_spec hR hg h))
  | applyInbound p =>
    simp only [Op.prog]
    exact wp_wrap.2 (wp_mono (fun _ _ _ hp => hstays hp.1 hp.2) (fun _ _ _ _ _ _ => trivial)
      (Collections.applyInbound_spec hR hg h))
  | receiveYellowcard state w =>
    simp only [Op.prog]
    exact wp_wrap.2 (wp_mono (fun _ _ _ hp => hstays hp.1 hp.2) (fun _ _ _ _ _ _ => trivial)
      (Collections.receiveYellowcard_spec hR hg h))
  | receiveBridge state w =>
    simp only [Op.prog]
    exact wp_wrap.2 (wp_mono (fun _ _ _ hp => hstays hp.1 hp.2) (fun _ _ _ _ _ _ => trivial)
      (Collections.receiveBridge_spec hR hg h))
  | runOnce cfg =>
    simp only [Op.prog]
    exact wp_wrap.2 (wp_mono (fun _ _ _ _ _ _ => trivial) (fun _ _ _ _ _ _ => trivial)
      (Listener.runOnce_spec hR (passes_of_grants hst hg) h trivial))

end Spec

/-! ### Runs -/

/-- The system of some calls that have not begun. -/
def system (ops : ι → Op) (d : World) : Sys ι World Write Key Label Failure Answer :=
  ⟨d, fun i => .start (ops i).prog⟩

/-- A condition on the changes of others that asks for no more while a call waits. -/
def Lax (cond : Label → Option World → World → World → Prop) : Prop :=
  ∀ l w d d', cond l w d d' → cond (l.withLocking none) none d d'

/-- No condition. -/
def anyChange (_ : Label) (_ : Option World) (_ _ : World) : Prop := True

theorem lax_anyChange : Lax anyChange := fun _ _ _ _ _ => trivial

/-- Nothing is assumed of the runs. -/
def noAssumption : Assumed := ⟨False, False⟩

theorem granted_noAssumption {R : Rules ι World Key Label} : Granted noAssumption R :=
  ⟨fun h => h.elim, fun h => h.elim⟩

/-- A step of a system of operations whose change meets a condition. -/
def StepIf [DecidableEq ι] (cond : Label → Option World → World → World → Prop) (e : Event ι)
    (s s' : Sys ι World Write Key Label Failure Answer) : Prop :=
  Step Env e s s' ∧ Meets cond e s s'

variable [DecidableEq ι]

theorem stepIf_of_step {e : Event ι} {s s' : Sys ι World Write Key Label Failure Answer}
    (h : Step Env e s s') : StepIf anyChange e s s' := ⟨h, fun _ _ => trivial⟩

/-- Every reachable state is in order. -/
theorem sysOk_of_reach (hc : Lax cond) (hA : Granted A (rules A ops cond)) {d₀ : World}
    (hwf : Wf d₀) {s : Sys ι World Write Key Label Failure Answer}
    (hr : Reach (StepIf cond) (system ops d₀) s) :
    SysOk (rules A ops cond) (fun i => (ops i).Post) s :=
  (SysOk.start fun i => wp_prog (framed_rules hc) hA (fun _ _ => trivial) (grants_rules i)
    hwf).reach (framed_rules hc).seqMono hr

/-- How a step of a reachable state changes the database. -/
theorem moved_of_reach {d₀ : World} (hwf : Wf d₀)
    {s s' : Sys ι World Write Key Label Failure Answer} {e : Event ι}
    (hr : Reach (Step Env) (system ops d₀) s) (hst : Step Env e s s') :
    Moved (rules noAssumption ops anyChange) s e s'.shared :=
  (sysOk_of_reach lax_anyChange granted_noAssumption hwf
    (hr.mono fun _ _ _ h => stepIf_of_step h)).moved hst

/-- Rows stay on file from one state of a run to the next. -/
theorem ext_of_step {d₀ : World} (hwf : Wf d₀) {s s' : Sys ι World Write Key Label Failure Answer}
    {e : Event ι} (hr : Reach (Step Env) (system ops d₀) s) (hst : Step Env e s s') :
    Ext s.shared s'.shared := by
  have hm := moved_of_reach hwf hr hst
  generalize s'.shared = d' at hm
  cases hm with
  | go i d _ hch =>
    rcases hch with rfl | rfl | ⟨ws, rfl, -, -⟩
    · exact .refl _
    · exact { Ext.refl _ with }
    · exact ext_applyAll ws _
  | crash i => exact .refl _
  | env d he => exact (he.agree [] []).ext

theorem ext_of_reach {d₀ : World} (hwf : Wf d₀)
    {s s' : Sys ι World Write Key Label Failure Answer}
    (hr : Reach (Step Env) (system ops d₀) s) (hr' : Reach (Step Env) s s') :
    Ext s.shared s'.shared := by
  induction hr' with
  | refl => exact .refl _
  | tail hr' hst ih =>
    obtain ⟨e, he⟩ := hst
    exact ih.trans (ext_of_step hwf (hr.trans hr') he)

/-- **Invariants**: what the environment, drawn ids and every commit keep holds in every state that
steps of `step` reach; `Q` is what these steps are known to satisfy. -/
theorem invariant_of_reach (hc : Lax cond) (hA : Granted A (rules A ops cond)) {d₀ : World}
    (hwf : Wf d₀) {I : World → Prop} (h₀ : I d₀) (hbump : ∀ d, I d → I (bump d))
    (henv : ∀ d d', I d → Env d d' → I d') (Q : Event ι → World → World → Prop)
    (hcommit : ∀ i ℓ ids d ws, Wf d → Wf (applyAll ws d) → I d → Valid ℓ ids d ws →
      (ops i).Commits A d ws → Q (.go i) d (applyAll ws d) → I (applyAll ws d))
    {step : Event ι → Sys ι World Write Key Label Failure Answer →
      Sys ι World Write Key Label Failure Answer → Prop}
    (hstep : ∀ e s s', step e s s' → StepIf cond e s s' ∧ Q e s.shared s'.shared)
    {s : Sys ι World Write Key Label Failure Answer} (hr : Reach step (system ops d₀) s) :
    Wf s.shared ∧ I s.shared := by
  refine hr.invariant (I := fun s => Wf s.shared ∧ I s.shared) ⟨hwf, h₀⟩ ?_
  rintro s e s' hs ⟨hwf, hi⟩ hst
  obtain ⟨⟨hst, -⟩, hok⟩ := hstep e s s' hst
  have hs' := hs.mono fun e s s' h => (hstep e s s' h).1
  have hm := (sysOk_of_reach hc hA ‹Wf d₀› hs').moved hst
  generalize s'.shared = d' at hm hok ⊢
  cases hm with
  | go i d hbelow hch =>
    rcases hch with rfl | rfl | ⟨ws, rfl, hv, hP⟩
    · exact ⟨hwf, hi⟩
    · exact ⟨hwf.bump, hbump _ hi⟩
    · have hwf' := hwf.applyAll hv hbelow
      exact ⟨hwf', hcommit i _ _ _ ws hwf hwf' hi hv hP hok⟩
  | crash i => exact ⟨hwf, hi⟩
  | env d he => exact ⟨he.wf hwf, henv _ _ hi he⟩

/-- Every reachable database keeps the constraints. -/
theorem wf_of_reach {d₀ : World} (hwf : Wf d₀)
    {s : Sys ι World Write Key Label Failure Answer} (hr : Reach (Step Env) (system ops d₀) s) :
    Wf s.shared :=
  (invariant_of_reach (I := fun _ => True) lax_anyChange granted_noAssumption hwf trivial
    (fun _ _ => trivial) (fun _ _ _ _ => trivial) (fun _ _ _ => True)
    (fun _ _ _ _ _ _ _ _ _ _ _ => trivial) (fun _ _ _ h => ⟨stepIf_of_step h, trivial⟩) hr).1

/-! ### A small database -/

/-- A database in which nothing has happened yet keeps the constraints. -/
theorem Wf.of_new {d : World} (ht : d.transfers = []) (hh : d.history = []) (ha : d.accounts = [])
    (hl : d.ledger = []) (htr : d.trades = []) (hi : d.inbound = []) (he : d.events = [])
    (hq : (d.quotes.map (·.id)).Nodup) (hc : ∀ q ∈ d.quotes, q.consumedByTransferId = none) :
    Wf d := by
  refine ⟨fun n _ => ⟨?_, ?_, ?_, ?_, ?_⟩, ?_, ?_, hq, ?_, ?_, ?_, ?_, ?_, ?_, ?_, ?_, ?_, ?_, ?_,
    fun q hm id h => ?_⟩
  all_goals simp_all

/-- A configuration. -/
def sampleState (settlementOnchain : Bool) : AppState :=
  { settlementOnchain
    complianceAmountThresholdMinor := 1000000
    maxTransferAmountMinor := 1000000
    maxAggregateExposureMinor := 1000000
    yellowcard := true
    bridgeWebhookKey := true
    transferRef := fun id => id
    isWord := Char.isAlphanum }

/-- A customer. -/
def sampleSession : Session := ⟨1, 1, "customer"⟩

/-- A quote of the customer: 100 dollars for 150 000 naira. -/
def sampleQuote (id : Uuid) : QuoteRow :=
  { id
    customerId := 1
    sendCurrency := .usd
    receiveCurrency := .ngn
    rate := 1500 * 10 ^ 8
    feeMinor := 0
    sendAmountMinor := 10000
    receiveAmountMinor := 15000000
    issuedAt := 0
    expiresAt := 1000
    consumedByTransferId := none }

/-- The database of one customer with two quotes and a recipient in a country. -/
def sampleWorld (country : String) : World :=
  { nextId := 100
    customers := [⟨1, none, none⟩]
    recipients := [⟨2, 1, "Ada", country⟩]
    quotes := [sampleQuote 3, sampleQuote 4] }

theorem wf_sampleWorld (country : String) : Wf (sampleWorld country) :=
  .of_new rfl rfl rfl rfl rfl rfl rfl (by simp [sampleWorld, sampleQuote])
    (by simp [sampleWorld, sampleQuote])

/-- A dollar payment to the customer. -/
def samplePayment (key : String) (amountMinor : ℤ) : Collections.Inbound :=
  { customerId := 1
    collectionId := none
    settlesClosed := false
    provider := Collections.bridgeName
    providerPaymentId := key
    amountMinor
    currency := .usd
    payerName := none
    description := none
    receivedAt := 0
    raw := [] }

/-- A creation from a quote. -/
def sampleCreate (settlementOnchain : Bool) (key : String) (quoteId : Uuid) : Op :=
  .createTransfer (sampleState settlementOnchain) sampleSession ⟨key, quoteId, 2⟩ key fun _ => key

/-- A schedule that ends in a state with some property witnesses that it can be reached. -/
theorem exists_reach {ι : Type} [DecidableEq ι] (ops : ι → Op) (d : World) (is : List ι)
    (turns : List (ι × ℕ)) (P : Sys ι World Write Key Label Failure Answer → Bool)
    (his : ∀ i, i ∈ is) (h : (play is (schedule turns) (system ops d)).any P = true) :
    ∃ s, Reach (Step Env) (system ops d) s ∧ P s = true :=
  exists_reach_of_play Env is _ _ P his (env_schedule turns) h

/-- A step after a schedule. -/
theorem exists_step {ι : Type} [DecidableEq ι] (ops : ι → Op) (d : World) (is : List ι)
    (turns : List (ι × ℕ)) (i : ι)
    (P : Sys ι World Write Key Label Failure Answer → Sys ι World Write Key Label Failure Answer →
      Bool) (his : ∀ i, i ∈ is)
    (h : ((play is (schedule turns) (system ops d)).any fun s =>
      (playMove is s (.go i)).any (P s)) = true) :
    ∃ s s', Reach (Step Env) (system ops d) s ∧ Step Env (.go i) s s' ∧ P s s' = true := by
  obtain ⟨s, hr, hs⟩ := exists_reach ops d is turns _ his h
  obtain ⟨s', hs', hP⟩ := (Option.any_eq_true ..).1 hs
  exact ⟨s, s', hr, step_of_playMove his (by simp) hs', hP⟩

end Kimana
