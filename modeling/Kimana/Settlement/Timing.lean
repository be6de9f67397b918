import Kimana.Op.Funds
import Mathlib.Data.Fintype.Basic
import Mathlib.Tactic.FinCases

/-!
# When a settlement is confirmed

With on-chain settlement two drivers move a transfer.  `advanceOnce` takes it to `SETTLING` and,
once it is settled, on to `COMPLETED`; the listener takes it from `FUNDED` or `SETTLING` to
`SETTLED` when it comes to the transfer's log.  A log that comes while the transfer still waits for
its funds is recorded as ignored, and a recorded log is never applied again.

* `parked_of_early` : such a transfer stays at `SETTLING`.
* `settled_of_reach` : **what the log's row says** decides where the transfer comes to rest and with
  which entries, in every run.
-/

namespace Kimana

open ReadCommitted Table Engine TransferStatus Listener

/-! ### The drivers -/

/-- The log of a confirmed settlement. -/
structure SettlementLog where
  ref : B256
  partner : ℕ
  amount : ℕ
  txHash : B256
  logIndex : ℕ
  block : ℕ
  hash : BlockHash

namespace SettlementLog

/-- Its event. -/
def event (L : SettlementLog) : VaultEvent := .settlementInitiated L.ref L.partner L.amount

/-- The log as the node returns it. -/
def log (L : SettlementLog) : RpcLog := logAt L.txHash L.logIndex L.block L.hash L.event

/-- The log was handled: its event row is there. -/
def recorded (L : SettlementLog) (d : World) : Bool := (d.eventByKey L.txHash L.logIndex).isSome

end SettlementLog

/-- A call that moves a transfer on: a step of `advanceOnce`, or a listener that comes to the
log. -/
inductive Driver
  | advance (state : AppState) (actorId : Option Uuid) (body : String)
  | handle (cfg : ListenerConfig)

/-- The program of a driver of transfer `id`, whose log is `L`. -/
def Driver.prog (id : Uuid) (L : SettlementLog) : Driver → OpProg
  | advance state actorId body => wrap .api .status (Engine.advanceOnce state id actorId body)
  | handle cfg => wrap .listener (fun _ => .none) (Listener.handleAll cfg [L.log])

/-- Any number of drivers that have not begun. -/
def driving {ι : Type} (id : Uuid) (L : SettlementLog) (drivers : ι → Driver) (d : World) :
    Sys ι World Write Key Label Failure Answer :=
  ⟨d, fun i => .start ((drivers i).prog id L)⟩

/-- What a driver commits; `payee` is the name a payout is described with. -/
inductive DriverCommits (id : Uuid) (L : SettlementLog) (payee : String) (d : World)
    (ws : List Write) : Prop
  | stay : ws = [] → DriverCommits id L payee d ws
  | advance {t : TransferRow} {st : PathStep} : t.id = id → Moves d ws t [st] [] →
      nextStep true t.currentStatus = some st.target → (st.target = .completed → st.payee = payee) →
      DriverCommits id L payee d ws
  | handle {cfg : ListenerConfig} {t : TransferRow} {steps : List PathStep} : t.id = id →
      Records cfg L.event L.txHash L.logIndex L.block L.hash (some .settled) d ws t steps →
      DriverCommits id L payee d ws

/-- The rules of the drivers. -/
def driverRules (ι : Type) (id : Uuid) (L : SettlementLog) (payee : String) :
    Rules ι World Key Label where
  guar _ ℓ ids d d' := ∃ ws, d' = applyAll ws d ∧ Valid ℓ ids d ws ∧ DriverCommits id L payee d ws
  env := Env

theorem framed_driverRules {ι : Type} {id : Uuid} {L : SettlementLog} {payee : String} :
    Framed (driverRules ι id L payee) where
  guar i ℓ ids d d' h := by
    obtain ⟨ws, rfl, hv, -⟩ := h
    exact ⟨ws, rfl, hv⟩
  agree ℓ ids d d' h := h.agree ℓ ids
  wf d d' h := h.wf
  nextId d d' h := by cases h <;> exact le_rfl
  cond _ _ _ _ _ := trivial
  stand _ _ _ := trivial

/-! ### Where the drivers take a transfer -/

/-- The statuses from `AWAITING_FUNDS` to `COMPLETED`. -/
def onward : List TransferStatus :=
  [.awaitingFunds, .funded, .settling, .settled, .payingOut, .completed]

/-- The statuses past the settlement. -/
def past : List TransferStatus := [.settled, .payingOut, .completed]

/-- The entries of a transfer on its way from `AWAITING_FUNDS` to `COMPLETED`. -/
def entriesAt (t : TransferRow) (payee : String) : TransferStatus → List LedgerEntry
  | .funded | .settling => legFor t payee .awaitingFunds .funded
  | .settled | .payingOut => legFor t payee .awaitingFunds .funded ++
      legFor t payee .settling .settled
  | .completed => legFor t payee .awaitingFunds .funded ++ (legFor t payee .settling .settled ++
      legFor t payee .payingOut .completed)
  | _ => []

/-- The steps a driver takes on the way. -/
structure Onward (payee : String) (source : TransferStatus) (steps : List PathStep) : Prop where
  stays : pathEnd source steps = .awaitingFunds → steps = []
  mem : pathEnd source steps ∈ onward
  entries : ∀ t, entriesAt t payee source ++ pathEntries t source steps =
    entriesAt t payee (pathEnd source steps)

theorem onward_nil {payee : String} {s : TransferStatus} (h : s ∈ onward) : Onward payee s [] where
  stays _ := rfl
  mem := h
  entries t := by simp [pathEntries]

/-- A forward step does not pass the settlement. -/
theorem onward_next {payee : String} {s : TransferStatus} {st : PathStep} (h : s ∈ onward)
    (hst : nextStep true s = some st.target) (hp : st.target = .completed → st.payee = payee) :
    Onward payee s [st] ∧ (s ∈ past ↔ st.target ∈ past) := by
  obtain ⟨target, payload, name⟩ := st
  simp only [onward, List.mem_cons, List.not_mem_nil, or_false] at h
  rcases h with rfl | rfl | rfl | rfl | rfl | rfl <;>
    simp [nextStep, forwardStep, Option.filter] at hst <;> subst hst
  case inr.inr.inr.inr.inl =>
    obtain rfl := hp rfl
    exact ⟨⟨by simp, by simp [onward],
      fun t => by simp [entriesAt, pathEntries, refundFor, legFor]⟩, by simp [past]⟩
  all_goals
    exact ⟨⟨by simp, by simp [onward],
      fun t => by simp [entriesAt, pathEntries, refundFor, legFor]⟩, by simp [past]⟩

/-- The steps of a confirmed settlement: none when it comes too early or too late. -/
theorem settled_steps {t : TransferRow} {payload : JObj} {steps : List PathStep}
    (h : t.currentStatus ∈ onward) (hk : OnchainSteps .settled payload t steps)
    (hall : pathAllowed t.currentStatus (steps.map (·.target)) = true) :
    (t.currentStatus = .funded ∧ ∃ st₁ st₂, steps = [st₁, st₂] ∧ st₁.target = .settling ∧
      st₂.target = .settled) ∨ (t.currentStatus = .settling ∧ ∃ st, steps = [st] ∧
      st.target = .settled) ∨ (t.currentStatus ≠ .funded ∧ t.currentStatus ≠ .settling ∧
      steps = []) := by
  have hpath := hk.path
  generalize t.currentStatus = s at h hpath hall ⊢
  simp only [onward, List.mem_cons, List.not_mem_nil, or_false] at h
  rcases h with rfl | rfl | rfl | rfl | rfl | rfl
  case inl =>
    refine .inr (.inr ⟨by simp, by simp, ?_⟩)
    rcases hpath with hp | ⟨hp, -⟩
    · rw [hp] at hall
      exact absurd hall (by decide)
    · exact hp
  case inr.inl =>
    rcases hpath with hp | ⟨-, hp⟩
    · obtain ⟨st₁, steps₁, rfl, h₁, hp⟩ := List.map_eq_cons_iff.1 hp
      obtain ⟨st₂, rfl, h₂⟩ := List.map_eq_singleton_iff.1 hp
      exact .inl ⟨rfl, st₁, st₂, rfl, h₁, h₂⟩
    · exact absurd hp (by decide)
  case inr.inr.inl =>
    rcases hpath with hp | ⟨-, hp⟩
    · obtain ⟨st, rfl, hst⟩ := List.map_eq_singleton_iff.1 hp
      exact .inr (.inl ⟨rfl, st, rfl, hst⟩)
    · exact absurd hp (by decide)
  all_goals
    refine .inr (.inr ⟨by simp, by simp, ?_⟩)
    rcases hpath with hp | ⟨hp, -⟩
    · exact List.map_eq_nil_iff.1 hp
    · exact hp

/-- A confirmed settlement takes a funded transfer past `SETTLED`, and leaves one that waits for its
funds. -/
theorem onward_settled {payee : String} {t : TransferRow} {payload : JObj}
    {steps : List PathStep} (h : t.currentStatus ∈ onward)
    (hk : OnchainSteps .settled payload t steps)
    (hall : pathAllowed t.currentStatus (steps.map (·.target)) = true) :
    Onward payee t.currentStatus steps ∧
      (t.currentStatus = .awaitingFunds ↔ pathEnd t.currentStatus steps ∉ past) := by
  obtain ⟨hs, st₁, st₂, rfl, h₁, h₂⟩ | ⟨hs, st, rfl, hst⟩ | ⟨hf, hs, rfl⟩ :=
    settled_steps h hk hall
  · rw [hs]
    exact ⟨⟨by simp [h₂], by simp [h₂, onward],
      fun t => by simp [entriesAt, pathEntries, refundFor, legFor, h₁, h₂]⟩, by simp [h₂, past]⟩
  · rw [hs]
    exact ⟨⟨by simp [hst], by simp [hst, onward],
      fun t => by simp [entriesAt, pathEntries, refundFor, legFor, hst]⟩, by simp [hst, past]⟩
  · refine ⟨onward_nil h, ?_⟩
    simp only [onward, List.mem_cons, List.not_mem_nil, or_false] at h
    rcases h with h | h | h | h | h | h <;> simp_all [past]

/-! ### One commit -/

/-- Where the drivers have taken a transfer that began as `t₀`, with entries `es₀`. -/
structure Driven (t₀ : TransferRow) (es₀ : List LedgerEntry) (L : SettlementLog) (payee : String)
    (t : TransferRow) (d : World) : Prop where
  found : d.transfer t₀.id = some t
  core : t.core = t₀.core
  mem : t.currentStatus ∈ onward
  entries : (d.entriesOfTransfer t₀.id).map .strip = es₀ ++ entriesAt t₀ payee t.currentStatus
  funds : t.currentStatus = .awaitingFunds →
    t₀.sendAmountMinor ≤ d.funds t₀.customerId (.fiat t₀.sendCurrency)
  ref : d.HasRef L.ref t₀.id
  payee : payeeOf d t₀ = payee

variable {t₀ t : TransferRow} {es₀ : List LedgerEntry} {L : SettlementLog} {payee : String}
  {d : World} {ws : List Write}

/-- Steps on the way keep a transfer on it. -/
theorem Driven.path (h : Driven t₀ es₀ L payee t d) (hwf : Wf d) (hwf' : Wf (applyAll ws d))
    {ℓ : List Key} {ids : List ℕ} (hv : Valid ℓ ids d ws) {steps : List PathStep}
    {tail : List Write} (hm : Moves d ws t steps tail)
    (htail : tail = [] ∨ ∃ ev, tail = [.insertEvent ev])
    (ho : Onward payee t.currentStatus steps) :
    ∃ t', Driven t₀ es₀ L payee t' (applyAll ws d) ∧
      t'.currentStatus = pathEnd t.currentStatus steps := by
  obtain ⟨t', ht', hcore, hst⟩ := hm.transfer htail
  have hid : t.id = t₀.id := TransferRow.id_of_core h.core
  have hentries : ∀ s, entriesAt t payee s = entriesAt t₀ payee s := fun s =>
    TransferRow.eq_of_core (entriesAt · payee s) (fun _ => rfl) h.core
  refine ⟨t', ⟨hid ▸ ht', hcore.trans h.core, hst ▸ ho.mem, ?_, fun hs => ?_,
    h.ref.applyAll hv, ?_⟩,
    hst⟩
  · rw [hm.entries htail, if_pos hid, h.entries, List.append_assoc, ← hentries,
      ho.entries, hentries,
      hst]
  · have hnil := ho.stays (hst ▸ hs)
    subst hnil
    rw [hm.funds htail hwf hwf']
    have := h.funds (by rw [hst] at hs; exact hs)
    simpa [pathEntries] using this
  · rw [payeeOf, recipients_applyAll]
    exact h.payee

/-- What an event row says was done. -/
def outcomeOf (ev : SettlementEvent) : Option JVal := ev.payload.get "outcome"

/-- What it says when the log came too early. -/
def tooEarly : Option JVal := some (.str (outcomeText (some (.ignored .awaitingFunds))))

theorem outcomeText_settled {s : TransferStatus} (h : s ∈ onward) (ha : s ≠ .awaitingFunds) :
    outcomeText (some (onchainOutcome .settled s)) ≠
      outcomeText (some (.ignored .awaitingFunds)) := by
  simp only [onward, List.mem_cons, List.not_mem_nil, or_false] at h
  rcases h with rfl | rfl | rfl | rfl | rfl | rfl
  case inl => exact absurd rfl ha
  all_goals decide

/-- The log's row, if it is there, says on which side of the settlement the transfer stands. -/
def Told (L : SettlementLog) (d : World) (s : TransferStatus) : Prop :=
  ∀ ev, d.eventByKey L.txHash L.logIndex = some ev → (outcomeOf ev = tooEarly ↔ s ∉ past)

/-- One commit. -/
theorem Driven.commit (h : Driven t₀ es₀ L payee t d) (hwf : Wf d) (hwf' : Wf (applyAll ws d))
    {ℓ : List Key} {ids : List ℕ} (hv : Valid ℓ ids d ws)
    (hk : DriverCommits t₀.id L payee d ws) :
    ∃ t', Driven t₀ es₀ L payee t' (applyAll ws d) ∧
      (Told L d t.currentStatus → Told L (applyAll ws d) t'.currentStatus) := by
  have hrow : ∀ {t₁ steps tail}, t₁.id = t₀.id → Moves d ws t₁ steps tail → t = t₁ :=
    fun hid hm => Option.some.inj (h.found.symm.trans (hid ▸ hm.found))
  cases hk with
  | stay hnil =>
    subst hnil
    exact ⟨t, h, id⟩
  | advance hid hm hnext hpayee =>
    obtain rfl := hrow hid hm
    obtain ⟨ho, hpast⟩ := onward_next h.mem hnext hpayee
    obtain ⟨t', h', hst⟩ := h.path hwf hwf' hv hm (.inl rfl) ho
    refine ⟨t', h', fun htold ev hev => ?_⟩
    rw [World.eventByKey, events_applyAll, hm.events, List.filterMap_nil, List.append_nil] at hev
    rw [hst]
    exact (htold ev hev).trans hpast.not
  | handle hid hr =>
    obtain rfl := hrow hid hr.moves
    obtain ⟨ho, hpast⟩ := @onward_settled payee _ _ _ h.mem hr.kind hr.moves.allowed
    obtain ⟨t', h', hst⟩ := h.path hwf hwf' hv hr.moves (.inr ⟨_, rfl⟩) ho
    refine ⟨t', h', fun _ ev hev => ?_⟩
    have hunseen := hr.unseen
    rw [World.eventByKey] at hunseen
    rw [World.eventByKey, events_applyAll, hr.moves.events, List.find?_append, hunseen] at hev
    obtain rfl : _ = ev := by simpa [Write.event, eventRow] using hev
    rw [hst, ← hpast, outcomeOf, JObj.get_insert, tooEarly, Option.some_inj, JVal.str.injEq]
    refine ⟨fun htext => by_contra fun ha => outcomeText_settled h.mem ha htext, fun ha => ?_⟩
    rw [ha]
    rfl

/-- The drivers are on their way. -/
def Ready (t₀ : TransferRow) (es₀ : List LedgerEntry) (L : SettlementLog) (payee : String)
    (d : World) : Prop := Wf d ∧ ∃ t, Driven t₀ es₀ L payee t d

theorem Driven.env (h : Driven t₀ es₀ L payee t d) {d' : World} (he : Env d d') :
    Driven t₀ es₀ L payee t d' := by cases he <;> exact { h with }

theorem Driven.bump (h : Driven t₀ es₀ L payee t d) : Driven t₀ es₀ L payee t (bump d) :=
  { h with }

theorem Ready.rely {ι : Type} {loc : Loc} {w : Option World} {d' : World}
    (h : Ready t₀ es₀ L payee d) (hr : (driverRules ι t₀.id L payee).Rely loc w d d') :
    Ready t₀ es₀ L payee d' := by
  refine hr.invariant h fun d d' h ho => ?_
  obtain ⟨hwf, t, ht⟩ := h
  cases ho with
  | bump => exact ⟨hwf.bump, t, ht.bump⟩
  | guar j ℓ ids _ _ hlt hg _ =>
    obtain ⟨ws, rfl, hv, hk⟩ := hg
    have hwf' := hwf.applyAll hv hlt
    obtain ⟨t', ht', -⟩ := ht.commit hwf hwf' hv hk
    exact ⟨hwf', t', ht'⟩
  | env he _ => exact ⟨he.wf hwf, t, ht.env he⟩

/-! ### The drivers keep the rules -/

section Spec

variable {ι : Type} {i : ι}

theorem grants_driverRules :
    Grants (driverRules ι t₀.id L payee) i (DriverCommits t₀.id L payee) :=
  fun _ _ _ ws hv hP => ⟨ws, rfl, hv, hP⟩

/-- A step of `advanceOnce` finds the funds. -/
theorem advance_spec {state : AppState} {actor : Option Uuid} {body : String} {loc : Loc}
    (hon : state.settlementOnchain = true) (h : Idle loc d) (hd : Ready t₀ es₀ L payee d) :
    wp (driverRules ι t₀.id L payee) i (fun _ _ _ => True) (fun _ _ _ => True)
      (Engine.advanceOnce state t₀.id actor body) loc d := by
  refine wp_mono (fun _ _ _ _ => trivial) (fun _ _ _ _ => trivial)
    (advanceOnce_spec_of framed_driverRules granted_noAssumption grants_driverRules h ?_)
  intro d₁ ws t steps hid hm hadv hchecked
  -- The row is the one on its way.
  have hrow : ∀ {d₂}, (driverRules ι t₀.id L payee).Rely loc none d d₂ →
      d₂.transfer t.id = some t → Driven t₀ es₀ L payee t d₂ := fun hr ht => by
    obtain ⟨-, t', h'⟩ := hd.rely hr
    rw [hid, h'.found] at ht
    cases ht
    exact h'
  obtain ⟨d₂, hr₂, ht₂⟩ := hchecked.found
  have hcore := (hrow hr₂ ht₂).core
  cases hadv with
  | stay hnil => exact .stay hnil
  | forward st hf hno =>
    refine .advance hid hm ?_ fun hc => ?_
    · refine Option.filter_eq_some_iff.2 ⟨hf, ?_⟩
      simpa [hon] using hno
    · obtain ⟨d₃, hr₃, hp⟩ := hchecked.payee st List.mem_cons_self hc
      obtain ⟨-, t', h'⟩ := hd.rely hr₃
      rw [hp, ← h'.payee]
      exact TransferRow.eq_of_core (payeeOf d₃) (fun _ => rfl) hcore
  | reject payee hs =>
    obtain ⟨d₃, hr₃, ht₃, hlow⟩ := hchecked.poor List.mem_cons_self
    have hfunds := (hrow hr₃ ht₃).funds hs
    rw [TransferRow.eq_of_core (fun t => d₃.funds t.customerId (.fiat t.sendCurrency))
      (fun _ => rfl) hcore, TransferRow.eq_of_core (·.sendAmountMinor) (fun _ => rfl) hcore] at hlow
    omega

/-- The log is the one in hand, and it is of the transfer. -/
theorem handles_log {cfg : ListenerConfig} :
    Handles (driverRules ι t₀.id L payee) i cfg fun logs d =>
      logs = [] ∨ logs = [L.log] ∧ Ready t₀ es₀ L payee d where
  stable _ _ _ _ _ _ _ hr _ h := h.imp_right fun h => ⟨h.1, h.2.rely hr⟩
  skip log logs d h _ := by
    obtain h | ⟨h, -⟩ := h
    · cases h
    · exact .inl (List.cons.inj h).2
  record logs event id txHash logIndex block hash d₀ d₁ d₂ d₃ target ws t steps hall _ ht₀ hid
      htarget hr := by
    obtain h | ⟨hlog, hd⟩ := (hall d₀ (by simp)).2
    · cases h
    obtain ⟨hlog, hlogs⟩ := List.cons.inj hlog
    simp only [logAt, SettlementLog.log, RpcLog.mk.injEq, Option.some.injEq] at hlog
    obtain ⟨rfl, rfl, rfl, rfl, rfl⟩ := hlog
    obtain ⟨t₁, ht₁, rfl, href⟩ := ht₀
    obtain ⟨-, t', h'⟩ := hd
    have hid₁ : t₁.id = t₀.id := h'.ref.2 t₁ ht₁ href
    obtain rfl : target = some .settled := htarget
    exact ⟨fun ℓ ids hv => ⟨ws, rfl, hv, .handle (hid.trans hid₁) hr⟩, .inl hlogs⟩

/-- A driver keeps the rules. -/
theorem wp_driver {driver : Driver} (hd : Ready t₀ es₀ L payee d)
    (hon : ∀ state actor body, driver = .advance state actor body →
      state.settlementOnchain = true) :
    Runs (driverRules ι t₀.id L payee) i (fun _ _ _ => True) (driver.prog t₀.id L)
      { label := default } d := by
  have h : Idle ({ label := default } : Loc) d := ⟨hd.1, ⟨rfl, by rintro c ⟨⟩⟩, rfl, rfl⟩
  cases driver with
  | advance state actor body =>
    exact wp_wrap.2 (wp_mono (fun _ _ _ _ _ _ => trivial) (fun _ _ _ _ _ _ => trivial)
      (advance_spec (hon state actor body rfl) h hd))
  | handle cfg =>
    exact wp_wrap.2 (wp_mono (fun _ _ _ _ _ _ => trivial) (fun _ _ _ _ _ _ => trivial)
      (handleAll_spec framed_driverRules handles_log h (.inr ⟨rfl, hd⟩)))

end Spec

/-! ### Every run -/

/-- A transfer at `AWAITING_FUNDS`, the money on its send account and its log not yet handled. -/
structure Waiting (t₀ : TransferRow) (L : SettlementLog) (d₀ : World) : Prop where
  wf : Wf d₀
  found : d₀.transfer t₀.id = some t₀
  awaiting : t₀.currentStatus = .awaitingFunds
  funds : t₀.sendAmountMinor ≤ d₀.funds t₀.customerId (.fiat t₀.sendCurrency)
  ref : d₀.HasRef L.ref t₀.id
  unseen : L.recorded d₀ = false

variable {ι : Type} [DecidableEq ι] {drivers : ι → Driver} {d₀ : World}

/-- **A confirmed settlement**: in every run, once the log is handled and no step is left to
`advanceOnce`, the log's row decides.  If it says that the log came too early, the transfer rests at
`SETTLING` with the entry of its funding; else it is `COMPLETED`, with the entries of the funding,
the conversion and the payout. -/
theorem settled_of_reach (hw : Waiting t₀ L d₀)
    (hon : ∀ i state actor body, drivers i = .advance state actor body →
      state.settlementOnchain = true)
    {s : Sys ι World Write Key Label Failure Answer}
    (hr : Reach (Step Env) (driving t₀.id L drivers d₀) s) {ev : SettlementEvent}
    (hev : s.shared.eventByKey L.txHash L.logIndex = some ev) {t : TransferRow}
    (ht : s.shared.transfer t₀.id = some t) (hrest : nextStep true t.currentStatus = none) :
    t.currentStatus = (if outcomeOf ev = tooEarly then .settling else .completed) ∧
      (s.shared.entriesOfTransfer t₀.id).map .strip = (d₀.entriesOfTransfer t₀.id).map .strip ++
        entriesAt t₀ (payeeOf d₀ t₀) t.currentStatus := by
  have h₀ : Driven t₀ ((d₀.entriesOfTransfer t₀.id).map .strip) L (payeeOf d₀ t₀) t₀ d₀ :=
    ⟨hw.found, rfl, by simp [hw.awaiting, onward], by simp [hw.awaiting, entriesAt],
      fun _ => hw.funds, hw.ref, rfl⟩
  have h := hr.invariant (I := fun s => Wf s.shared ∧ ∃ t,
      Driven t₀ ((d₀.entriesOfTransfer t₀.id).map .strip) L (payeeOf d₀ t₀) t s.shared ∧
      Told L s.shared t.currentStatus)
    ⟨hw.wf, t₀, h₀, fun ev h => ?_⟩ ?_
  · obtain ⟨-, t', h', htold⟩ := h
    cases h'.found.symm.trans ht
    refine ⟨?_, h'.entries⟩
    have hmem := h'.mem
    simp only [onward, List.mem_cons, List.not_mem_nil, or_false] at hmem
    rw [if_congr (htold ev hev) rfl rfl]
    -- Of the statuses ahead only two need no further step: `SETTLING` and `COMPLETED`.
    rcases hmem with hs | hs | hs | hs | hs | hs <;> rw [hs] at hrest ⊢ <;>
      first | rfl | cases hrest
  · exact absurd (hw.unseen.symm.trans (congrArg Option.isSome h)) (by simp)
  rintro s e s' hs ⟨hwf, t, h, htold⟩ hst
  have hok : SysOk (driverRules ι t₀.id L (payeeOf d₀ t₀)) (fun _ _ _ _ => True) s :=
    (SysOk.start fun i => wp_driver ⟨hw.wf, t₀, h₀⟩ (hon i)).reach framed_driverRules.seqMono
      (hs.mono fun _ _ _ h => ⟨h, fun _ _ => trivial⟩)
  have hm := hok.moved hst
  generalize s'.shared = d' at hm ⊢
  cases hm with
  | crash i => exact ⟨hwf, t, h, htold⟩
  | env d he => exact ⟨he.wf hwf, t, h.env he, by cases he <;> exact htold⟩
  | go i d hbelow hch =>
    rcases hch with rfl | rfl | ⟨ws, rfl, hv, hk⟩
    · exact ⟨hwf, t, h, htold⟩
    · exact ⟨hwf.bump, t, h.bump, htold⟩
    have hwf' := hwf.applyAll hv hbelow
    obtain ⟨t', h', hkeep⟩ := h.commit hwf hwf' hv hk
    exact ⟨hwf', t', h', hkeep htold⟩

/-- Money for a transfer, and the transfer. -/
def awaitingOps : Fin 2 → Op
  | 0 => .applyInbound (samplePayment "payment" 10000)
  | 1 => sampleCreate true "transfer" 3

/-- The log of its settlement. -/
def sampleLog : SettlementLog := ⟨103, 0, 0, 7, 0, 5, []⟩

/-- A listener, and steps of `advanceOnce`. -/
def sampleDrivers : Fin 4 → Driver
  | 0 => .handle ⟨9, 0, 0, 10⟩
  | _ => .advance (sampleState true) none "step"

theorem sampleDrivers_onchain (i : Fin 4) (state : AppState) (actor : Option Uuid) (body : String)
    (h : sampleDrivers i = .advance state actor body) : state.settlementOnchain = true := by
  fin_cases i <;> cases h <;> rfl

/-- From a waiting transfer, a schedule that ends in a state with some property. -/
theorem exists_waiting (turns : List (Fin 4 × ℕ))
    (P : Sys (Fin 4) World Write Key Label Failure Answer → Bool)
    (h : ((play [0, 1] (schedule [(0, 15), (1, 41)]) (system awaitingOps (sampleWorld "NG"))).any
      fun s => (s.shared.transfer 103).any (fun t => t.currentStatus = .awaitingFunds &&
          t.sendAmountMinor ≤ s.shared.funds t.customerId (.fiat t.sendCurrency)) &&
        s.shared.transfers.any (fun t => t.settlementRef = some 103) &&
        s.shared.transfers.all (fun t => t.settlementRef ≠ some 103 || t.id = 103) &&
        !sampleLog.recorded s.shared &&
        (play [0, 1, 2, 3] (schedule turns) (driving 103 sampleLog sampleDrivers s.shared)).any P) =
      true) :
    ∃ t₀ d₀ s, t₀.id = 103 ∧ Waiting t₀ sampleLog d₀ ∧
      Reach (Step Env) (driving t₀.id sampleLog sampleDrivers d₀) s ∧ P s = true := by
  obtain ⟨s₁, hr₁, h⟩ := exists_reach awaitingOps (sampleWorld "NG") [0, 1] [(0, 15), (1, 41)] _
    (by decide) h
  simp only [Bool.and_eq_true, Bool.not_eq_true'] at h
  obtain ⟨⟨⟨⟨ht, hany⟩, hall⟩, hunseen⟩, hrun⟩ := h
  obtain ⟨t₀, ht₀, hs⟩ := (Option.any_eq_true ..).1 ht
  simp only [Bool.and_eq_true, decide_eq_true_eq] at hs
  obtain ⟨s, hs₂, hP⟩ := (Option.any_eq_true ..).1 hrun
  have hid := (World.transfer_mem ht₀).2
  refine ⟨t₀, s₁.shared, s, hid, ⟨wf_of_reach (wf_sampleWorld "NG") hr₁, hid.symm ▸ ht₀, hs.1, hs.2,
    ⟨by simpa [sampleLog] using hany, fun t ht href => ?_⟩, hunseen⟩,
    reach_of_play (by decide) (env_schedule turns) (hid.symm ▸ hs₂), hP⟩
  have := List.all_eq_true.1 hall t ht
  rw [show t.settlementRef = some 103 from href] at this
  simpa [hid] using this

/-- A log handled before the money is debited is ignored for good: the transfer stays at
`SETTLING`. -/
theorem parked_of_early :
    ∃ t₀ d₀ s t, Waiting t₀ sampleLog d₀ ∧
      Reach (Step Env) (driving t₀.id sampleLog sampleDrivers d₀) s ∧
      sampleLog.recorded s.shared = true ∧ s.shared.transfer t₀.id = some t ∧
      nextStep true t.currentStatus = none ∧ t.currentStatus = .settling := by
  obtain ⟨t₀, d₀, s, hid, hw, hr, hP⟩ := exists_waiting [(0, 9), (1, 12), (2, 5), (3, 4)]
    (fun s => sampleLog.recorded s.shared &&
      (s.shared.transfer 103).any fun t => t.currentStatus = .settling) (by decide +kernel)
  simp only [Bool.and_eq_true] at hP
  obtain ⟨t, ht, hst⟩ := (Option.any_eq_true ..).1 hP.2
  rw [decide_eq_true_eq] at hst
  exact ⟨t₀, d₀, s, t, hw, hr, hP.1, hid.symm ▸ ht, hst ▸ rfl, hst⟩

/-- A log handled once the transfer is funded takes it to `COMPLETED`. -/
theorem settled_of_funded :
    ∃ t₀ d₀ s t, Reach (Step Env) (driving t₀.id sampleLog sampleDrivers d₀) s ∧
      s.shared.transfer t₀.id = some t ∧ t.currentStatus = .completed ∧
      (s.shared.entriesOfTransfer t₀.id).map .strip = (d₀.entriesOfTransfer t₀.id).map .strip ++
        entriesAt t₀ (payeeOf d₀ t₀) t.currentStatus := by
  obtain ⟨t₀, d₀, s, hid, hw, hr, hP⟩ := exists_waiting [(1, 12), (0, 20), (2, 5), (3, 11)]
    (fun s => (s.shared.eventByKey sampleLog.txHash sampleLog.logIndex).any
        (fun ev => outcomeOf ev ≠ tooEarly) &&
      (s.shared.transfer 103).any fun t => nextStep true t.currentStatus = none) (by decide +kernel)
  simp only [Bool.and_eq_true] at hP
  obtain ⟨ev, hev, hout⟩ := (Option.any_eq_true ..).1 hP.1
  obtain ⟨t, ht, hst⟩ := (Option.any_eq_true ..).1 hP.2
  rw [decide_eq_true_eq] at hout hst
  have h := settled_of_reach hw sampleDrivers_onchain hr hev (hid.symm ▸ ht) hst
  rw [if_neg hout] at h
  exact ⟨t₀, d₀, s, t, hr, hid.symm ▸ ht, h⟩

end Kimana
