import Kimana.Transfers.Path

/-!
# What the engine does under interference

The pieces of the engine's transactions, under a transfer's row lock.

* `lock_spec` : the row is the current one, the payload that of the snapshot.
* `apply_spec` : one transition; `walk_spec` : a path of transitions.
-/

namespace Kimana.Engine

open ReadCommitted Table TransferStatus Ledger

variable {ι : Type} {R : Rules ι World Key Label} {i : ι} {loc : Loc} {d : World}

/-- What others find of a transfer whose row is locked. -/
theorem Stands.agree {ℓ : List Key} {ids : List ℕ} {t : TransferRow} {s : TransferStatus}
    {v v' : World} (h : Stands t s v) (ha : Agree ℓ ids v v') (hk : .transfer t.id ∈ ℓ) :
    Stands t s v' :=
  h.of_eq (ha.transfer hk)

/-! ### The row lock -/

/-- A transfer that was there still is. -/
theorem transfer_isSome_ext {d d' : World} (h : Ext d d') {id : Uuid} {t : TransferRow}
    (ht : d.transfer id = some t) : ∃ t', d'.transfer id = some t' := by
  obtain ⟨hm, hid⟩ := World.transfer_mem ht
  obtain ⟨t', hm', hc⟩ := h.transfers t hm
  cases hf : d'.transfer id with
  | some t' => exact ⟨t', rfl⟩
  | none =>
    have := ne_of_find?_eq_none hf t' hm'
    simp [TransferRow.id_of_core hc, hid] at this

/-- What a transaction knows once it has locked a transfer's row: the row is the current one,
and the payload is that of a snapshot taken before the wait. -/
structure Locked (R : Rules ι World Key Label) (id : Uuid) (loc : Loc) (d : World)
    (t : LockedTransfer) (loc' : Loc) (d' : World) : Prop where
  ran : Ran R loc d loc' d' []
  key : .transfer id ∈ loc'.locks
  rowId : t.row.id = id
  row : (view loc' d').transfer id = some t.row
  payload : ∃ d₁, R.Rely loc none d d₁ ∧
    R.Rely (loc.at' (loc.label.withLocking (some id))) (some (view loc d₁)) d₁ d' ∧
    t.latestPayload = (view loc d₁).latestPayload id

/-- A transaction that locks a transfer's row fails only when there is no such transfer. -/
theorem lock_spec (hR : Framed R) (h : InTx loc d) (id : Uuid) :
    wp R i (Locked R id loc d)
      (fun e loc' d' => Failed loc loc' d' ∧ e.code = .notFound ∧
        ∃ d₁, R.Rely loc none d d₁ ∧ (view loc d₁).transfer id = none)
      (lock id) loc d := by
  have hl : (loc.label.withLocking (some id)).withLocking none = loc.label :=
    h.calm.withLocking
  have hst : ∀ d, R.stand (loc.label.withLocking (some id)) d :=
    fun d => hR.stand _ _ (.inr ⟨id, rfl⟩)
  intro d₁ hr₁
  have hr₁' : R.Rely loc none d d₁ := hR.unwait hr₁ rfl rfl hl
  refine ⟨hst d₁, fun d₂ hr₂ => ⟨hst d₂, ?_⟩⟩
  have hr₂' : R.Rely loc none d₁ d₂ := hR.unwait hr₂ rfl rfl hl
  have h₁ := h.rely hR hr₁'
  have hran : Ran R loc d (loc.hold (.transfer id)) d₂ [] :=
    { start := h
      inTx := (h₁.rely hR hr₂').lock (.transfer id)
      pending := (List.append_nil _).symm
      locks := fun _ hk => List.mem_cons_of_mem _ hk
      ids := fun _ hn => hn
      label := rfl
      made := rfl
      rely := hr₁'.trans hr₂' }
  have hloc : ((loc.at' (loc.label.withLocking (some id))).hold (.transfer id)).at'
      (((loc.at' (loc.label.withLocking (some id))).hold (.transfer id)).label.withLocking none) =
        loc.hold (.transfer id) := congrArg _ hl
  refine wp_mark.2 ?_
  simp only [hloc, Local.at'_pending, Prog.bind]
  cases hseen : (applyAll loc.pending d₁).transfer id with
  | none => exact ⟨hran.failed, rfl, d₁, hr₁', hseen⟩
  | some seen =>
    obtain ⟨row, hrow⟩ := transfer_isSome_ext (h₁.agree_view hR hr₂').ext hseen
    obtain ⟨r, hr, hid⟩ := h₁.view_wf.recipients _ (World.transfer_mem hseen).1
    simp only [show (applyAll loc.pending d₂).transfer id = some row from hrow]
    split
    case h_1 =>
      exact ⟨hran, List.mem_cons_self, (World.transfer_mem hrow).2, hrow, d₁, hr₁', hr₂, rfl⟩
    case h_2 hf => simpa [hid] using ne_of_find?_eq_none hf r hr

/-! ### Postings -/

/-- One posting of a transfer. -/
theorem postLeg_spec (hR : Framed R) (h : InTx loc d) {conn : Conn} {t : LockedTransfer}
    (currency : CurrencyCode) (amount : ℤ) {describe : Tx String} {what : World → String → Prop}
    (reversal : Option Uuid) (ho : (view loc d).Owner (.transfer t.row.id) t.row.customerId)
    (hd : ∀ loc d, InTx loc d → wp R i (fun s loc' d' => Ran R loc d loc' d' [] ∧
      ∃ w, what d' w ∧ s = entryText t.row w) (fun _ _ _ => False) describe loc d) :
    wp R i (fun _ loc' d' => ∃ ws w d₁, Ran R loc d loc' d' ws ∧ R.Rely loc none d d₁ ∧ what d₁ w ∧
        brief ws = [.insertEntry (entryOf t.row currency amount w)])
      (GaveUp R loc (Overflown R t.row.customerId (.fiat currency) [] loc d))
      (postLeg conn t currency amount describe reversal) loc d := by
  simp only [postLeg, Prog.bind_eq, postLedgerEntry]
  refine wp_bind_of (getOrCreateAccount_spec hR h _ _) (fun _ _ _ he => he.gaveUp) ?_
  rintro acct loc₁ d₁ ⟨ws₁, h₁, hb₁, hacct⟩
  refine wp_bind_of (hd loc₁ d₁ h₁.inTx) (fun _ _ _ he => he.elim) ?_
  rintro text loc₂ d₂ ⟨h₂, w, hw, rfl⟩
  have h₁₂ := h₁.trans h₂
  have hnone : (brief (ws₁ ++ [])).filterMap Write.entry = [] := by
    rw [List.append_nil, hb₁, List.filterMap_nil]
  refine wp_mono ?_ (fun _ _ _ he => he.trans h₁₂ fun ho => ho.after h₁₂ hnone)
    (appendEntry_spec hR h₂.inTx ((h₂.ext_view hR).accounts _ hacct) (ho.ext (h₁₂.ext_view hR)))
  rintro r loc₃ d₃ ⟨e, h₃, he, -, -, -⟩
  refine ⟨_, w, d₂, h₁₂.trans h₃, h₁₂.rely, hw, ?_⟩
  simp [hb₁, he, entryOf]

/-- A description that reads nothing. -/
theorem wp_pure_text (t : TransferRow) (w : String) (loc : Loc) (d : World) (h : InTx loc d) :
    wp R i (fun s loc' d' => Ran R loc d loc' d' [] ∧ ∃ w', w' = w ∧ s = entryText t w')
      (fun _ _ _ => False) (pure (entryText t w) : Tx String) loc d :=
  ⟨.refl h, w, rfl, rfl⟩

/-- The description of a payout. -/
theorem wp_payout_text (hR : Framed R) (t : TransferRow) (loc : Loc) (d : World)
    (h : InTx loc d) :
    wp R i (fun s loc' d' => Ran R loc d loc' d' [] ∧
        ∃ w, w = "paid to " ++ payeeOf d' t ∧ s = entryText t w) (fun _ _ _ => False)
      (do return entryText t ("paid to " ++ (← beneficiary t)) : Tx String) loc d := by
  simp only [beneficiary, Prog.bind_eq, Tx.read, Prog.pure_eq, Prog.bind]
  refine (Ran.refl h).wp_read hR fun d₁ _ h₁ => ?_
  have hr : (view loc d₁).recipients = d₁.recipients := recipients_applyAll _ _
  split
  case h_1 r hf => exact ⟨h₁, _, rfl, by rw [payeeOf, ← hr, hf]; rfl⟩
  case h_2 hf => exact ⟨h₁, _, rfl, by rw [payeeOf, ← hr, hf]; rfl⟩

/-- The name a payout is described with is the one found in some state that others led to. -/
def Payee (R : Rules ι World Key Label) (loc : Loc) (d : World) (t : TransferRow)
    (target : TransferStatus) (payee : String) : Prop :=
  target = .completed → ∃ d₁, R.Rely loc none d d₁ ∧ payee = payeeOf d₁ t

theorem Payee.trans {loc₁ : Loc} {d₁ : World} {ws : List Write} {t : TransferRow}
    {target : TransferStatus} {payee : String} (h : Payee R loc₁ d₁ t target payee)
    (hr : Ran R loc d loc₁ d₁ ws) : Payee R loc d t target payee := fun ht => by
  obtain ⟨d₂, hr₂, hp⟩ := h ht
  exact ⟨d₂, hr.rely.trans (hr₂.weaken hr.locks hr.ids fun _ _ hc => hr.label ▸ hc), hp⟩

/-- A transition posts an entry in a currency whose balance 64 bits do not hold. -/
def LegOverflown (R : Rules ι World Key Label) (t : TransferRow) (source target : TransferStatus)
    (loc : Loc) (d : World) (loc' : Loc) (d' : World) : Prop :=
  ∃ payee e, legFor t payee source target = [e] ∧
    Overflown R t.customerId e.currency [] loc d loc' d'

theorem LegOverflown.after {t : TransferRow} {source target : TransferStatus} {loc₁ loc' : Loc}
    {d₁ d' : World} {ws : List Write} (h : LegOverflown R t source target loc₁ d₁ loc' d')
    (hr : Ran R loc d loc₁ d₁ ws) (hes : (brief ws).filterMap Write.entry = []) :
    LegOverflown R t source target loc d loc' d' := by
  obtain ⟨payee, e, hleg, ho⟩ := h
  exact ⟨payee, e, hleg, ho.after hr hes⟩

/-- What a transition posts. -/
theorem postLedgerFor_spec (hR : Framed R) (h : InTx loc d) {conn : Conn} {t : LockedTransfer}
    {source target : TransferStatus}
    (ho : (view loc d).Owner (.transfer t.row.id) t.row.customerId) :
    wp R i (fun _ loc' d' => ∃ ws payee, Ran R loc d loc' d' ws ∧
        brief ws = (legFor t.row payee source target).map .insertEntry ∧
        Payee R loc d t.row target payee)
      (GaveUp R loc (LegOverflown R t.row source target loc d))
      (postLedgerFor conn t source target) loc d := by
  have hnone : target ≠ .completed → wp R i (fun (_ : Unit) loc' d' => ∃ ws payee,
      Ran R loc d loc' d' ws ∧ brief ws = [] ∧ Payee R loc d t.row target payee)
      (GaveUp R loc (LegOverflown R t.row source target loc d)) (.ret ()) loc d :=
    fun hne => ⟨[], "", .refl h, rfl, fun he => absurd he hne⟩
  cases target <;> try exact hnone (by simp)
  case funded | settled =>
    refine wp_bind_of (postLeg_spec hR h _ _ none ho (wp_pure_text t.row _))
      (fun _ _ _ he => he.imp fun ho => ⟨"", _, rfl, ho⟩) ?_
    rintro _ loc₁ d₁ ⟨ws, w, -, h₁, -, rfl, hb⟩
    exact ⟨ws, "", h₁, hb, by simp [Payee]⟩
  case completed =>
    refine wp_bind_of (postLeg_spec hR h _ _ none ho (wp_payout_text hR t.row))
      (fun _ _ _ he => he.imp fun ho => ⟨"", _, rfl, ho⟩) ?_
    rintro _ loc₁ d₁ ⟨ws, w, d₂, h₁, hr₂, rfl, hb⟩
    exact ⟨ws, _, h₁, hb, fun _ => ⟨d₂, hr₂, rfl⟩⟩
  case reversing =>
    cases source <;> try exact hnone (by simp)
    all_goals
      refine wp_bind_of (postLeg_spec hR h _ _ none ho (wp_pure_text t.row _))
        (fun _ _ _ he => he.imp fun ho => ⟨"", _, rfl, ho⟩) ?_
      rintro _ loc₁ d₁ ⟨ws, w, -, h₁, -, rfl, hb⟩
      exact ⟨ws, "", h₁, hb, by simp [Payee]⟩

/-! ### Transitions -/

/-- One transition, under the transfer's row lock: refused when it is not allowed. -/
theorem apply_spec (hR : Framed R) (h : InTx loc d) {conn : Conn} {t : LockedTransfer}
    {actor : Option Uuid} {source target : TransferStatus} {payload : Option JObj}
    (hk : .transfer t.row.id ∈ loc.locks) (hs : Stands t.row source (view loc d)) :
    wp R i (fun _ loc' d' => ∃ ws payee, Ran R loc d loc' d' ws ∧ target ∈ source.allowed ∧
        brief ws = transitionBrief t.row source ⟨target, payload, payee⟩ ∧
        Stands t.row target (view loc' d') ∧ Payee R loc d t.row target payee)
      (fun e loc' d' => (Failed loc loc' d' ∧ target ∉ source.allowed ∧ e.code = .conflict) ∨
        GaveUp R loc (LegOverflown R t.row source target loc d) e loc' d')
      (apply conn t actor source target payload) loc d := by
  by_cases hall : target ∈ source.allowed
  case neg =>
    simp only [apply, assertTransition, if_neg hall]
    exact .inl ⟨(Ran.refl (R := R) h).failed, hall, rfl⟩
  simp only [apply, assertTransition, if_pos hall, Repo.appendHistory, Repo.setStatus,
    Prog.bind_eq, Tx.read, Tx.write, Prog.bind]
  refine (Ran.refl h).wp_read hR fun d₁ hr₁ h₁ => ?_
  have hs₁ := hs.agree (h.agree_view hR hr₁) hk
  -- The history row goes to the next position: nobody else appends under the lock.
  obtain ⟨row, hrow, hcore, rfl⟩ := hs₁
  refine h₁.wp_write (w := .insertHistory _) ⟨by simpa [Write.keys] using hk,
    ⟨⟨row, hrow⟩, rfl⟩, by simp [Write.publishes]⟩ fun h₂ => ?_
  refine h₂.wp_write (w := .setStatus _ _ _) ⟨by simpa [Write.keys] using hk,
    ⟨row, (view_wrote ..).symm ▸ hrow, hall⟩, by simp [Write.publishes]⟩ fun h₃ => ?_
  have hs₃ := (Stands.applyAll ⟨row, hrow, hcore, rfl⟩ _).of_eq
    (congrArg (·.transfer t.row.id) h₃.view_eq.symm)
  refine wp_bind_of (postLedgerFor_spec hR h₃.inTx hs₃.owner)
    (fun _ _ _ he => .inr (he.trans h₃ fun ho => ho.after h₃ rfl)) ?_
  rintro _ loc₄ d₄ ⟨ws, payee, h₄, hb, hpayee⟩
  refine (Ran.refl h₄.inTx).wp_write (w := .insertAudit _)
    ⟨by simp [Write.keys], trivial, by simp [Write.publishes]⟩ fun h₅ => ?_
  have hs₄ := (hs₃.agree (h₄.agree_view hR) (h₃.locks _ hk)).applyAll ws
  rw [← h₄.view_eq, ← statusIn_brief, hb, statusIn_entries] at hs₄
  replace hs₄ : Stands t.row target (view loc₄ d₄) := by
    simpa [statusIn, Write.statusOf] using hs₄
  refine ⟨_, payee, (h₃.trans h₄).trans h₅, hall, ?_, ?_, hpayee.trans h₃⟩
  · simp [hb, brief_changeAudit, transitionBrief, historyFor, HistoryRow.strip, auditFor]
  · rw [view_wrote]
    exact hs₄.of_eq rfl

/-- The compensating entry of a reversal. -/
theorem postSendRefund_spec (hR : Framed R) (h : InTx loc d) {conn : Conn} {t : LockedTransfer}
    (ho : (view loc d).Owner (.transfer t.row.id) t.row.customerId) :
    wp R i (fun _ loc' d' => ∃ ws, Ran R loc d loc' d' ws ∧
        brief ws = (refundFor t.row .reversed).map .insertEntry)
      (GaveUp R loc (Overflown R t.row.customerId (.fiat t.row.sendCurrency) [] loc d))
      (postSendRefund conn t) loc d := by
  simp only [postSendRefund, Prog.bind_eq, Tx.read, Prog.bind]
  refine (Ran.refl h).wp_read hR fun d₁ hr₁ h₁ => ?_
  refine wp_bind_of (postLeg_spec hR h₁.inTx _ _ _ (ho.ext (h₁.ext_view hR))
    (wp_pure_text t.row _)) (fun _ _ _ he => he.trans h₁ fun ho => ho.after h₁ rfl) ?_
  rintro _ loc₂ d₂ ⟨ws, w, -, h₂, -, rfl, hb⟩
  exact ⟨ws, h₁.trans h₂, hb⟩

/-- What the listener keeps with each step of a path: the event, and for `REVERSED` the refund. -/
def Recorded (payload : JObj) (st : PathStep) : Prop :=
  if st.target = .reversed then
    ∃ n, st.payload = some (payload.insert "reversalLedgerEntryId" (.id n))
  else st.payload = some payload

theorem Recorded.plain {payload : JObj} {st : PathStep} (h : Recorded payload st)
    (hp : payload.get "status" = none) : st.Plain := by
  intro p hst
  simp only [Recorded] at h
  split at h
  · obtain ⟨n, h⟩ := h
    rw [h] at hst
    cases hst
    rw [JObj.get_insert_of_ne (by decide), hp]
  · rw [h] at hst
    cases hst
    exact hp

/-- A path posts an entry, after `es`, in a currency whose balance 64 bits do not hold. -/
def PathOverflown (R : Rules ι World Key Label) (t : TransferRow) (source : TransferStatus)
    (path : List TransferStatus) (loc : Loc) (d : World) (loc' : Loc) (d' : World) : Prop :=
  ∃ steps es e, steps.map (·.target) = path ∧ es ++ [e] <+: pathEntries t source steps ∧
    Overflown R t.customerId e.currency es loc d loc' d'

/-- A transition that can not be posted stops the path that it begins. -/
theorem LegOverflown.path {t : TransferRow} {source target : TransferStatus}
    {path : List TransferStatus} {loc loc₁ loc' : Loc} {d d₁ d' : World} {ws : List Write}
    (h : LegOverflown R t source target loc₁ d₁ loc' d') (hr : Ran R loc d loc₁ d₁ ws)
    (hes : (brief ws).filterMap Write.entry = refundFor t target) :
    PathOverflown R t source (target :: path) loc d loc' d' := by
  obtain ⟨payee, e, hleg, ho⟩ := h
  refine ⟨⟨target, none, payee⟩ :: path.map fun s => ⟨s, none, ""⟩, refundFor t target ++ [], e,
    by simp [Function.comp_def], ?_, ho.trans hr hes⟩
  rw [pathEntries, hleg, List.append_nil]
  exact (List.prefix_append_right_inj _).2 (List.prefix_append [e] _)

/-- So does a refund that can not be posted. -/
theorem PathOverflown.refund {t : TransferRow} {path : List TransferStatus} {loc' : Loc}
    {d' : World} (h : Overflown R t.customerId (.fiat t.sendCurrency) [] loc d loc' d')
    (source : TransferStatus) : PathOverflown R t source (.reversed :: path) loc d loc' d' := by
  refine ⟨⟨.reversed, none, ""⟩ :: path.map fun s => ⟨s, none, ""⟩, [],
    entryOf t t.sendCurrency t.sendAmountMinor "reversed", by simp [Function.comp_def], ?_, h⟩
  rw [pathEntries, refundFor, if_pos rfl]
  exact List.prefix_append _ _

/-- So does a later transition. -/
theorem PathOverflown.cons {t : TransferRow} {source target : TransferStatus}
    {path : List TransferStatus} {loc loc₁ loc' : Loc} {d d₁ d' : World} {ws : List Write}
    (h : PathOverflown R t target path loc₁ d₁ loc' d') (payee : String)
    (hr : Ran R loc d loc₁ d₁ ws)
    (hes : (brief ws).filterMap Write.entry =
      refundFor t target ++ legFor t payee source target) :
    PathOverflown R t source (target :: path) loc d loc' d' := by
  obtain ⟨steps, es, e, rfl, hpre, ho⟩ := h
  refine ⟨⟨target, none, payee⟩ :: steps, _, e, rfl, ?_, ho.trans hr hes⟩
  rw [pathEntries, ← List.append_assoc, List.append_assoc _ es]
  exact (List.prefix_append_right_inj _).2 hpre

/-- A path whose steps are transitions is walked to its end. -/
theorem walk_spec (hR : Framed R) {conn : Conn} {t : LockedTransfer} {payload : JObj}
    {path : List TransferStatus} {source : TransferStatus} {loc : Loc} {d : World}
    (h : InTx loc d) (hpath : pathAllowed source path = true)
    (hk : .transfer t.row.id ∈ loc.locks) (hs : Stands t.row source (view loc d)) :
    wp R i (fun s loc' d' => ∃ ws steps, Ran R loc d loc' d' ws ∧
        steps.map (·.target) = path ∧ (∀ st ∈ steps, Recorded payload st) ∧
        brief ws = pathBrief t.row source steps ∧ s = pathEnd source steps)
      (GaveUp R loc (PathOverflown R t.row source path loc d))
      (walk conn t payload source path) loc d := by
  induction path generalizing source loc d with
  | nil => exact ⟨[], [], .refl h, rfl, by simp, rfl, rfl⟩
  | cons target path ih =>
    simp only [pathAllowed, Bool.and_eq_true, decide_eq_true_eq] at hpath
    obtain ⟨hall, hpath⟩ := hpath
    simp only [walk]
    split
    case isTrue hrev =>
      subst hrev
      refine wp_bind_of (postSendRefund_spec hR h hs.owner)
        (fun _ _ _ he => he.imp fun ho => PathOverflown.refund ho source) ?_
      rintro n loc₁ d₁ ⟨ws₁, h₁, hb₁⟩
      -- The refund posts an entry only: the transfer still stands where it stood.
      have hs₁ := (hs.agree (h₁.agree_view hR) hk).applyAll ws₁
      rw [← h₁.view_eq, ← statusIn_brief, hb₁, statusIn_entries] at hs₁
      refine wp_bind_of (apply_spec hR h₁.inTx (h₁.locks _ hk) hs₁) ?_ ?_
      · rintro e loc₂ d₂ (⟨-, hno, -⟩ | he)
        · exact absurd hall hno
        · exact he.trans h₁ fun ho => ho.path h₁ (by rw [hb₁, filterMap_entry_map])
      rintro _ loc₂ d₂ ⟨ws₂, payee, h₂, -, hb₂, hs₂, -⟩
      have h₁₂ := h₁.trans h₂
      refine wp_mono ?_ (fun _ _ _ he => he.trans h₁₂ fun ho => ho.cons payee h₁₂ ?_)
        (ih h₂.inTx hpath (h₁₂.locks _ hk) hs₂)
      rotate_left
      · rw [brief_append, hb₁, hb₂, List.filterMap_append, filterMap_entry_map,
          entry_transitionBrief]
      rintro s loc₃ d₃ ⟨ws₃, steps, h₃, rfl, hrec, hb₃, rfl⟩
      refine ⟨_, ⟨.reversed, some (payload.insert "reversalLedgerEntryId" (.id n)), payee⟩ :: steps,
        h₁₂.trans h₃, rfl, ?_, ?_, rfl⟩
      · exact List.forall_mem_cons.2 ⟨⟨n, rfl⟩, hrec⟩
      · simp [hb₁, hb₂, hb₃, pathBrief]
    case isFalse hrev =>
      refine wp_bind_of (apply_spec hR h hk hs) ?_ ?_
      · rintro e loc₂ d₂ (⟨-, hno, -⟩ | he)
        · exact absurd hall hno
        · exact he.imp fun ho => ho.path (.refl h) (by simp [refundFor, hrev])
      rintro _ loc₂ d₂ ⟨ws₂, payee, h₂, -, hb₂, hs₂, -⟩
      refine wp_mono ?_ (fun _ _ _ he => he.trans h₂ fun ho => ho.cons payee h₂ ?_)
        (ih h₂.inTx hpath (h₂.locks _ hk) hs₂)
      rotate_left
      · -- A step that is no reversal posts its leg only.
        rw [hb₂, entry_transitionBrief]
        simp [refundFor, hrev]
      rintro s loc₃ d₃ ⟨ws₃, steps, h₃, rfl, hrec, hb₃, rfl⟩
      refine ⟨_, ⟨target, some payload, payee⟩ :: steps, h₂.trans h₃, rfl, ?_, ?_, rfl⟩
      · exact List.forall_mem_cons.2 ⟨by simp [Recorded, hrev], hrec⟩
      · simp [hb₂, hb₃, pathBrief, refundFor, hrev]

end Kimana.Engine
