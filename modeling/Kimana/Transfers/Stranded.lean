import Kimana.ReadCommitted.Point
import Kimana.Transfers.Claim
import Kimana.Transfers.Drive

/-!
# Transfers left where they were created

A transfer is committed before its drive begins, and a later call with the same key returns the
stored row without driving it.  So a call that fails in between strands its transfer.

* `Opens` : the first change of a call of `createTransfer` is the creation, and what is left then
  drives the new transfer.
* `Phase.step` : **one step**: the call that created the key's transfer is the only one that changes
  anything.
* `driven_of_reach` : **driven on**, in every run in which no call fails between its commit of the
  creation and the end of the drive.
-/

namespace Kimana.Service

open ReadCommitted Table TransferStatus Engine

variable {ι : Type} {i : ι} {loc loc' : Loc} {d d' : World} {c : Uuid} {key : String}

/-- The transfer of a customer and a key, if there is one, is driven. -/
def KeyDriven (c : Uuid) (key : String) (d : World) : Prop :=
  ∀ id ∈ keyed d c key, AtRest d id

instance (c : Uuid) (key : String) (d : World) : Decidable (KeyDriven c key d) := by
  unfold KeyDriven
  infer_instance

theorem keyed_of_sameRows (h : SameRows d d') : keyed d' c key = keyed d c key := by
  unfold keyed World.transferByKey
  rw [h.transfers]

theorem KeyDriven.of_sameRows (h : KeyDriven c key d) (hs : SameRows d d') :
    KeyDriven c key d' := by
  intro id hid
  rw [keyed_of_sameRows hs] at hid
  exact (h id hid).of_sameRows hs

/-! ### The first change of a call -/

/-- The writes of a creation: the row of the key's transfer comes first, and the rest leaves its
status alone. -/
structure Opening (c : Uuid) (key : String) (row : TransferRow) (ws : List Write) : Prop where
  customer : row.customerId = c
  key : row.idempotencyKey = key
  status : row.currentStatus = .created
  rest : ∀ w ∈ ws, ∀ id s now, w ≠ .setStatus id s now

/-- Where a call stands that has changed nothing: its next change is a creation, and `X` holds of
what is left of it then. -/
def Opens {E A : Type} (c : Uuid) (key : String)
    (X : Prog World Write Key Label E A → Loc → World → Prop) :
    Prog World Write Key Label E A → Loc → Prop
  | .commit q, loc => loc.made = [] → loc.label.Calm ∧ ∃ row ws,
      loc.pending = .insertTransfer row :: ws ∧ Opening c key row ws ∧
      ∀ loc' d', Idle loc' d' → keyed d' c key = some row.id → d'.status row.id = some .created →
        X q loc' d'
  | .atomic _ _, loc => loc.made ≠ []
  | .fresh _, _ | .query _, _ | .read _, _ | .lock _ _, _ | .rollback _, _ => True
  | .ret _, _ | .fail _, _ | .write _ _, _ | .mark _ _, _ => False

section Points

variable {E E' A B : Type} {S : World → Prop}

theorem Opens.bind {X : Prog World Write Key Label E A → Loc → World → Prop}
    {p : Prog World Write Key Label E B} {g : B → Prog World Write Key Label E A}
    (h : Opens c key (fun q => X (q.bind g)) p loc) : Opens c key X (p.bind g) loc := by
  cases p with
  | ret | fail | write | mark => exact h.elim
  | _ => exact h

theorem Opens.mapError {X : Prog World Write Key Label E' A → Loc → World → Prop} {f : E → E'}
    {p : Prog World Write Key Label E A} (h : Opens c key (fun q => X (q.mapError f)) p loc) :
    Opens c key X (p.mapError f) loc := by
  cases p <;> exact h

theorem opens_of_looks {X : Prog World Write Key Label E A → Loc → World → Prop}
    {p : Prog World Write Key Label E A} (h : p.Looks) : Opens c key X p loc := by
  cases p <;> trivial

/-- A call that has changed something may do anything. -/
theorem opens_of_made {X : Prog World Write Key Label E A → Loc → World → Prop}
    {p : Prog World Write Key Label E A} (h : loc.made ≠ []) :
    p.Points S (Opens c key X) (fun _ _ => True) loc := by
  induction p generalizing loc with
  | ret a => trivial
  | fail e => trivial
  | write w p ih => exact @ih (loc.wrote w) h
  | mark l p ih => exact @ih (loc.at' (l loc.label)) h
  | fresh f ih => exact ⟨trivial, fun n => @ih n (loc.draw n) h⟩
  | query f ih => exact ⟨trivial, fun d _ => ih d h⟩
  | read f ih => exact ⟨trivial, fun d _ => ih _ h⟩
  | lock k f ih => exact ⟨trivial, fun d d' _ _ => @ih _ _ (loc.hold k) h⟩
  | rollback p ih => exact ⟨trivial, @ih loc.ended h⟩
  | atomic u f ih => exact ⟨h, fun d _ => ih d (by simp)⟩
  | commit p ih => exact ⟨fun hn => absurd hn h, fun d _ => ih (by simp)⟩

/-- A call that has begun nothing. -/
structure Unopened (loc : Loc) : Prop where
  calm : loc.label.Calm
  pending : loc.pending = []
  made : loc.made = []

/-- A piece that writes nothing leaves nothing begun. -/
theorem points_piece {X : Prog World Write Key Label E A → Loc → World → Prop}
    {p : Prog World Write Key Label E B} {g : B → Prog World Write Key Label E A}
    {Q : Except E A → Loc → Prop} (hp : p.Adds fun _ => False) (h : Unopened loc)
    (hg : ∀ b loc', Unopened loc' → (g b).Points S (Opens c key X) Q loc')
    (herr : ∀ e loc', Q (.error e) loc') : (p.bind g).Points S (Opens c key X) Q loc := by
  refine points_bind_of (points_of_adds hp (.refl loc)) (fun _ _ hk => opens_of_looks hk.2.bind)
    (fun b loc' ha => hg b loc' ?_) fun e loc' _ => herr e loc'
  obtain ⟨ws, hws, hno⟩ := ha.pending
  refine ⟨ha.label ▸ h.calm, ?_, ha.made.trans h.made⟩
  rw [hws, h.pending, List.eq_nil_iff_forall_not_mem.2 hno]
  rfl

end Points

/-- A write that leaves statuses alone. -/
def KeepsStatus (w : Write) : Prop := ∀ id s now, w ≠ .setStatus id s now

section Creation

variable {S : World → Prop} {X : Tx Transfer → Loc → World → Prop}

theorem adds_tryConsume {V : Write → Prop} (h : ∀ q t, V (.consumeQuote q t)) (quoteId id : Uuid) :
    (Quote.tryConsume quoteId id).Adds V := by
  intro d d'
  dsimp only
  split
  · split
    · exact ⟨h _ _, trivial⟩
    · trivial
  · trivial

theorem adds_setSettlementRef {V : Write → Prop} (h : ∀ t ref, V (.setSettlementRef t ref))
    (state : AppState) (id : Uuid) : (Repo.setSettlementRef state id).Adds V := by
  intro d d' d''
  simp only [Prog.bind]
  split
  · trivial
  · exact ⟨h _ _, trivial⟩

theorem adds_appendHistory {V : Write → Prop} (h : ∀ row, V (.insertHistory row)) (id : Uuid)
    (s : TransferStatus) (payload : Option JObj) (note : Option String) :
    (Repo.appendHistory id s payload note).Adds V :=
  fun _ => ⟨h _, trivial⟩

theorem adds_checkExposureLimits (state : AppState) (limits : Ledger.CustomerLimits)
    (quote : FirmQuote) : (checkExposureLimits state c limits quote).Adds fun _ => False := by
  unfold checkExposureLimits
  dsimp only
  split
  · trivial
  · refine .bind (fun d => Ledger.adds_toBigint _) fun existing => ?_
    split <;> trivial

theorem adds_lockCustomerLimits : (Ledger.lockCustomerLimits c).Adds fun _ => False := by
  intro d d'
  dsimp only
  split <;> trivial

/-- What is left after the creation drives the transfer it created. -/
def Onward (c : Uuid) (key : String) (X : Tx (Except Transfer Uuid) → Loc → World → Prop) : Prop :=
  ∀ id loc d, Idle loc d → keyed d c key = some id → d.status id = some .created →
    X (.ret (.ok id)) loc d

/-- An insert leaves the row of the key's transfer to be committed, or nothing. -/
theorem points_insert {conn : Conn} {input : Repo.InsertTransfer} (h : Unopened loc)
    (hs : input.initialStatus = .created) :
    (Repo.insert conn input).Points S (fun p _ => p.Looks)
      (fun r loc' => r = .ok none ∨ ∃ row, r = .ok (some row.id) ∧
        Opening input.customerId input.idempotencyKey row [] ∧ loc'.label = loc.label ∧
        loc'.made = loc.made ∧ loc'.pending = [.insertTransfer row]) loc := by
  simp only [Repo.insert, Prog.bind_eq, Prog.pure_eq, Prog.bind, Tx.fresh, Tx.lock, Tx.read,
    Tx.write]
  refine ⟨trivial, fun id => ⟨trivial, fun _ _ _ _ => ⟨trivial, fun _ _ _ _ => ⟨trivial,
    fun _ _ _ _ => ⟨trivial, fun d _ => ?_⟩⟩⟩⟩⟩
  dsimp only
  split
  case isTrue => exact .inl rfl
  case isFalse =>
    refine .inr ⟨input.row id conn.now, rfl, ⟨rfl, rfl, hs, by simp⟩, rfl, rfl, ?_⟩
    rw [Local.wrote_pending]
    exact congrArg (· ++ _) h.pending

/-- The inserts of a creation change nothing but by its commit. -/
theorem points_insertTransfer {X : Tx (Except Transfer Uuid) → Loc → World → Prop}
    {session : Session} {input : CreateTransferInput} {state : AppState} {conn : Conn}
    {quote : Quote.StoredQuote} {recipientId : Uuid} {body : String}
    (hX : Onward session.customerId input.idempotencyKey X) (h : Unopened loc) :
    (insertTransfer state conn session input quote recipientId body).Points S
      (Opens session.customerId input.idempotencyKey X)
      (fun r loc' => ∀ id, r = .ok (.ok id) → loc'.made ≠ []) loc := by
  simp only [insertTransfer, Prog.bind_eq, Prog.pure_eq, Tx.rollback, Tx.write, Tx.commit,
    Prog.bind]
  refine points_bind_of (points_insert h rfl) (fun _ _ hk => opens_of_looks hk.bind) ?_ ?_
  · rintro r loc₁ (hr | ⟨row, hr, hopen, hl, hm, hp⟩) <;> cases hr
    · -- The key or the reference is taken.
      refine ⟨trivial, trivial, fun d _ => ?_⟩
      simp only [Prog.bind, Prog.pure_eq]
      split <;> rintro id ⟨⟩
    refine points_bind_of (points_of_adds
      (adds_tryConsume (V := KeepsStatus) (fun _ _ _ _ _ h => by cases h) _ _) (.refl loc₁))
      (fun _ _ hk => opens_of_looks hk.2.bind) (fun ok loc₂ h₂ => ?_) fun _ _ _ _ hr => by cases hr
    split
    case isFalse => exact ⟨trivial, fun _ hr => by cases hr⟩
    case isTrue =>
    refine points_bind_of (points_of_adds
      (adds_setSettlementRef (fun _ _ _ _ _ h => by cases h) _ _) h₂)
      (fun _ _ hk => opens_of_looks hk.2.bind) (fun _ loc₃ h₃ => ?_) fun _ _ _ _ hr => by cases hr
    refine points_bind_of (points_of_adds
      (adds_appendHistory (fun _ _ _ _ h => by cases h) _ _ _ _) h₃)
      (fun _ _ hk => opens_of_looks hk.2.bind) (fun _ loc₄ h₄ => ?_) fun _ _ _ _ hr => by cases hr
    obtain ⟨ws, hws, hkeep⟩ := h₄.pending
    refine ⟨fun _ => ⟨?_, row, ws ++ [.insertAudit (createdAudit session row.id quote.id
      recipientId)], ?_, ⟨hopen.customer, hopen.key, hopen.status, ?_⟩, ?_⟩, fun d _ _ _ => by simp⟩
    · rw [Local.wrote_label, h₄.label, hl]
      exact h.calm
    · rw [Local.wrote_pending, hws, hp]
      rfl
    · intro w hw
      rcases List.mem_append.1 hw with hw | hw
      · exact hkeep w hw
      · rw [List.mem_singleton.1 hw]
        exact fun _ _ _ h => by cases h
    · exact fun loc' d' hi hk hs => hX row.id loc' d' hi hk hs
  · rintro e loc₁ (hr | ⟨row, hr, -⟩) <;> cases hr

/-- The key's transfer is driven when the call ends. -/
def DrivesOn (ι : Type) (i : ι) (c : Uuid) (key : String) : Tx Transfer → Loc → World → Prop :=
  wp (undisturbed ι) i (fun _ _ => KeyDriven c key) (fun _ _ => KeyDriven c key)

/-- A new transfer is driven, and then read back. -/
theorem drivesOn_created {state : AppState} {bodies : ℕ → String} {id : Uuid} (h : Idle loc d)
    (hk : keyed d c key = some id) (hs : d.status id = some .created) :
    DrivesOn ι i c key ((advanceToAwaitingFunds state id bodies).bind fun _ =>
      (Repo.findById id).bind fun r => match r with
        | some transfer => .ret transfer
        | none => .fail .serverError) loc d := by
  have hR : Framed (undisturbed ι) := framed_undisturbed
  refine wp_bind_of (wp_ext hR h.wf (by simp [h.ids])
    (advanceToAwaitingFunds_undisturbed undisturbed_rules h hs)) (fun _ _ _ he => he.1.elim) ?_
  rintro _ loc₁ d₁ ⟨⟨h₁, hd⟩, hext⟩
  have hdriven : KeyDriven c key d₁ := by
    intro id' hid'
    cases (keyed_ext hext h₁.wf hk).symm.trans hid'
    exact hd
  simp only [Repo.findById, Prog.bind_eq, Tx.query, Prog.pure_eq, Prog.bind]
  intro d₂ hr
  refine ⟨trivial, ?_⟩
  dsimp only
  split <;> exact hdriven.of_sameRows (sameRows_of_rely hr)

/-- A call changes nothing but by the commit of the creation, and then it drives the new
transfer. -/
theorem points_createTransfer {session : Session} {input : CreateTransferInput} {state : AppState}
    {body : String} {bodies : ℕ → String} (h : Unopened loc) :
    (createTransfer state session input body bodies).Points S
      (Opens session.customerId input.idempotencyKey
        (DrivesOn ι i session.customerId input.idempotencyKey)) (fun _ _ => True) loc := by
  simp only [createTransfer, Prog.bind_eq, Prog.pure_eq]
  generalize Util.byteLen (Util.trim input.idempotencyKey) = len
  split
  case isTrue => trivial
  refine points_piece (p := Repo.findByIdempotencyKey _ _) (fun _ => trivial) h
    (fun found loc₁ h₁ => ?_) fun _ _ => trivial
  split
  case h_1 => trivial
  case h_2 =>
  refine points_piece (p := Quote.findById _) (fun _ => trivial) h₁ (fun quote loc₂ h₂ => ?_)
    fun _ _ => trivial
  split
  case h_1 => trivial
  case h_2 quote _ =>
  refine ⟨trivial, fun d₃ _ => ?_⟩
  simp only [Prog.bind]
  split
  case isTrue => trivial
  case isFalse =>
  refine ⟨trivial, fun d₄ _ => ?_⟩
  dsimp only
  split
  case h_1 => trivial
  case h_2 recipient _ =>
  refine points_piece (p := begin) (fun _ => trivial) h₂ (fun conn loc₅ h₅ => ?_)
    fun _ _ => trivial
  refine points_piece adds_lockCustomerLimits h₅ (fun limits loc₆ h₆ => ?_) fun _ _ => trivial
  refine points_piece (p := Repo.findByIdempotencyKey _ _) (fun _ => trivial) h₆
    (fun found loc₇ h₇ => ?_) fun _ _ => trivial
  split
  case h_1 => exact ⟨trivial, trivial⟩
  case h_2 =>
  refine points_piece (adds_checkExposureLimits _ _ _) h₇ (fun _ loc₈ h₈ => ?_) fun _ _ => trivial
  refine points_bind_of (points_insertTransfer (X := fun q => DrivesOn ι i _ _ (q.bind _)) ?_ h₈)
    (fun _ _ => .bind) ?_ fun _ _ _ => trivial
  · exact fun id loc d hi hk hs => drivesOn_created hi hk hs
  · rintro r loc₉ hr
    cases r with
    | error raced => trivial
    | ok id => exact opens_of_made (hr id rfl)

end Creation

/-! ### One call at a time -/

/-- What is asked of the answer of a call that drives. -/
def Drove (c : Uuid) (key : String) (_ : Except Failure Answer) (_ : List (World × World)) :
    World → Prop := KeyDriven c key

/-- A creation by a customer with a key. -/
def Creates (c : Uuid) (key : String) (op : Op) : Prop :=
  ∃ state session input body bodies, op = .createTransfer state session input body bodies ∧
    session.customerId = c ∧ input.idempotencyKey = key

theorem stays_drove {r : Except Failure Answer} {made : List (World × World)}
    (h : KeyDriven c key d) : Stays (undisturbed ι) (Drove c key) r made d := fun d' hr => by
  have hr' : (undisturbed ι).Rely ({ label := default } : Loc) none d d' := hr
  exact h.of_sameRows (sameRows_of_rely hr')

theorem runs_of_drivesOn {q : Tx Transfer} (h : DrivesOn ι i c key q loc d) :
    Runs (undisturbed ι) i (Drove c key) (wrap .api .transfer q) loc d :=
  wp_wrap.2 (wp_mono (fun _ _ _ h => stays_drove h) (fun _ _ _ h => stays_drove h) h)

theorem Opens.mono {E A : Type} {X X' : Prog World Write Key Label E A → Loc → World → Prop}
    (hX : ∀ q loc d, X q loc d → X' q loc d) {p : Prog World Write Key Label E A}
    (h : Opens c key X p loc) : Opens c key X' p loc := by
  cases p with
  | commit q =>
    intro hm
    obtain ⟨hl, row, ws, hp, ho, hx⟩ := h hm
    exact ⟨hl, row, ws, hp, ho, fun loc' d' hi hk hs => hX _ _ _ (hx loc' d' hi hk hs)⟩
  | _ => exact h

/-- Where a call of a creation stands. -/
abbrev Standing (c : Uuid) (key : String) (i : ι)
    (call : Call World Write Key Label Failure Answer) : Prop :=
  call.Points (fun _ => True) (Opens c key (Runs (undisturbed ι) i (Drove c key))) fun _ _ => True

theorem standing_start {op : Op} (h : Creates c key op) (i : ι) :
    Standing c key i (.start op.prog) := by
  obtain ⟨state, session, input, body, bodies, rfl, rfl, rfl⟩ := h
  have h₀ : Unopened ({ label := default } : Loc) := ⟨⟨rfl, by rintro p ⟨⟩⟩, rfl, rfl⟩
  have hmap : ((createTransfer state session input body bodies).mapError Failure.api).Points
      (fun _ => True) (Opens session.customerId input.idempotencyKey fun q =>
        Runs (undisturbed ι) i (Drove session.customerId input.idempotencyKey)
          (q.bind fun x => .ret (.transfer x))) (fun _ _ => True) { label := default } :=
    points_mapError.2 (points_mono
      (fun _ _ h => Opens.mapError (h.mono fun _ _ _ => runs_of_drivesOn)) (fun _ _ _ => trivial)
      (points_createTransfer h₀))
  exact Call.points_settle (points_bind_of hmap (fun _ _ => .bind) (fun _ _ _ => trivial)
    fun _ _ _ => trivial)

/-! ### The database after a creation -/

/-- Writes that leave statuses alone leave a transfer where it is. -/
theorem mem_applyAll_of_keeps {ws : List Write} (hws : ∀ w ∈ ws, KeepsStatus w) {t : TransferRow}
    (ht : t ∈ d.transfers) : ∃ t' ∈ (applyAll ws d).transfers,
      t'.core = t.core ∧ t'.currentStatus = t.currentStatus := by
  induction ws generalizing d t with
  | nil => exact ⟨t, ht, rfl, rfl⟩
  | cons w ws ih =>
    have hstep : ∃ t' ∈ (w.apply d).transfers, t'.core = t.core ∧
        t'.currentStatus = t.currentStatus := by
      cases w
      case setStatus id s now => exact absurd rfl (hws _ List.mem_cons_self id s now)
      case setSettlementRef id ref =>
        refine ⟨_, mem_updateWhere ht, ?_⟩
        split <;> exact ⟨rfl, rfl⟩
      case insertTransfer row => exact ⟨t, List.mem_append_left _ ht, rfl, rfl⟩
      all_goals exact ⟨t, ht, rfl, rfl⟩
    obtain ⟨t₁, ht₁, hc₁, hs₁⟩ := hstep
    obtain ⟨t₂, ht₂, hc₂, hs₂⟩ := ih (fun w hw => hws w (List.mem_cons_of_mem _ hw)) ht₁
    exact ⟨t₂, ht₂, hc₂.trans hc₁, hs₂.trans hs₁⟩

namespace Opening

variable {row : TransferRow} {ws : List Write}

/-- The key was free. -/
theorem keyed_none (h : Opening c key row ws)
    (hwf : Wf (applyAll (.insertTransfer row :: ws) d)) : keyed d c key = none := by
  cases hk : keyed d c key with
  | none => rfl
  | some id =>
    obtain ⟨t, ht, -⟩ := Option.map_eq_some_iff.1 hk
    have hcols : t.customerId = c ∧ t.idempotencyKey = key := by simpa using List.find?_some ht
    have hn : (((applyAll (.insertTransfer row :: ws) d).transfers.map (·.core)).map fun t =>
        (t.customerId, t.idempotencyKey)).Nodup := by
      rw [List.map_map]
      exact hwf.transferKeys
    rw [cores_applyAll, List.map_append, List.nodup_append] at hn
    refine absurd rfl (hn.2.2 (c, key) ?_ (c, key) ?_)
    · refine List.mem_map.2 ⟨t.core, List.mem_map_of_mem (List.mem_of_find?_eq_some ht), ?_⟩
      exact Prod.ext hcols.1 hcols.2
    · exact List.mem_map.2 ⟨row.core, List.mem_cons_self, Prod.ext h.customer h.key⟩

/-- The key has its transfer, in `CREATED`. -/
theorem created (h : Opening c key row ws)
    (hwf : Wf (applyAll (.insertTransfer row :: ws) d)) :
    keyed (applyAll (.insertTransfer row :: ws) d) c key = some row.id ∧
      (applyAll (.insertTransfer row :: ws) d).status row.id = some .created := by
  refine ⟨h.customer ▸ h.key ▸ keyed_insertTransfer hwf, ?_⟩
  obtain ⟨t, ht, hc, hs⟩ := mem_applyAll_of_keeps (d := (Write.insertTransfer row).apply d) h.rest
    (List.mem_append_right _ (List.mem_singleton_self row))
  rw [World.status, ← TransferRow.id_of_core hc]
  exact (congrArg (Option.map (·.currentStatus)) (hwf.of_transfer_mem ht)).trans
    (congrArg some (hs.trans h.status))

end Opening

/-! ### Every run -/

/-- The calls of a system. -/
abbrev Calls (ι : Type) := ι → Call World Write Key Label Failure Answer

/-- How far a run has got: nothing is committed, or call `j` has created the key's transfer. -/
inductive Phase (c : Uuid) (key : String) (d : World) (calls : Calls ι) : Prop
  | before : keyed d c key = none → (∀ i, (calls i).made = []) → Phase c key d calls
  | after (j : ι) : (keyed d c key).isSome → (calls j).made ≠ [] →
      (∀ i, i ≠ j → (calls i).made = []) →
      CallOk (undisturbed ι) j (Drove c key) (calls j) d →
      (∀ made, calls j = .crashed made → KeyDriven c key d) → Phase c key d calls

section Phase

variable [DecidableEq ι] {calls : Calls ι} {call : Call World Write Key Label Failure Answer}

omit [DecidableEq ι] in
theorem Phase.env (h : Phase c key d calls) (he : Env d d') : Phase c key d' calls := by
  have hs := SameRows.of_env he
  cases h with
  | before hk hm => exact .before ((keyed_of_sameRows hs).trans hk) hm
  | after j hk hj hm hok hc =>
    refine .after j ?_ hj hm (hok.others (.env he hs)) fun made hcr => (hc made hcr).of_sameRows hs
    rw [keyed_of_sameRows hs]
    exact hk

theorem made_update (i : ι) (hmade : call.made = (calls i).made) (k : ι) :
    (Function.update calls i call k).made = (calls k).made := by
  by_cases hk : k = i
  · subst hk
    rw [Function.update_self]
    exact hmade
  · rw [Function.update_of_ne hk]

/-- A crash, of the call that drives only when the drive has nothing left to do. -/
theorem Phase.crash (h : Phase c key d calls) (i : ι)
    (hun : (calls i).made = [] ∨ KeyDriven c key d) :
    Phase c key d (Function.update calls i (.crashed (calls i).made)) := by
  have hmade : ∀ k, (Function.update calls i (.crashed (calls i).made) k).made = (calls k).made :=
    made_update i rfl
  cases h with
  | before hk hm => exact .before hk fun k => (hmade k).trans (hm k)
  | after j hk hj hm hok hc =>
    by_cases hij : j = i
    · subst hij
      refine .after j hk ((hmade j).symm ▸ hj) (fun k hk => (hmade k).trans (hm k hk)) ?_
        fun _ _ => hun.resolve_left hj
      rw [Function.update_self]
      trivial
    · refine .after j hk ((hmade j).symm ▸ hj) (fun k hk => (hmade k).trans (hm k hk)) ?_ ?_
      · rw [Function.update_of_ne hij]
        exact hok
      · rw [Function.update_of_ne hij]
        exact hc

omit [DecidableEq ι] in
/-- A statement of a call that has changed nothing changes nothing, or it is the commit of a
creation. -/
theorem next_of_unmade {i : ι} (hpts : Standing c key i (calls i)) (hm : (calls i).made = [])
    {free : Key → Bool} (hn : (calls i).next free d = some (d', call)) (hwf : Wf d') :
    (call.made = (calls i).made ∧ (d' = d ∨ d' = bump d)) ∨
      keyed d c key = none ∧ (keyed d' c key).isSome ∧ call.made ≠ [] ∧
        CallOk (undisturbed ι) i (Drove c key) call d' := by
  obtain h | ⟨p, loc, w, hi, hc, hopens, hd⟩ := Call.points_cases hpts hn
  · exact .inl h
  rw [hi] at hm hn
  obtain ⟨q, rfl, rfl⟩ | ⟨u, f, rfl, -⟩ := hd
  · obtain ⟨hcalm, row, ws, hp, hopen, hX⟩ := hopens hm
    have hcall : call = Call.settle q (loc.ended.changed d (applyAll loc.pending d)) := by
      cases w <;> simp only [Call.next, Option.some.injEq, Prod.mk.injEq, true_and] at hn <;>
        exact hn.symm
    have hwf' := hp ▸ hwf
    obtain ⟨hkey, hst⟩ := hopen.created hwf'
    rw [← hp] at hkey hst
    refine .inr ⟨hopen.keyed_none hwf', by rw [hkey]; rfl, by rw [hc]; simp, ?_⟩
    rw [hcall]
    exact Runs.settle (hX _ _ ⟨hwf, hcalm, rfl, rfl⟩ hkey hst)
  · exact absurd hm hopens

/-- A statement of the call that drives. -/
theorem Phase.drives {j : ι} (hk : (keyed d c key).isSome) (hj : (calls j).made ≠ [])
    (hm : ∀ i, i ≠ j → (calls i).made = [])
    (hok : CallOk (undisturbed ι) j (Drove c key) (calls j) d) {free : Key → Bool}
    (hn : (calls j).next free d = some (d', call)) (hwf : Wf d') :
    Phase c key d' (Function.update calls j call) := by
  have hstep := hok.next hn
  have hext : Ext d d' := by
    rcases hstep.change with rfl | rfl | ⟨ws, rfl, -⟩
    · exact .refl _
    · exact (Agree.bump [] [] d).ext
    · exact ext_applyAll ws d
  obtain ⟨id, hid⟩ := Option.isSome_iff_exists.1 hk
  refine .after j (by rw [keyed_ext hext hwf hid]; rfl) ?_ (fun k hkj => ?_) ?_ fun made hcr => ?_
  · rw [Function.update_self]
    rcases Call.made_next hn with h | h <;> rw [h]
    · exact hj
    · simp
  · rw [Function.update_of_ne hkj]
    exact hm k hkj
  · rw [Function.update_self]
    exact hstep.ok
  · rw [Function.update_self] at hcr
    exact absurd hcr (Call.ne_crashed_of_next hn made)

/-- A statement of any call. -/
theorem Phase.go (h : Phase c key d calls) {i : ι} (hpts : Standing c key i (calls i))
    {free : Key → Bool} (hn : (calls i).next free d = some (d', call)) (hwf : Wf d') :
    Phase c key d' (Function.update calls i call) := by
  have hsame : d' = d ∨ d' = bump d → SameRows d d' := by
    rintro (rfl | rfl) <;> exact ⟨rfl, rfl, rfl⟩
  cases h with
  | before hk hm =>
    obtain ⟨hc, hd⟩ | ⟨-, hk', hc, hok⟩ := next_of_unmade hpts (hm i) hn hwf
    · exact .before ((keyed_of_sameRows (hsame hd)).trans hk) fun k =>
        (made_update i hc k).trans (hm k)
    · refine .after i hk' (by rw [Function.update_self]; exact hc) (fun k hki => ?_)
        (by rw [Function.update_self]; exact hok) fun made hcr => ?_
      · rw [Function.update_of_ne hki]
        exact hm k
      · rw [Function.update_self] at hcr
        exact absurd hcr (Call.ne_crashed_of_next hn made)
  | after j hk hj hm hok hcr =>
    by_cases hij : i = j
    · subst hij
      exact .drives hk hj hm hok hn hwf
    obtain ⟨hc, hd⟩ | ⟨hnone, -⟩ := next_of_unmade hpts (hm i hij) hn hwf
    · have hmade := made_update i hc
      refine .after j (by rw [keyed_of_sameRows (hsame hd)]; exact hk) ((hmade j).symm ▸ hj)
        (fun k hkj => (hmade k).trans (hm k hkj)) ?_ ?_
      · rw [Function.update_of_ne (Ne.symm hij)]
        rcases hd with rfl | rfl
        · exact hok
        · exact hok.others .bump
      · rw [Function.update_of_ne (Ne.symm hij)]
        exact fun made h => (hcr made h).of_sameRows (hsame hd)
    · rw [hnone] at hk
      cases hk

end Phase

/-- No call fails between its commit of the creation and the end of the drive. -/
def Unbroken (c : Uuid) (key : String) (e : Event ι)
    (s : Sys ι World Write Key Label Failure Answer) : Prop :=
  match e with
  | .crash i => (s.calls i).made = [] ∨ KeyDriven c key s.shared
  | _ => True

instance (c : Uuid) (key : String) (e : Event ι)
    (s : Sys ι World Write Key Label Failure Answer) : Decidable (Unbroken c key e s) :=
  match e with
  | .crash _ => inferInstanceAs (Decidable (_ ∨ _))
  | .go _ | .env => inferInstanceAs (Decidable True)

variable [DecidableEq ι] {ops : ι → Op} {d₀ : World}

/-- **One step**: only the call that has created the key's transfer changes anything. -/
theorem Phase.step {e : Event ι} {s s' : Sys ι World Write Key Label Failure Answer}
    (h : Phase c key s.shared s.calls) (hpts : ∀ i, Standing c key i (s.calls i))
    (hst : Step Env e s s') (hwf : Wf s'.shared) (hun : Unbroken c key e s) :
    Phase c key s'.shared s'.calls := by
  cases e with
  | env =>
    obtain ⟨d, he, rfl⟩ := hst
    exact h.env he
  | crash i =>
    obtain ⟨p, loc, w, hi, rfl⟩ := hst
    have hmade : (s.calls i).made = loc.made := by rw [hi]; rfl
    have := h.crash i hun
    rwa [hmade] at this
  | go i =>
    obtain ⟨free, -, d, call, hn, rfl⟩ := hst
    exact h.go (hpts i) hn hwf

/-- A call that answers has found or created the key's transfer. -/
theorem keyed_of_succeeded (hwf : Wf d₀) (hops : ∀ i, Creates c key (ops i))
    {s : Sys ι World Write Key Label Failure Answer} (hr : Reach (Step Env) (system ops d₀) s)
    {i : ι} (hi : (s.calls i).succeeded = true) : (keyed s.shared c key).isSome := by
  have hR : Framed (rules noAssumption ops anyChange) := framed_rules lax_anyChange
  have hstart : ∀ i, Runs (rules noAssumption ops anyChange) i
      (fun r _ d => ∀ a, r = .ok a → (keyed d c key).isSome) (ops i).prog
        { label := default } d₀ := by
    intro i
    have hg : Grants (rules noAssumption ops anyChange) i _ := grants_rules i
    have h : Idle ({ label := default } : Loc) d₀ := ⟨hwf, ⟨rfl, by rintro p ⟨⟩⟩, rfl, rfl⟩
    obtain ⟨state, session, input, body, bodies, hop, rfl, rfl⟩ := hops i
    rw [hop] at hg ⊢
    refine wp_wrap.2 (wp_mono ?_ ?_ (createTransfer_spec hR granted_noAssumption hg h))
    · rintro t loc' d' ⟨hwf', hkey⟩
      refine stays_of_ext hR hwf' (fun _ _ => by rw [hkey]; rfl) fun d'' he hwf'' _ _ _ => ?_
      rw [keyed_ext he hwf'' hkey]
      rfl
    · rintro e loc' d' - d'' - a ⟨⟩
  have hok := (SysOk.start hstart).reach hR.seqMono (hr.mono fun _ _ _ h => stepIf_of_step h)
  cases hc : s.calls i with
  | run | crashed => rw [hc] at hi; cases hi
  | done r made =>
    cases r with
    | error e => rw [hc] at hi; cases hi
    | ok a => exact hok.answer hc a rfl

/-- **Driven on**: when no call fails between its commit of the creation and the end of the drive,
the calls have ended and one has answered, the key's transfer is past `SCREENED` or held there. -/
theorem driven_of_reach (hwf : Wf d₀) (hnew : d₀.transferByKey c key = none)
    (hops : ∀ i, Creates c key (ops i)) {s : Sys ι World Write Key Label Failure Answer}
    (hr : Reach (fun e s s' => Step Env e s s' ∧ Unbroken c key e s) (system ops d₀) s)
    (hend : ∀ i, (s.calls i).ended = true) {i : ι} (hi : (s.calls i).succeeded = true) :
    ∃ t, s.shared.transferByKey c key = some t ∧ t.currentStatus ≠ .created ∧
      t.currentStatus ≠ .quoted ∧
      (t.currentStatus = .screened → holds (s.shared.latestPayload t.id) = true) := by
  have hr' := hr.mono fun _ _ _ h => h.1
  have hinv : (∀ i, Standing c key i (s.calls i)) ∧ Phase c key s.shared s.calls := by
    refine hr.invariant (I := fun s => (∀ i, Standing c key i (s.calls i)) ∧
      Phase c key s.shared s.calls) ⟨fun i => standing_start (hops i) i, ?_⟩ ?_
    · exact .before (by rw [system, keyed, hnew]; rfl) fun i => Call.made_settle _ _
    · rintro s₁ e s₂ hr₁ ⟨hpts, hph⟩ hst
      have hr₂ : Reach (Step Env) (system ops d₀) s₂ :=
        .tail (hr₁.mono fun _ _ _ h => h.1) ⟨e, hst.1⟩
      exact ⟨fun i => points_of_step (hpts i) (fun _ => trivial) hst.1,
        hph.step hpts hst.1 (wf_of_reach hwf hr₂) hst.2⟩
  have hkey := keyed_of_succeeded hwf hops hr' hi
  have hdriven : KeyDriven c key s.shared := by
    cases hinv.2 with
    | before hk => rw [hk] at hkey; cases hkey
    | after j hk hj hm hok hcr =>
      cases hj' : s.calls j with
      | run p loc w => simpa [hj', Call.ended] using hend j
      | done r made =>
        rw [hj'] at hok
        exact hok _ .refl
      | crashed made => exact hcr made hj'
  obtain ⟨id, hid⟩ := Option.isSome_iff_exists.1 hkey
  obtain ⟨t, ht, rfl⟩ := Option.map_eq_some_iff.1 hid
  have hst : s.shared.status t.id = some t.currentStatus := by
    rw [World.status, (wf_of_reach hwf hr').of_transfer_mem (List.mem_of_find?_eq_some ht)]
    rfl
  exact ⟨t, ht, hdriven t.id hid _ hst⟩

/-- Two calls with one key. -/
def retriedOps : Fin 2 → Op := fun _ => sampleCreate true "transfer" 3

theorem creates_retriedOps (i : Fin 2) : Creates 1 "transfer" (retriedOps i) :=
  ⟨_, _, _, _, _, rfl, rfl, rfl⟩

/-- A call that fails after its commit strands its transfer: the retry returns it in `CREATED`. -/
theorem stranded_of_crash :
    ∃ s, Reach (Step Env) (system retriedOps (sampleWorld "NG")) s ∧
      (∀ i, (s.calls i).ended = true) ∧ (s.calls 1).succeeded = true ∧
      (s.shared.transferByKey 1 "transfer").map (·.currentStatus) = some .created := by
  obtain ⟨s, hr, h⟩ := exists_reach_of_play Env [0, 1]
    (schedule [(0, 24)] ++ [.crash 0] ++ schedule [(1, 1)])
    (system retriedOps (sampleWorld "NG"))
    (fun s => (s.calls 0).ended && (s.calls 1).ended && (s.calls 1).succeeded &&
      decide ((s.shared.transferByKey 1 "transfer").map (·.currentStatus) = some .created))
    (by decide) (by simp [schedule]) (by decide +kernel)
  simp only [Bool.and_eq_true, decide_eq_true_eq] at h
  obtain ⟨⟨⟨h₀, h₁⟩, hok⟩, hst⟩ := h
  exact ⟨s, hr, Fin.forall_fin_two.2 ⟨h₀, h₁⟩, hok, hst⟩

/-- A call that fails before it has committed anything strands nothing. -/
theorem driven_of_retry :
    ∃ s t, Reach (Step Env) (system retriedOps (sampleWorld "NG")) s ∧
      s.shared.transferByKey 1 "transfer" = some t ∧ t.currentStatus ≠ .created ∧
      t.currentStatus ≠ .quoted ∧
      (t.currentStatus = .screened → holds (s.shared.latestPayload t.id) = true) := by
  have h : ((playChecked (fun e s => decide (Unbroken 1 "transfer" e s)) [0, 1]
      (schedule [(0, 9)] ++ [.crash 0] ++ schedule [(1, 41)])
      (system retriedOps (sampleWorld "NG"))).any fun s =>
        (s.calls 0).ended && (s.calls 1).ended && (s.calls 1).succeeded) = true := by
    decide +kernel
  obtain ⟨s, hs, h⟩ := (Option.any_eq_true ..).1 h
  simp only [Bool.and_eq_true] at h
  obtain ⟨⟨h₀, h₁⟩, hok⟩ := h
  have hr := (reach_of_playChecked (by decide) (by simp [schedule]) hs).mono
    fun e s s' h => (⟨h.1, of_decide_eq_true h.2⟩ : Step Env e s s' ∧ Unbroken 1 "transfer" e s)
  obtain ⟨t, ht⟩ := driven_of_reach (wf_sampleWorld "NG") rfl creates_retriedOps hr
    (Fin.forall_fin_two.2 ⟨h₀, h₁⟩) hok
  exact ⟨s, t, hr.mono fun _ _ _ h => h.1, ht⟩

end Kimana.Service
