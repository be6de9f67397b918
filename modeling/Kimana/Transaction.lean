import Kimana.ReadCommitted.Rely
import Kimana.World.Schema

/-!
# Transactions under interference

The proof rules for database programs over the backend's tables.  A transaction in progress
(`InTx`) holds a valid list of uncommitted writes; interference leaves them valid
(`InTx.rely`).  `Ran` relates the two ends of a piece of a transaction that added writes.

* `Ran.wp_read`, `Ran.wp_fresh`, `Ran.wp_lock`, `Ran.wp_write`, `Ran.wp_commit` : one rule for each
  statement.
* `Ran.trans` : pieces compose.
-/

namespace Kimana

open ReadCommitted

variable {ι E A : Type} {R : Rules ι World Key Label} {i : ι}

/-- The local state of a call of the backend. -/
abbrev Loc := Local World Write Key Label

/-- The database as the open transaction sees it. -/
def view (loc : Loc) (d : World) : World := applyAll loc.pending d

section View

variable (loc : Loc) (d : World)

@[simp] theorem view_hold (k : Key) : view (loc.hold k) d = view loc d := rfl

@[simp] theorem view_draw (n : ℕ) : view (loc.draw n) d = view loc d := rfl

@[simp] theorem view_at' (l : Label) : view (loc.at' l) d = view loc d := rfl

@[simp] theorem view_ended : view loc.ended d = d := rfl

@[simp] theorem view_changed (d₁ d₂ : World) : view (loc.changed d₁ d₂) d = view loc d := rfl

@[simp] theorem view_wrote (w : Write) : view (loc.wrote w) d = w.apply (view loc d) := by
  simp [view, applyAll_append]

theorem view_of_pending {loc : Loc} (h : loc.pending = []) : view loc d = d := by
  rw [view, h, applyAll_nil]

end View

/-- The call is not about to lock a transfer's row, nor about to compare a cursor. -/
def Label.Calm (l : Label) : Prop := l.locking = none ∧ ∀ c, l.pass ≠ .found c

theorem Label.Calm.withLocking {l : Label} (h : l.Calm) : l.withLocking none = l := by
  rw [Label.withLocking, ← h.1]

theorem Label.Calm.withPass {l : Label} (h : l.Calm) {p : PassPoint} (hp : ∀ c, p ≠ .found c) :
    (l.withPass p).Calm := ⟨h.1, hp⟩

/-- Rules whose every change is a valid list of writes. -/
structure Framed (R : Rules ι World Key Label) : Prop where
  guar : ∀ i ℓ ids d d', R.guar i ℓ ids d d' → ∃ ws, d' = applyAll ws d ∧ Valid ℓ ids d ws
  agree : ∀ ℓ ids d d', R.env d d' → Agree ℓ ids d d'
  wf : ∀ d d', R.env d d' → Wf d → Wf d'
  nextId : ∀ d d', R.env d d' → d.nextId ≤ d'.nextId
  /-- What a call that waits for a transfer's row may see, it may see as well when it does not. -/
  cond : ∀ l w d d', R.cond l w d d' → R.cond (l.withLocking none) none d d'
  stand : ∀ l d, l.Calm ∨ (∃ id, l.locking = some id) → R.stand l d

theorem Framed.seqMono (hR : Framed R) : R.SeqMono where
  guar i ℓ ids d d' h := by
    obtain ⟨ws, rfl, -⟩ := hR.guar i ℓ ids d d' h
    exact (seq_applyAll ws d).ge
  env d d' h := hR.nextId d d' h

theorem seen_bump (d : World) (k : Key) : (bump d).seen k = d.seen k := by
  cases k <;> rfl

theorem Agree.bump (ℓ : List Key) (ids : List ℕ) (d : World) : Agree ℓ ids d (bump d) :=
  ⟨fun k _ => (seen_bump d k).symm, { Ext.refl d with }, fun _ _ h => { h with }⟩

/-! ### Interference -/

theorem Framed.others (hR : Framed R) {ℓ : List Key} {ids : List ℕ} {l : Label}
    {w : Option World} {d d' : World} (h : R.Others ℓ ids l w d d') (hwf : Wf d) :
    Agree ℓ ids d d' ∧ Wf d' := by
  cases h with
  | bump => exact ⟨.bump ℓ ids d, hwf.bump⟩
  | guar j ℓ' ids' hℓ hids hlt hg hc =>
    obtain ⟨ws, rfl, hv⟩ := hR.guar j ℓ' ids' _ _ hg
    exact ⟨hv.agree_others hℓ hids, hwf.applyAll hv hlt⟩
  | env he hc => exact ⟨hR.agree ℓ ids _ _ he, hR.wf _ _ he hwf⟩

theorem Framed.rely (hR : Framed R) {loc : Loc} {w : Option World} {d d' : World}
    (h : R.Rely loc w d d') (hwf : Wf d) : Agree loc.locks loc.ids d d' ∧ Wf d' := by
  induction h with
  | refl => exact ⟨.refl _ _ d, hwf⟩
  | tail _ ho ih =>
    obtain ⟨ha, hwf'⟩ := ih
    obtain ⟨ha', hwf''⟩ := hR.others ho hwf'
    exact ⟨ha.trans ha', hwf''⟩

theorem Framed.nextId_le (hR : Framed R) {loc : Loc} {w : Option World} {d d' : World}
    (h : R.Rely loc w d d') : d.nextId ≤ d'.nextId :=
  h.invariant (P := fun x => d.nextId ≤ x.nextId) le_rfl fun _ _ hle ho =>
    hle.trans (ho.seq_le hR.seqMono)

/-- What a calm call sees while it waits, it may see when it does not wait. -/
theorem Framed.unwait (hR : Framed R) {loc loc' : Loc} {w : Option World} {d d' : World}
    (h : R.Rely loc' w d d') (hℓ : loc'.locks = loc.locks) (hids : loc'.ids = loc.ids)
    (hl : loc'.label.withLocking none = loc.label) : R.Rely loc none d d' :=
  h.weaken (hℓ ▸ fun _ hk => hk) (hids ▸ fun _ hn => hn) fun _ _ hcond =>
    hl ▸ hR.cond _ _ _ _ hcond

/-! ### A transaction in progress -/

/-- A transaction in progress: its uncommitted writes may be carried out. -/
structure InTx (loc : Loc) (d : World) : Prop where
  wf : Wf d
  valid : Valid loc.locks loc.ids d loc.pending
  below : ∀ n ∈ loc.ids, n < d.nextId
  calm : loc.label.Calm

namespace InTx

variable {loc : Loc} {d d' : World}

/-- A transaction that has done nothing. -/
theorem start (hwf : Wf d) (hc : loc.label.Calm) (hp : loc.pending = []) (hi : loc.ids = []) :
    InTx loc d :=
  ⟨hwf, hp ▸ trivial, by simp [hi], hc⟩

theorem view_wf (h : InTx loc d) : Wf (view loc d) := h.wf.applyAll h.valid h.below

/-- Interference keeps a transaction in order. -/
theorem rely (hR : Framed R) {w : Option World} (h : InTx loc d) (hr : R.Rely loc w d d') :
    InTx loc d' :=
  ⟨(hR.rely hr h.wf).2, h.valid.agree (hR.rely hr h.wf).1,
    fun n hn => (h.below n hn).trans_le (hR.nextId_le hr), h.calm⟩

/-- What the transaction sees changes only where it holds no lock. -/
theorem agree_view (hR : Framed R) {w : Option World} (h : InTx loc d)
    (hr : R.Rely loc w d d') : Agree loc.locks loc.ids (view loc d) (view loc d') :=
  (hR.rely hr h.wf).1.applyAll h.valid

theorem lock (h : InTx loc d) (k : Key) : InTx (loc.hold k) d :=
  ⟨h.wf, h.valid.mono (fun _ hk => List.mem_cons_of_mem _ hk) fun _ hn => hn, h.below, h.calm⟩

theorem fresh (h : InTx loc d) : InTx (loc.draw (seq d)) (bump d) := by
  refine ⟨h.wf.bump, ?_, fun n hn => ?_, h.calm⟩
  · exact (h.valid.agree (.bump loc.locks loc.ids d)).mono (fun _ hk => hk)
      fun _ hn => List.mem_cons_of_mem _ hn
  · change n < d.nextId + 1
    rcases List.mem_cons.1 hn with rfl | hn
    · exact Nat.lt_succ_self _
    · exact (h.below n hn).trans (Nat.lt_succ_self _)

theorem write (h : InTx loc d) {w : Write} (hw : w.Valid loc.locks loc.ids (view loc d)) :
    InTx (loc.wrote w) d :=
  ⟨h.wf, valid_append.2 ⟨h.valid, hw, trivial⟩, h.below, h.calm⟩

theorem relabel (h : InTx loc d) {l : Label} (hl : l.Calm) : InTx (loc.at' l) d :=
  ⟨h.wf, h.valid, h.below, hl⟩

end InTx

theorem unused_applyAll {ℓ : List Key} {ids : List ℕ} {d : World} {ws : List Write}
    (hws : Valid ℓ ids d ws) {n : ℕ} (hn : n ∉ ids) (h : d.Unused n) :
    (applyAll ws d).Unused n := by
  induction ws generalizing d with
  | nil => exact h
  | cons w ws ih => exact ih hws.2 (h.apply fun hp => hn (hws.1.fresh n hp).1)

/-- A drawn id is new to the transaction. -/
theorem InTx.unused_seq {loc : Loc} {d : World} (h : InTx loc d) :
    (view loc (bump d)).Unused (seq d) :=
  unused_applyAll (h.valid.agree (.bump loc.locks loc.ids d))
    (fun hn => absurd (h.below _ hn) (lt_irrefl _))
    { h.wf.below (seq d) le_rfl with }

/-! ### Pieces of a transaction -/

/-- A piece of a transaction ran from `loc`, `d` to `loc'`, `d'` and added the writes `ws`. -/
structure Ran (R : Rules ι World Key Label) (loc : Loc) (d : World) (loc' : Loc) (d' : World)
    (ws : List Write) : Prop where
  start : InTx loc d
  inTx : InTx loc' d'
  pending : loc'.pending = loc.pending ++ ws
  locks : ∀ k ∈ loc.locks, k ∈ loc'.locks
  ids : ∀ n ∈ loc.ids, n ∈ loc'.ids
  label : loc'.label = loc.label
  made : loc'.made = loc.made
  rely : R.Rely loc none d d'

/-- A piece of a transaction gave up. -/
structure Failed (loc loc' : Loc) (d' : World) : Prop where
  wf : Wf d'
  label : loc'.label = loc.label
  made : loc'.made = loc.made

namespace Ran

variable {loc loc' loc'' : Loc} {d d' d'' : World} {ws vs : List Write}

theorem refl (h : InTx loc d) : Ran R loc d loc d [] :=
  ⟨h, h, (List.append_nil _).symm, fun _ h => h, fun _ h => h, rfl, rfl, .refl d⟩

theorem trans (h : Ran R loc d loc' d' ws) (h' : Ran R loc' d' loc'' d'' vs) :
    Ran R loc d loc'' d'' (ws ++ vs) where
  start := h.start
  inTx := h'.inTx
  pending := by rw [h'.pending, h.pending, List.append_assoc]
  locks k hk := h'.locks k (h.locks k hk)
  ids n hn := h'.ids n (h.ids n hn)
  label := h'.label.trans h.label
  made := h'.made.trans h.made
  rely := h.rely.trans (h'.rely.weaken h.locks h.ids fun _ _ hc => h.label ▸ hc)

theorem failed (h : Ran R loc d loc' d' ws) : Failed loc loc' d' :=
  ⟨h.inTx.wf, h.label, h.made⟩

theorem view_eq (h : Ran R loc d loc' d' ws) :
    view loc' d' = applyAll ws (view loc d') := by
  rw [view, h.pending, applyAll_append, view]

theorem agree (hR : Framed R) (h : Ran R loc d loc' d' ws) :
    Agree loc.locks loc.ids d d' := (hR.rely h.rely h.start.wf).1

theorem rely_ext (hR : Framed R) (h : Ran R loc d loc' d' ws) : Ext d d' := (h.agree hR).ext

/-- What was there at the start still is, under the writes added since. -/
theorem agree_view (hR : Framed R) (h : Ran R loc d loc' d' ws) :
    Agree loc.locks loc.ids (view loc d) (view loc d') := h.start.agree_view hR h.rely

theorem ext_view (hR : Framed R) (h : Ran R loc d loc' d' ws) :
    Ext (view loc d) (view loc' d') := by
  rw [h.view_eq]
  exact (h.agree_view hR).ext.trans (ext_applyAll ws _)

/-- Interference. -/
theorem step (hR : Framed R) (h : Ran R loc d loc' d' ws) (hr : R.Rely loc' none d' d'') :
    Ran R loc d loc' d'' ws :=
  { h with
    inTx := h.inTx.rely hR hr
    rely := h.rely.trans (hr.weaken h.locks h.ids fun _ _ hc => h.label ▸ hc) }

end Ran

theorem Failed.trans {loc loc' loc'' : Loc} {d' d'' : World} {ws : List Write} {d : World}
    (h : Failed loc' loc'' d'') (hr : Ran R loc d loc' d' ws) : Failed loc loc'' d'' :=
  ⟨h.wf, h.label.trans hr.label, h.made.trans hr.made⟩

/-! ### Statements -/

section Statements

variable {Φ : A → Loc → World → Prop} {Ψ : E → Loc → World → Prop} {loc loc' : Loc}
  {d d' : World} {ws : List Write}

namespace Ran

theorem stand (hR : Framed R) (h : Ran R loc d loc' d' ws) (d'' : World) :
    R.stand loc'.label d'' := hR.stand _ _ (.inl h.inTx.calm)

theorem wp_query (hR : Framed R) (h : Ran R loc d loc' d' ws)
    {f : World → Prog World Write Key Label E A}
    (k : ∀ d'', R.Rely loc' none d' d'' → Ran R loc d loc' d'' ws →
      wp R i Φ Ψ (f d'') loc' d'') : wp R i Φ Ψ (.query f) loc' d' :=
  fun d'' hr => ⟨h.stand hR d'', k d'' hr (h.step hR hr)⟩

theorem wp_read (hR : Framed R) (h : Ran R loc d loc' d' ws)
    {f : World → Prog World Write Key Label E A}
    (k : ∀ d'', R.Rely loc' none d' d'' → Ran R loc d loc' d'' ws →
      wp R i Φ Ψ (f (view loc' d'')) loc' d'') : wp R i Φ Ψ (.read f) loc' d' :=
  fun d'' hr => ⟨h.stand hR d'', k d'' hr (h.step hR hr)⟩

/-- The new id is unused, and nothing else has changed. -/
theorem wp_fresh (hR : Framed R) (h : Ran R loc d loc' d' ws)
    {f : ℕ → Prog World Write Key Label E A}
    (k : ∀ n d'', R.Rely loc' none d' d'' → (view loc' d'').Unused n →
      Ran R loc d (loc'.draw n) d'' ws → wp R i Φ Ψ (f n) (loc'.draw n) d'') :
    wp R i Φ Ψ (.fresh f) loc' d' := by
  intro d'' hr
  have h' := h.step hR hr
  refine ⟨h.stand hR d'', k (seq d'') (bump d'') (hr.tail .bump) h'.inTx.unused_seq ?_⟩
  exact { h' with
    inTx := h'.inTx.fresh
    ids := fun n hn => List.mem_cons_of_mem _ (h'.ids n hn)
    rely := h'.rely.tail .bump }

/-- The wait ends in a state that others have led to. -/
theorem wp_lock (hR : Framed R) (h : Ran R loc d loc' d' ws) {key : Key}
    {f : World → World → Prog World Write Key Label E A}
    (k : ∀ d₁ d₂, R.Rely loc' none d' d₁ → R.Rely loc' none d' d₂ →
      Ran R loc d (loc'.hold key) d₂ ws →
      wp R i Φ Ψ (f (view loc' d₁) (view loc' d₂)) (loc'.hold key) d₂) :
    wp R i Φ Ψ (.lock key f) loc' d' := by
  intro d₁ h₁
  refine ⟨h.stand hR d₁, fun d₂ h₂ => ⟨h.stand hR d₂, ?_⟩⟩
  have h₂' : R.Rely loc' none d' d₂ := h₁.trans <|
    hR.unwait h₂ rfl rfl h.inTx.calm.withLocking
  have h' := h.step hR h₂'
  exact k d₁ d₂ h₁ h₂'
    { h' with
      inTx := h'.inTx.lock key
      locks := fun k' hk => List.mem_cons_of_mem _ (h'.locks k' hk) }

theorem wp_write (h : Ran R loc d loc' d' ws) {w : Write}
    {p : Prog World Write Key Label E A} (hw : w.Valid loc'.locks loc'.ids (view loc' d'))
    (k : Ran R loc d (loc'.wrote w) d' (ws ++ [w]) → wp R i Φ Ψ p (loc'.wrote w) d') :
    wp R i Φ Ψ (.write w p) loc' d' :=
  k { h with
    inTx := h.inTx.write hw
    pending := by simp [h.pending, Local.wrote] }

theorem wp_commit (hR : Framed R) (h : Ran R loc d loc' d' ws)
    {p : Prog World Write Key Label E A}
    (hg : ∀ d'', R.Rely loc' none d' d'' → Ran R loc d loc' d'' ws →
      R.guar i loc'.locks loc'.ids d'' (view loc' d''))
    (k : ∀ d'', R.Rely loc' none d' d'' → Ran R loc d loc' d'' ws →
      InTx (loc'.ended.changed d'' (view loc' d'')) (view loc' d'') →
      wp R i Φ Ψ p (loc'.ended.changed d'' (view loc' d'')) (view loc' d'')) :
    wp R i Φ Ψ (.commit p) loc' d' := by
  intro d'' hr
  have h' := h.step hR hr
  exact ⟨h.stand hR d'', hg d'' hr h', k d'' hr h' (.start h'.inTx.view_wf h'.inTx.calm rfl rfl)⟩

theorem wp_rollback (hR : Framed R) (h : Ran R loc d loc' d' ws)
    {p : Prog World Write Key Label E A}
    (k : ∀ d'', R.Rely loc' none d' d'' → InTx loc'.ended d'' → wp R i Φ Ψ p loc'.ended d'') :
    wp R i Φ Ψ (.rollback p) loc' d' := by
  intro d'' hr
  have h' := h.step hR hr
  exact ⟨h.stand hR d'', k d'' hr (.start h'.inTx.wf h'.inTx.calm rfl rfl)⟩

end Ran

end Statements

/-! ### Calls between transactions -/

section Idle

variable {loc loc' : Loc} {d d' : World}

/-- Call `i` may commit what `P` says. -/
def Grants (R : Rules ι World Key Label) (i : ι) (P : World → List Write → Prop) : Prop :=
  ∀ ℓ ids d ws, Valid ℓ ids d ws → P d ws → R.guar i ℓ ids d (applyAll ws d)

/-- A call between transactions. -/
structure Idle (loc : Loc) (d : World) : Prop where
  wf : Wf d
  calm : loc.label.Calm
  pending : loc.pending = []
  ids : loc.ids = []

theorem Idle.inTx (h : Idle loc d) : InTx loc d := .start h.wf h.calm h.pending h.ids

theorem Idle.rely (hR : Framed R) {w : Option World} (h : Idle loc d) (hr : R.Rely loc w d d') :
    Idle loc d' := { h with wf := (hR.rely hr h.wf).2 }

theorem Idle.relabel (h : Idle loc d) {l : Label} (hl : l.Calm) : Idle (loc.at' l) d :=
  { h with calm := hl }

/-- A call that failed, once its transaction is dropped. -/
structure Dropped (loc loc' : Loc) (d' : World) : Prop where
  wf : Wf d'
  calm : loc'.label.Calm
  made : loc'.made = loc.made

theorem Failed.dropped (h : Failed loc loc' d') (hc : loc.label.Calm) : Dropped loc loc' d' :=
  ⟨h.wf, h.label ▸ hc, h.made⟩

theorem Dropped.idle (h : Dropped loc loc' d') : Idle loc'.ended d' := ⟨h.wf, h.calm, rfl, rfl⟩

/-- A call that committed once. -/
structure Committed (loc loc' : Loc) (d' : World) : Prop extends Idle loc' d' where
  made : ∃ m, loc'.made = m :: loc.made

theorem Committed.trans {loc₁ : Loc} {d₁ : World} {ws : List Write}
    (h : Committed loc₁ loc' d') (hr : Ran R loc d loc₁ d₁ ws) : Committed loc loc' d' :=
  { h with made := hr.made ▸ h.made }

theorem Ran.dropped {loc₁ : Loc} {d₁ : World} {ws : List Write} (h : Ran R loc d loc₁ d₁ ws) :
    Dropped loc loc₁ d₁ := h.failed.dropped h.start.calm

theorem Dropped.trans {loc₁ : Loc} {d₁ : World} {ws : List Write}
    (h : Dropped loc₁ loc' d') (hr : Ran R loc d loc₁ d₁ ws) : Dropped loc loc' d' :=
  { h with made := h.made.trans hr.made }

theorem Committed.of_at' {l : Label} (h : Committed (loc.at' l) loc' d') : Committed loc loc' d' :=
  { h with made := h.made }

theorem Dropped.of_at' {l : Label} (h : Dropped (loc.at' l) loc' d') : Dropped loc loc' d' :=
  { h with made := h.made }

/-- `begin` reads the clock. -/
theorem wp_begin (hR : Framed R) {Φ : A → Loc → World → Prop}
    {Ψ : ApiError → Loc → World → Prop} {f : Conn → Tx A} (h : Idle loc d)
    (k : ∀ conn d', R.Rely loc none d d' → Idle loc d' → wp R i Φ Ψ (f conn) loc d') :
    wp R i Φ Ψ (begin >>= f) loc d := by
  simp only [begin, Prog.bind_eq, Tx.query, Prog.pure_eq, Prog.bind]
  exact (Ran.refl h.inTx).wp_query hR fun d₁ hr _ => k _ d₁ hr (h.rely hR hr)

/-- A commit that the guarantee allows. -/
theorem Ran.wp_commit_of {P : World → List Write → Prop} {Φ : A → Loc → World → Prop}
    {Ψ : E → Loc → World → Prop} {p : Prog World Write Key Label E A} {ws : List Write}
    (hR : Framed R) (hg : Grants R i P) (h : Ran R loc d loc' d' ws)
    (hP : ∀ d'', Ran R loc d loc' d'' ws → P d'' loc'.pending)
    (k : ∀ d'', Ran R loc d loc' d'' ws →
      Committed loc (loc'.ended.changed d'' (view loc' d'')) (view loc' d'') →
      wp R i Φ Ψ p (loc'.ended.changed d'' (view loc' d'')) (view loc' d'')) :
    wp R i Φ Ψ (.commit p) loc' d' := by
  refine h.wp_commit hR (fun d'' hr h' => hg _ _ _ _ h'.inTx.valid (hP d'' h')) ?_
  intro d'' hr h' hin
  exact k d'' h' { wf := hin.wf, calm := hin.calm, pending := rfl, ids := rfl
                   made := ⟨_, by simp [h'.made]; rfl⟩ }

end Idle

/-- Whatever a program does, the database it leaves extends the one it found. -/
theorem wp_ext (hR : Framed R) {Φ : A → Loc → World → Prop} {Ψ : E → Loc → World → Prop}
    {p : Prog World Write Key Label E A} {loc : Loc} {d : World} (hwf : Wf d)
    (hids : ∀ n ∈ loc.ids, n < d.nextId) (h : wp R i Φ Ψ p loc d) :
    wp R i (fun a loc' d' => Φ a loc' d' ∧ Ext d d') (fun e loc' d' => Ψ e loc' d' ∧ Ext d d')
      p loc d := by
  have hrely : ∀ {loc : Loc} {w} {d d₁ : World}, Wf d → (∀ n ∈ loc.ids, n < d.nextId) →
      R.Rely loc w d d₁ → Ext d d₁ ∧ Wf d₁ ∧ ∀ n ∈ loc.ids, n < d₁.nextId := fun hwf hids hr =>
    ⟨(hR.rely hr hwf).1.ext, (hR.rely hr hwf).2, fun n hn =>
      (hids n hn).trans_le (hR.nextId_le hr)⟩
  have hmono : ∀ {p : Prog World Write Key Label E A} {loc : Loc} {d d₁ d₂ : World},
      Ext d d₁ → wp R i (fun a loc' d' => Φ a loc' d' ∧ Ext d₁ d')
        (fun e loc' d' => Ψ e loc' d' ∧ Ext d₁ d') p loc d₂ →
      wp R i (fun a loc' d' => Φ a loc' d' ∧ Ext d d') (fun e loc' d' => Ψ e loc' d' ∧ Ext d d')
        p loc d₂ :=
    fun he => wp_mono (fun _ _ _ h => ⟨h.1, he.trans h.2⟩) fun _ _ _ h => ⟨h.1, he.trans h.2⟩
  have hguar : ∀ {ℓ : List Key} {ids : List ℕ} {d d' : World}, Wf d → (∀ n ∈ ids, n < d.nextId) →
      R.guar i ℓ ids d d' → Ext d d' ∧ Wf d' ∧ d'.nextId = d.nextId := by
    intro ℓ ids d d' hwf hids hg
    obtain ⟨ws, rfl, hv⟩ := hR.guar _ _ _ _ _ hg
    exact ⟨ext_applyAll ws d, hwf.applyAll hv hids, seq_applyAll ws d⟩
  induction p generalizing loc d with
  | ret a => exact ⟨h, .refl d⟩
  | fail e => exact ⟨h, .refl d⟩
  | write w p ih => exact ih hwf hids h
  | mark l p ih => exact ih hwf hids h
  | fresh f ih =>
    intro d₁ hr
    obtain ⟨he, hwf₁, hids₁⟩ := hrely hwf hids hr
    refine ⟨(h d₁ hr).1, hmono (he.trans (Agree.bump [] [] d₁).ext)
      (ih _ hwf₁.bump (fun n hn => ?_) (h d₁ hr).2)⟩
    change n < d₁.nextId + 1
    rcases List.mem_cons.1 hn with rfl | hn
    · exact Nat.lt_succ_self _
    · exact (hids₁ n hn).trans (Nat.lt_succ_self _)
  | atomic u f ih =>
    intro d₁ hr
    obtain ⟨he, hwf₁, hids₁⟩ := hrely hwf hids hr
    obtain ⟨hst, hg, hw⟩ := h d₁ hr
    obtain ⟨he', hwf', hn⟩ := hguar hwf₁ hids₁ hg
    exact ⟨hst, hg, hmono (he.trans he') (ih _ hwf' (hn ▸ hids₁) hw)⟩
  | query f ih | read f ih =>
    intro d₁ hr
    obtain ⟨he, hwf₁, hids₁⟩ := hrely hwf hids hr
    exact ⟨(h d₁ hr).1, hmono he (ih _ hwf₁ hids₁ (h d₁ hr).2)⟩
  | lock k f ih =>
    intro d₁ hr
    obtain ⟨he, hwf₁, hids₁⟩ := hrely hwf hids hr
    refine ⟨(h d₁ hr).1, fun d₂ hr₂ => ?_⟩
    obtain ⟨he₂, hwf₂, hids₂⟩ := hrely hwf₁ hids₁ hr₂
    obtain ⟨hst, hw⟩ := (h d₁ hr).2 d₂ hr₂
    exact ⟨hst, hmono (he.trans he₂) (ih _ _ hwf₂ hids₂ hw)⟩
  | commit p ih =>
    intro d₁ hr
    obtain ⟨he, hwf₁, hids₁⟩ := hrely hwf hids hr
    obtain ⟨hst, hg, hw⟩ := h d₁ hr
    obtain ⟨he', hwf', -⟩ := hguar hwf₁ hids₁ hg
    exact ⟨hst, hg, hmono (he.trans he') (ih hwf' (by simp) hw)⟩
  | rollback p ih =>
    intro d₁ hr
    obtain ⟨he, hwf₁, hids₁⟩ := hrely hwf hids hr
    exact ⟨(h d₁ hr).1, hmono he (ih hwf₁ (by simp) (h d₁ hr).2)⟩

/-! ### Races -/

/-- Others opened or changed accounts while a transaction held the locks of `loc`. -/
def Raced (R : Rules ι World Key Label) (loc : Loc) : Prop :=
  ∃ loc' d d', (∀ k ∈ loc.locks, k ∈ loc'.locks) ∧ R.Rely loc' none d d' ∧
    d.accounts ≠ d'.accounts

/-- A piece of a transaction gave up because others opened an account first. -/
structure LostRace (R : Rules ι World Key Label) (loc : Loc) (e : ApiError) (loc' : Loc)
    (d' : World) : Prop extends Failed loc loc' d' where
  error : e = .serverError
  raced : Raced R loc

theorem LostRace.trans {loc loc₁ loc' : Loc} {d d₁ d' : World} {ws : List Write} {e : ApiError}
    (h : LostRace R loc₁ e loc' d') (hr : Ran R loc d loc₁ d₁ ws) : LostRace R loc e loc' d' where
  toFailed := h.toFailed.trans hr
  error := h.error
  raced := by
    obtain ⟨l, d, d', hl, hr', hne⟩ := h.raced
    exact ⟨l, d, d', fun k hk => hl k (hr.locks k hk), hr', hne⟩

/-- A piece of a transaction gave up because others opened an account first, or because of what it
found where it stopped. -/
structure GaveUp (R : Rules ι World Key Label) (loc : Loc) (found : Loc → World → Prop)
    (e : ApiError) (loc' : Loc) (d' : World) : Prop extends Failed loc loc' d' where
  error : e = .serverError
  why : Raced R loc ∨ found loc' d'

theorem LostRace.gaveUp {loc loc' : Loc} {d' : World} {e : ApiError} {found : Loc → World → Prop}
    (h : LostRace R loc e loc' d') : GaveUp R loc found e loc' d' :=
  ⟨h.toFailed, h.error, .inl h.raced⟩

theorem GaveUp.trans {loc loc₁ loc' : Loc} {d d₁ d' : World} {ws : List Write} {e : ApiError}
    {found found' : Loc → World → Prop} (h : GaveUp R loc₁ found e loc' d')
    (hr : Ran R loc d loc₁ d₁ ws) (hf : found loc' d' → found' loc' d') :
    GaveUp R loc found' e loc' d' where
  toFailed := h.toFailed.trans hr
  error := h.error
  why := h.why.imp (fun ⟨l, d, d', hl, hr', hne⟩ =>
    ⟨l, d, d', fun k hk => hl k (hr.locks k hk), hr', hne⟩) hf

theorem GaveUp.imp {loc loc' : Loc} {d' : World} {e : ApiError} {found found' : Loc → World → Prop}
    (h : GaveUp R loc found e loc' d') (hf : found loc' d' → found' loc' d') :
    GaveUp R loc found' e loc' d' := ⟨h.toFailed, h.error, h.why.imp_right hf⟩

/-! ### Nothing interferes -/

/-- The rules of a call that nothing interferes with. -/
def quiet : Rules Unit World Key Label where
  guar _ ℓ ids d d' := ∃ ws, d' = applyAll ws d ∧ Valid ℓ ids d ws
  env _ _ := False
  cond _ _ _ _ := False

theorem framed_quiet : Framed quiet where
  guar _ _ _ _ _ h := h
  agree _ _ _ _ h := h.elim
  wf _ _ h := h.elim
  nextId _ _ h := h.elim
  cond _ _ _ _ h := h.elim
  stand _ _ _ := trivial

/-- Only row ids are drawn meanwhile. -/
theorem eq_of_quiet {loc : Loc} {w : Option World} {d d' : World} (h : quiet.Rely loc w d d') :
    d' = { d with nextId := d'.nextId } := by
  refine h.invariant (P := fun d' => d' = { d with nextId := d'.nextId }) rfl ?_
  intro d₁ d₂ h₁ ho
  cases ho with
  | bump => rw [h₁]; rfl
  | guar _ _ _ _ _ _ _ hc => exact hc.elim
  | env he _ => exact he.elim

end Kimana
