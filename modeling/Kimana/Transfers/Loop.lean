import Kimana.Transfers.Drive

/-!
# Drive loops among other operations

A drive loop remembers the status it last saw, and between two of its turns other operations may
move the transfer on.

* `driveWith` : the loop with a check of every turn that goes on.
* `driveWith_onward` : among any operations, a turn that goes on takes the status onward along the
  table, so that twelve turns are enough.
* `drive_ends` : **drive loops end**, and when nobody interferes, at the stored status and where
  only something else can move the transfer on.
-/

namespace Kimana.Engine

open ReadCommitted Table TransferStatus

/-- The drive loop with a check: a turn that goes on must take the status to one that `ok` allows.
`out` is the error of a turn that does not, and of a loop that has no turn left. -/
def driveWith (ok : TransferStatus → TransferStatus → Bool) (out : ApiError) (state : AppState)
    (id : Uuid) (more : TransferStatus → Bool) (bodies : ℕ → String) :
    ℕ → TransferStatus → Tx TransferStatus
  | 0, _ => Prog.fail out
  | fuel + 1, status =>
    if more status then do
      let next ← advanceOnceOrHold state id status (bodies fuel)
      if next = status then return status
      else if !ok status next then Prog.fail out
      else if next.isTerminal then return next
      else driveWith ok out state id more bodies fuel next
    else return status

/-- The loop of the code checks nothing. -/
theorem drive_eq_driveWith {state : AppState} {id : Uuid} {more : TransferStatus → Bool}
    {bodies : ℕ → String} {fuel : ℕ} {s : TransferStatus} :
    drive state id more bodies fuel s =
      driveWith (fun _ _ => true) .serverError state id more bodies fuel s := by
  induction fuel generalizing s with
  | zero => rfl
  | succ fuel ih =>
    simp only [drive, driveWith, ih, Bool.not_true, Bool.false_eq_true, if_false]

/-! ### The two loops -/

/-- The drive loops. -/
inductive DriveLoop
  | toAwaitingFunds
  | toCompletion

namespace DriveLoop

/-- The statuses from which a loop goes on. -/
def more : DriveLoop → TransferStatus → Bool
  | toAwaitingFunds, s => s = .created || s = .quoted || s = .screened
  | toCompletion, s => (forwardStep s).isSome

/-- The program of a loop. -/
def prog (l : DriveLoop) (state : AppState) (id : Uuid) (bodies : ℕ → String) :
    Tx TransferStatus :=
  match l with
  | toAwaitingFunds => advanceToAwaitingFunds state id bodies
  | toCompletion => advanceToCompletion state id bodies

/-- A loop with a check and a number of turns. -/
def progWith (ok : TransferStatus → TransferStatus → Bool) (out : ApiError) (turns : ℕ)
    (l : DriveLoop) (state : AppState) (id : Uuid) (bodies : ℕ → String) : Tx TransferStatus := do
  let status ← statusOf id
  driveWith ok out state id l.more bodies turns status

theorem prog_eq (l : DriveLoop) (state : AppState) (id : Uuid) (bodies : ℕ → String) :
    l.prog state id bodies = l.progWith (fun _ _ => true) .serverError 13 state id bodies := by
  cases l <;> simp only [prog, progWith, advanceToAwaitingFunds, advanceToCompletion,
    drive_eq_driveWith] <;> rfl

/-- Where a loop that found a transfer at `source`, and that nobody disturbed, leaves it. -/
def Ends (l : DriveLoop) (onchain : Bool) (source s : TransferStatus) (payload : Option JObj) :
    Prop :=
  match l with
  | toAwaitingFunds => source = .created →
    s = .awaitingFunds ∨ s = .screened ∧ holds payload = true
  | toCompletion => s = .screened ∧ holds payload = true ∨ s = .settling ∧ onchain = true ∨
    s = .reversing ∧ source = .reversing ∨ s.isTerminal = true

end DriveLoop

/-! ### Among other operations -/

/-- A transfer has gone on from a status. -/
def Past (id : Uuid) (s : TransferStatus) (d : World) : Prop :=
  ∃ t, d.transfer id = some t ∧ Relation.ReflTransGen Goes s t.currentStatus

theorem goes_pathEnd {s : TransferStatus} {steps : List PathStep}
    (h : pathAllowed s (steps.map (·.target)) = true) :
    Relation.ReflTransGen Goes s (pathEnd s steps) := by
  induction steps generalizing s with
  | nil => exact .refl
  | cons st steps ih =>
    simp only [List.map_cons, pathAllowed, Bool.and_eq_true, decide_eq_true_eq] at h
    rw [pathEnd_cons]
    exact .head h.1 (ih h.2)

section Turns

variable {ι : Type} {ops : ι → Op} {i : ι} {loc : Loc} {d d' : World} {state : AppState} {id : Uuid}
  {s : TransferStatus}

/-- Whatever others do, a transfer goes on only. -/
theorem Past.rely {w : Option World} (h : Past id s d)
    (hr : (rules noAssumption ops anyChange).Rely loc w d d') : Past id s d' := by
  refine hr.invariant h fun d₁ d₂ h₁ ho => ?_
  cases ho with
  | bump => exact h₁
  | env he => cases he <;> exact h₁
  | guar j ℓ ids _ _ _ hg _ =>
    obtain ⟨ws, rfl, hv, -⟩ := hg
    obtain ⟨t, ht, hgo⟩ := h₁
    obtain ⟨t', ht', hgo'⟩ := goes_applyAll hv ht
    exact ⟨t', ht', hgo.trans hgo'⟩

/-- One turn of a loop ends at the status it began with, or onward from it. -/
theorem advanceOnceOrHold_onward
    (hg : Grants (rules noAssumption ops anyChange) i (AdvanceCommits noAssumption state id))
    {body : String} (h : Idle loc d) (hpast : Past id s d) :
    wp (rules noAssumption ops anyChange) i
      (fun next loc' d' => Idle loc' d' ∧ Past id next d' ∧ Relation.ReflTransGen Goes s next)
      (fun e _ _ => e.code ≠ .conflict) (advanceOnceOrHold state id s body) loc d := by
  have hR : Framed (rules noAssumption ops anyChange) := framed_rules lax_anyChange
  refine wp_tryCatch.2 (wp_mono ?_ ?_ (advanceOnce_advanced hR granted_noAssumption hg h ?_))
  · rintro next loc₁ _ ⟨hc, d₁, ws, rfl, t, steps, rfl, rfl, hm, -, hchecked⟩
    obtain ⟨d₂, hr, ht⟩ := hchecked.found
    obtain ⟨t₂, ht₂, hgo⟩ := hpast.rely hr
    cases ht.symm.trans ht₂
    obtain ⟨t', ht', -, hend⟩ := hm.transfer (.inl rfl)
    exact ⟨hc.toIdle, ⟨t', ht', hend ▸ .refl⟩, hgo.trans (goes_pathEnd hm.allowed)⟩
  · rintro e loc₁ d₁ ⟨hd, hblocked⟩ d₂ hr
    refine ⟨trivial, ?_⟩
    split
    case isFalse => exact hblocked.not_conflict
    case isTrue he =>
    -- The hold: the loop keeps the status it remembers.
    cases hblocked with
    | missing _ _ hcode => rw [hcode] at he; cases he
    | raced | halted => cases he
    | held _ _ hr₁ =>
      exact ⟨{ hd.idle with wf := (hR.rely hr hd.wf).2 }, (hpast.rely hr₁).rely hr, .refl⟩
  · rintro next d₁ ws ⟨t, steps, hid, -, hm, ha, -⟩
    exact ⟨t, steps, hid, hm, ha⟩

/-- The error of a check that fails. -/
def misstep : ApiError := .conflict "The drive has gone astray."

/-- Among any operations, no turn of a loop goes astray and twelve turns are enough. -/
theorem driveWith_onward
    (hg : Grants (rules noAssumption ops anyChange) i (AdvanceCommits noAssumption state id))
    {more : TransferStatus → Bool} {bodies : ℕ → String} {fuel : ℕ} {s : TransferStatus} {loc : Loc}
    {d : World} (h : Idle loc d) (hpast : Past id s d) (hfuel : 11 < s.rank + fuel) :
    wp (rules noAssumption ops anyChange) i (fun _ _ _ => True) (fun e _ _ => e ≠ misstep)
      (driveWith (fun s t => decide (LeadsTo s t)) misstep state id more bodies fuel s) loc d := by
  induction fuel generalizing s loc d with
  | zero => exact absurd (rank_le_eleven s) (by omega)
  | succ fuel ih =>
    simp only [driveWith]
    split
    case isFalse => trivial
    case isTrue =>
    refine wp_bind_of (advanceOnceOrHold_onward hg h hpast)
      (fun e _ _ he hm => he (by rw [hm]; rfl)) ?_
    rintro next loc₁ d₁ ⟨h₁, hpast₁, hgo⟩
    split
    case isTrue => trivial
    case isFalse hne =>
    have hleads : LeadsTo s next :=
      (Relation.reflTransGen_iff_eq_or_transGen.1 hgo).resolve_left hne
    split
    case isTrue hno => exact absurd hleads (by simpa using hno)
    case isFalse =>
    split
    case isTrue => trivial
    case isFalse =>
      have hlt := hleads.rank_lt
      exact ih h₁ hpast₁ (by omega)

/-- A loop among any operations goes wrong in no turn. -/
theorem progWith_onward
    (hg : Grants (rules noAssumption ops anyChange) i (AdvanceCommits noAssumption state id))
    (l : DriveLoop) {bodies : ℕ → String} {turns : ℕ} (hturns : 11 < turns) (h : Idle loc d) :
    wp (rules noAssumption ops anyChange) i (fun _ _ _ => True) (fun e _ _ => e ≠ misstep)
      (l.progWith (fun s t => decide (LeadsTo s t)) misstep turns state id bodies) loc d := by
  have hR : Framed (rules noAssumption ops anyChange) := framed_rules lax_anyChange
  simp only [DriveLoop.progWith, statusOf, Prog.bind_eq, Tx.query, Prog.pure_eq, Prog.bind]
  refine (Ran.refl h.inTx).wp_query hR fun d₁ hr₁ _ => ?_
  cases ht : d₁.transfer id with
  | none =>
    rw [World.status, ht]
    exact fun he => by cases he
  | some t =>
    rw [World.status, ht]
    exact driveWith_onward hg (h.rely hR hr₁) ⟨t, ht, .refl⟩ (by omega)

end Turns

/-! ### Runs -/

/-- A loop with its checks, among the calls of some operations. -/
def amid {ι : Type} (l : DriveLoop) (turns : ℕ) (state : AppState) (id : Uuid) (bodies : ℕ → String)
    (ops : ι → Op) (d : World) : Sys (Option ι) World Write Key Label Failure Answer :=
  ⟨d, fun c => .start (c.elim (wrap .api .status
    (l.progWith (fun s t => decide (LeadsTo s t)) misstep turns state id bodies))
    fun i => (ops i).prog)⟩

/-- A loop that nobody disturbs ends, and answers the stored status; only the second one can fail,
on a balance that 64 bits do not hold. -/
theorem prog_undisturbed {ι : Type} {R : Rules ι World Key Label} {i : ι} (hu : Undisturbed R i)
    {loc : Loc} {d : World} {state : AppState} {id : Uuid} (l : DriveLoop) {bodies : ℕ → String}
    {st : TransferStatus} (h : Idle loc d) (hs : d.status id = some st) :
    wp R i (fun r _ d' => d'.status id = some r ∧
        l.Ends state.settlementOnchain st r (d'.latestPayload id))
      (fun e _ d' => l = .toCompletion ∧ e = .serverError ∧ Stopped R id d')
      (l.prog state id bodies) loc d := by
  cases l with
  | toAwaitingFunds =>
    exact wp_mono (fun _ _ _ hk => hk.2) (fun _ _ _ he => he.elim)
      (advanceToAwaitingFunds_ends hu h hs)
  | toCompletion =>
    exact wp_mono (fun _ _ _ hk => hk.2) (fun _ _ _ he => ⟨rfl, he⟩)
      (advanceToCompletion_undisturbed hu h hs)

/-- **Drive loops end.**  A turn that goes on takes the status that the loop remembers onward along
the table, whatever other operations do between its turns, so no loop needs more than twelve turns.
A loop that runs alone answers the stored status, unless a balance of the customer has outgrown
64 bits, so that its read is the database's error. -/
theorem drive_ends {ι : Type} [DecidableEq ι] (l : DriveLoop) (state : AppState) (id : Uuid)
    (bodies : ℕ → String) (ops : ι → Op) {d₀ : World} (hwf : Wf d₀) :
    l.prog state id bodies = l.progWith (fun _ _ => true) .serverError 13 state id bodies ∧
    (∀ turns s made, 11 < turns → Reach (Step Env) (amid l turns state id bodies ops d₀) s →
      s.calls none ≠ .done (.error (.api misstep)) made) ∧
    ∀ st, d₀.status id = some st →
      (∃ r d', (l.prog state id bodies).alone d₀ [] = (.ok r, d') ∧
        d'.status id = some r ∧ l.Ends state.settlementOnchain st r (d'.latestPayload id)) ∨
      l = .toCompletion ∧ ∃ d', (l.prog state id bodies).alone d₀ [] = (.error .serverError, d') ∧
        Unheld id d' := by
  have hidle : Idle ({ label := default } : Loc) d₀ := ⟨hwf, ⟨rfl, by rintro c ⟨⟩⟩, rfl, rfl⟩
  refine ⟨l.prog_eq state id bodies, fun turns s made hturns hr hdone => ?_, fun st hs => ?_⟩
  · let ops' : Option ι → Op := fun c => c.elim (.advanceToCompletion state id bodies) ops
    have hR : Framed (rules noAssumption ops' anyChange) := framed_rules lax_anyChange
    let Q : Option ι → Except Failure Answer → List (World × World) → World → Prop := fun c =>
      c.elim (fun r _ _ => r ≠ .error (.api misstep)) fun i => (ops i).Post
    have hok : SysOk (rules noAssumption ops' anyChange) Q
      (amid l turns state id bodies ops d₀) := by
      refine .start fun c => ?_
      cases c with
      | some i =>
        exact wp_prog hR granted_noAssumption (fun _ _ => trivial) (grants_rules (some i)) hwf
      | none =>
        refine wp_wrap.2 (wp_mono (fun _ _ _ _ _ _ => nofun) (fun e _ _ he _ _ hm => he ?_)
          (progWith_onward (grants_rules none) l hturns hidle))
        exact Failure.api.inj (Except.error.inj hm)
    have hr := hr.mono fun _ _ _ h => stepIf_of_step h
    exact (hok.reach hR.seqMono hr).answer hdone rfl
  · rcases alone_of_wp framed_quiet.seqMono (prog_undisturbed undisturbed_quiet l hidle hs)
      (by simp) with ⟨r, d', hrun, _, hend⟩ | ⟨e, d', hrun, _, hl, rfl, hstop⟩
    · exact .inl ⟨r, d', hrun, hend⟩
    · exact .inr ⟨hl, d', hrun, hstop.unheld⟩

/-- A creation. -/
def createdOps (_ : Unit) : Op := sampleCreate false "transfer" 3

/-- A database with a transfer that nobody has driven yet. -/
def createdWorld : World :=
  ((play [()] (schedule [((), 24)]) (system createdOps (sampleWorld "NG"))).map (·.shared)).getD {}

theorem wf_createdWorld : Wf createdWorld := by
  unfold createdWorld
  cases h : play [()] (schedule [((), 24)]) (system createdOps (sampleWorld "NG")) with
  | none => exact .of_new rfl rfl rfl rfl rfl rfl rfl (by simp) (by simp)
  | some s =>
    have hr : Reach (Step Env) (system createdOps (sampleWorld "NG")) s :=
      reach_of_play (by simp) (env_schedule _) h
    exact wf_of_reach (wf_sampleWorld "NG") hr

/-- The transfer is driven to `AWAITING_FUNDS` while somebody tries to let it expire. -/
theorem drive_ends_created :
    createdWorld.status 100 = some .created ∧
    (∀ s made, Reach (Step Env) (amid .toAwaitingFunds 13 (sampleState false) 100 (fun _ => "drive")
        (fun _ : Unit => .expireTransfer 100 none) createdWorld) s →
      s.calls none ≠ .done (.error (.api misstep)) made) ∧
    ∃ r d', (advanceToAwaitingFunds (sampleState false) 100 fun _ => "drive").alone createdWorld
      [] = (.ok r, d') ∧ d'.status 100 = some r ∧
      (r = .awaitingFunds ∨ r = .screened ∧ holds (d'.latestPayload 100) = true) := by
  have hcreated : createdWorld.status 100 = some .created := by decide +kernel
  obtain ⟨-, hnever, hends⟩ := drive_ends .toAwaitingFunds (sampleState false) 100
    (fun _ => "drive") (fun _ : Unit => .expireTransfer 100 none) wf_createdWorld
  obtain ⟨r, d', hrun, hst, hend⟩ := (hends _ hcreated).resolve_right fun h => nomatch h.1
  exact ⟨hcreated, fun s made => hnever 13 s made (by omega), r, d', hrun, hst, hend rfl⟩

end Kimana.Engine
