import Kimana.Op.Effect

/-!
# A drive that nobody disturbs

Two loops drive a transfer: the call that has created it takes it to `AWAITING_FUNDS`, and the
development driver as far as it goes.

* `AtRest` : a drive has nothing left to do for a transfer.
* `advanceOnce_undisturbed` : one call of `advanceOnce` takes the forward step, or rejects, or finds
  a hold or a balance that 64 bits do not hold.
* `drive_undisturbed` : a drive ends, and its answer is the stored status.
* `advanceToAwaitingFunds_ends`, `advanceToCompletion_undisturbed` : **where drives end**.
-/

namespace Kimana.Engine

open ReadCommitted Table TransferStatus

/-- The rows that a drive reads are the same. -/
structure SameRows (d d' : World) : Prop where
  transfers : d'.transfers = d.transfers
  history : d'.history = d.history
  accounts : d'.accounts = d.accounts

namespace SameRows

variable {d d₁ d' : World}

theorem refl (d : World) : SameRows d d := ⟨rfl, rfl, rfl⟩

theorem trans (h : SameRows d d₁) (h' : SameRows d₁ d') : SameRows d d' :=
  ⟨h'.transfers.trans h.transfers, h'.history.trans h.history, h'.accounts.trans h.accounts⟩

theorem transfer (h : SameRows d d') (id : Uuid) : d'.transfer id = d.transfer id := by
  unfold World.transfer
  rw [h.transfers]

theorem status (h : SameRows d d') (id : Uuid) : d'.status id = d.status id := by
  rw [World.status, h.transfer, World.status]

theorem latestPayload (h : SameRows d d') (id : Uuid) :
    d'.latestPayload id = d.latestPayload id := by
  unfold World.latestPayload World.historyOf
  rw [h.history]

theorem of_env (h : Env d d') : SameRows d d' := by
  cases h <;> exact ⟨rfl, rfl, rfl⟩

end SameRows

/-- A drive has nothing left to do for a transfer: it is past `SCREENED`, or held there. -/
def AtRest (d : World) (id : Uuid) : Prop :=
  ∀ s ∈ d.status id, s ≠ .created ∧ s ≠ .quoted ∧
    (s = .screened → holds (d.latestPayload id) = true)

instance (d : World) (id : Uuid) : Decidable (AtRest d id) := by
  unfold AtRest
  infer_instance

theorem AtRest.of_sameRows {d d' : World} {id : Uuid} (h : AtRest d id) (hs : SameRows d d') :
    AtRest d' id := by
  unfold AtRest
  rw [hs.status, hs.latestPayload]
  exact h

/-- Nobody else moves a transfer. -/
structure Undisturbed {ι : Type} (R : Rules ι World Key Label) (i : ι) : Prop where
  framed : Framed R
  grants : Grants R i fun _ _ => True
  same : ∀ {loc : Loc} {w : Option World} {d d' : World}, R.Rely loc w d d' → SameRows d d'

/-- The rules of a call whose transfer nobody else moves. -/
def undisturbed (ι : Type) : Rules ι World Key Label where
  guar _ ℓ ids d d' := ∃ ws, d' = applyAll ws d ∧ Valid ℓ ids d ws
  env := Env
  cond _ _ := SameRows

variable {ι : Type} {R : Rules ι World Key Label} {i : ι} {loc : Loc} {d d' : World}

theorem framed_undisturbed : Framed (undisturbed ι) where
  guar _ _ _ _ _ h := h
  agree ℓ ids _ _ h := h.agree ℓ ids
  wf _ _ h := h.wf
  nextId _ _ h := by cases h <;> exact le_rfl
  cond _ _ _ _ h := h
  stand _ _ _ := trivial

theorem sameRows_of_rely {w : Option World} (h : (undisturbed ι).Rely loc w d d') :
    SameRows d d' := by
  refine h.invariant (P := SameRows d) (.refl d) fun d₁ d₂ h₁ ho => h₁.trans ?_
  cases ho with
  | bump => exact ⟨rfl, rfl, rfl⟩
  | guar _ _ _ _ _ _ _ hc => exact hc
  | env _ hc => exact hc

theorem undisturbed_rules : Undisturbed (undisturbed ι) i where
  framed := framed_undisturbed
  grants _ _ _ ws hv _ := ⟨ws, rfl, hv⟩
  same := sameRows_of_rely

theorem undisturbed_quiet : Undisturbed quiet () where
  framed := framed_quiet
  grants _ _ _ ws hv _ := ⟨ws, rfl, hv⟩
  same h := by
    rw [eq_of_quiet h]
    exact ⟨rfl, rfl, rfl⟩

theorem Undisturbed.not_raced (hu : Undisturbed R i) (loc : Loc) : ¬ Raced R loc := by
  rintro ⟨_, d, d', -, hr, hne⟩
  exact hne (hu.same hr).accounts.symm

/-! ### One step -/

/-- Where one call of `advanceOnce` leaves a transfer that it found at `s`. -/
inductive Turn (onchain : Bool) (s : TransferStatus) : TransferStatus → Prop
  | stay : nextStep onchain s = none → Turn onchain s s
  | forward {next : TransferStatus} : nextStep onchain s = some next → Turn onchain s next
  | reject : s = .awaitingFunds → Turn onchain s .rejected

theorem Turn.goes {onchain : Bool} {s next : TransferStatus} (h : Turn onchain s next)
    (hne : next ≠ s) : next ∈ s.allowed := by
  cases h with
  | stay => exact absurd rfl hne
  | forward h => exact forwardStep_mem (Option.filter_eq_some_iff.1 h).1
  | reject h => rw [h]; decide

theorem Turn.stays {onchain : Bool} {s : TransferStatus} (h : Turn onchain s s) :
    nextStep onchain s = none := by
  cases h with
  | stay h => exact h
  | forward h =>
    exact absurd (rank_lt (forwardStep_mem (Option.filter_eq_some_iff.1 h).1)) (lt_irrefl _)
  | reject h => cases h

theorem nextStep_eq_none {onchain : Bool} {s : TransferStatus} (h : nextStep onchain s = none) :
    s.forwardStep = none ∨ s = .settling ∧ onchain = true := by
  cases hf : s.forwardStep with
  | none => exact .inl rfl
  | some next =>
    have := Option.filter_eq_none_iff.1 h next hf
    exact .inr (by simpa using this)

theorem reversing_or_isTerminal {s : TransferStatus} (h : s.forwardStep = none) :
    s = .reversing ∨ s.isTerminal = true := by
  cases s <;> simp_all [forwardStep, isTerminal]

/-- A call has met a balance of the transfer's customer that 64 bits do not hold. -/
def Stopped (R : Rules ι World Key Label) (id : Uuid) (d' : World) : Prop :=
  ∃ loc₁ d₁, Unheld id d₁ ∧ R.Rely loc₁ none d₁ d'

theorem Stopped.unheld {id : Uuid} (h : Stopped quiet id d) : Unheld id d := by
  obtain ⟨loc₁, d₁, hun, hr⟩ := h
  rw [eq_of_quiet hr]
  exact hun

/-- One call of `advanceOnce` takes the forward step, or rejects, or finds the transfer held or a
balance that 64 bits do not hold. -/
theorem advanceOnce_undisturbed (hu : Undisturbed R i) (h : Idle loc d) {state : AppState}
    {id : Uuid} {actor : Option Uuid} {body : String} {s : TransferStatus}
    (hs : d.status id = some s) :
    wp R i
      (fun next loc' d' => Idle loc' d' ∧ Turn state.settlementOnchain s next ∧
        d'.status id = some next)
      (fun e loc' d' => Dropped loc loc' d' ∧ SameRows d d' ∧
        (e.code = .complianceHold ∧ s = .screened ∧ holds (d.latestPayload id) = true ∨
          e = .serverError ∧ awaitingFunds.rank ≤ s.rank ∧ Unheld id d'))
      (advanceOnce state id actor body) loc d := by
  refine wp_mono ?_ ?_ (advanceOnce_advanced hu.framed granted_noAssumption hu.grants h
    fun _ _ _ _ => trivial)
  · rintro next loc' _ ⟨hc, d₁, ws, rfl, t, steps, rfl, rfl, hm, hadv, hchecked⟩
    obtain ⟨d₂, hr, ht⟩ := hchecked.found
    -- Nobody else moves the transfer, so the locked row has the status that was asked about.
    have hst : t.currentStatus = s := by
      have := ((hu.same hr).status t.id).trans hs
      rw [World.status, ht] at this
      exact Option.some.inj this
    obtain ⟨t', ht', -, hend⟩ := hm.transfer (.inl rfl)
    refine ⟨hc.toIdle, ?_, by rw [World.status, ht', Option.map_some, hend]⟩
    subst hst
    cases hadv with
    | stay => exact .stay (hchecked.stay rfl)
    | forward st hf hno =>
      refine .forward (Option.filter_eq_some_iff.2 ⟨hf, ?_⟩)
      simpa [or_iff_not_imp_left] using hno
    | reject payee ha => exact .reject ha
  · rintro e loc' d' ⟨hd, hblocked⟩
    refine ⟨hd, ?_⟩
    cases hblocked with
    | missing hr hnone =>
      have := ((hu.same hr).status id).trans hs
      rw [World.status, hnone] at this
      cases this
    | held hr hheld hr' hst he =>
      have hsame := hu.same hr'
      rw [hsame.status, hs] at hst
      rw [(hu.same hr).latestPayload] at hheld
      exact ⟨hsame, .inl ⟨he, Option.some.inj hst, hheld⟩⟩
    | raced hr => exact absurd hr (hu.not_raced _)
    | halted hid hr hhalt =>
      have hsame := (hu.same hr).trans (hu.same hhalt.rely)
      have hst := (hsame.status id).trans hs
      subst hid
      rw [World.status, hhalt.row] at hst
      cases hst
      exact ⟨hsame, .inr ⟨rfl, hhalt.rank, hhalt.unheld⟩⟩

/-! ### The drive -/

/-- One turn of a drive, or the transfer is held where it is; it fails only on a balance that 64
bits do not hold. -/
theorem advanceOnceOrHold_undisturbed (hu : Undisturbed R i) (h : Idle loc d) {state : AppState}
    {id : Uuid} {body : String} {s : TransferStatus} (hs : d.status id = some s) :
    wp R i
      (fun next loc' d' => Idle loc' d' ∧ d'.status id = some next ∧
        (Turn state.settlementOnchain s next ∨
          next = s ∧ s = .screened ∧ holds (d'.latestPayload id) = true))
      (fun e _ d' => e = .serverError ∧ awaitingFunds.rank ≤ s.rank ∧ Stopped R id d')
      (advanceOnceOrHold state id s body) loc d := by
  refine wp_tryCatch.2 (wp_mono ?_ ?_ (advanceOnce_undisturbed hu h hs))
  · rintro next loc₁ d₁ ⟨h₁, hturn, hst⟩
    exact ⟨h₁, hst, .inl hturn⟩
  · rintro e loc₁ d₁ ⟨hd, hsame, he⟩ d₂ hr
    have hsame₂ := hsame.trans (hu.same hr)
    refine ⟨hu.framed.stand _ _ (.inl hd.calm), ?_⟩
    rcases he with ⟨he, hscr, hheld⟩ | ⟨rfl, hrank, hun⟩
    · rw [if_pos he]
      exact ⟨{ hd.idle with wf := (hu.framed.rely hr hd.wf).2 },
        (hsame₂.status id).trans hs, .inr ⟨rfl, hscr, by rw [hsame₂.latestPayload, hheld]⟩⟩
    · rw [if_neg (by decide)]
      exact ⟨rfl, hrank, _, d₁, hun, hr⟩

/-- Why a drive leaves a transfer at `s`. -/
structure Left (onchain : Bool) (more : TransferStatus → Bool) (id : Uuid) (s : TransferStatus)
    (d : World) : Prop where
  stored : d.status id = some s
  why : more s = false ∨ s.isTerminal = true ∨ nextStep onchain s = none ∨
    s = .screened ∧ holds (d.latestPayload id) = true

/-- Why a drive fails: on its way from `AWAITING_FUNDS` on it met a balance that 64 bits do not
hold. -/
def Fails (R : Rules ι World Key Label) (more : TransferStatus → Bool) (id : Uuid) (e : ApiError)
    (d : World) : Prop :=
  e = .serverError ∧ (∃ s, more s = true ∧ awaitingFunds.rank ≤ s.rank) ∧ Stopped R id d

/-- A drive ends within twelve turns; `J` is what its turns keep. -/
theorem drive_undisturbed (hu : Undisturbed R i) {state : AppState} {id : Uuid}
    {more : TransferStatus → Bool} {bodies : ℕ → String} {J : TransferStatus → Prop}
    (hJ : ∀ s next, more s = true → Turn state.settlementOnchain s next → J s → J next) {fuel : ℕ}
    {s : TransferStatus} {loc : Loc} {d : World} (h : Idle loc d) (hs : d.status id = some s)
    (hj : J s) (hfuel : 11 < s.rank + fuel) :
    wp R i
      (fun r loc' d' => Idle loc' d' ∧ J r ∧ Left state.settlementOnchain more id r d')
      (fun e _ d' => Fails R more id e d') (drive state id more bodies fuel s) loc d := by
  induction fuel generalizing s loc d with
  | zero => exact absurd (rank_le_eleven s) (by omega)
  | succ fuel ih =>
    simp only [drive]
    split
    case isFalse hdone => exact ⟨h, hj, hs, .inl (by simpa using hdone)⟩
    case isTrue hmore =>
    refine wp_bind_of (advanceOnceOrHold_undisturbed hu h hs)
      (fun _ _ _ he => ⟨he.1, ⟨s, hmore, he.2.1⟩, he.2.2⟩) ?_
    rintro next loc₁ d₁ ⟨h₁, hs₁, hturn | ⟨rfl, hheld⟩⟩
    · have hj₁ := hJ _ _ hmore hturn hj
      split
      case isTrue heq =>
        subst heq
        exact ⟨h₁, hj, hs₁, .inr (.inr (.inl hturn.stays))⟩
      case isFalse hne =>
      split
      case isTrue hterm => exact ⟨h₁, hj₁, hs₁, .inr (.inl hterm)⟩
      case isFalse =>
        -- The turn went on, so it raised the status.
        have hlt := rank_lt (hturn.goes hne)
        exact ih h₁ hs₁ hj₁ (by omega)
    · rw [if_pos rfl]
      exact ⟨h₁, hj, hs₁, .inr (.inr (.inr hheld))⟩

/-- A drive from the stored status. -/
theorem loop_undisturbed (hu : Undisturbed R i) {state : AppState} {id : Uuid}
    {more : TransferStatus → Bool} {bodies : ℕ → String} {J : TransferStatus → Prop}
    (hJ : ∀ s next, more s = true → Turn state.settlementOnchain s next → J s → J next)
    {s : TransferStatus} (h : Idle loc d) (hs : d.status id = some s) (hj : J s) :
    wp R i
      (fun r loc' d' => Idle loc' d' ∧ J r ∧ Left state.settlementOnchain more id r d')
      (fun e _ d' => Fails R more id e d')
      ((statusOf id).bind fun s => drive state id more bodies 13 s) loc d := by
  simp only [statusOf, Prog.bind_eq, Tx.query, Prog.pure_eq, Prog.bind]
  refine (Ran.refl h.inTx).wp_query hu.framed fun d₁ hr₁ _ => ?_
  have hs₁ := ((hu.same hr₁).status id).trans hs
  rw [hs₁]
  exact drive_undisturbed hu hJ (h.rely hu.framed hr₁) hs₁ hj (by omega)

/-- The first loop posts nothing, so it meets no balance. -/
theorem not_fails_of_more {id : Uuid} {e : ApiError}
    (h : Fails R (fun s => s = .created || s = .quoted || s = .screened) id e d) : False := by
  obtain ⟨-, ⟨s, hmore, hrank⟩, -⟩ := h
  revert hmore hrank
  cases s <;> decide

/-- **The drive**: when nobody else moves a transfer it ends with the transfer driven. -/
theorem advanceToAwaitingFunds_undisturbed (hu : Undisturbed R i) (h : Idle loc d)
    {state : AppState} {id : Uuid} {bodies : ℕ → String} {s : TransferStatus}
    (hs : d.status id = some s) :
    wp R i (fun _ loc' d' => Idle loc' d' ∧ AtRest d' id) (fun _ _ _ => False)
      (advanceToAwaitingFunds state id bodies) loc d := by
  refine wp_mono ?_ (fun _ _ _ he => not_fails_of_more he)
    (loop_undisturbed hu (J := fun _ => True) (fun _ _ _ _ _ => trivial) h hs trivial)
  rintro r loc₁ d₁ ⟨h₁, -, hst, hwhy⟩
  refine ⟨h₁, fun r' hr' => ?_⟩
  cases hst.symm.trans hr'
  rcases hwhy with hmore | hterm | hnone | ⟨rfl, hheld⟩
  · simp only [Bool.or_eq_false_iff, decide_eq_false_iff_not] at hmore
    exact ⟨hmore.1.1, hmore.1.2, fun hs => absurd hs hmore.2⟩
  · cases r <;> simp_all [isTerminal]
  · cases r <;> simp_all [nextStep, forwardStep]
  · exact ⟨by decide, by decide, fun _ => hheld⟩

/-- It answers the stored status: from `CREATED`, `AWAITING_FUNDS` or a held `SCREENED`. -/
theorem advanceToAwaitingFunds_ends (hu : Undisturbed R i) (h : Idle loc d) {state : AppState}
    {id : Uuid} {bodies : ℕ → String} {s : TransferStatus} (hs : d.status id = some s) :
    wp R i (fun r loc' d' => Idle loc' d' ∧ d'.status id = some r ∧ (s = .created →
        r = .awaitingFunds ∨ r = .screened ∧ holds (d'.latestPayload id) = true))
      (fun _ _ _ => False) (advanceToAwaitingFunds state id bodies) loc d := by
  refine wp_mono ?_ (fun _ _ _ he => not_fails_of_more he) (loop_undisturbed hu
    (J := fun r => s = .created → r.rank ≤ awaitingFunds.rank) (fun r next hmore hturn _ _ => ?_) h
    hs fun hs => by rw [hs]; decide)
  · rintro r loc₁ d₁ ⟨h₁, hle, hst, hwhy⟩
    refine ⟨h₁, hst, fun hcreated => ?_⟩
    have hle := hle hcreated
    rcases hwhy with hmore | hterm | hnone | hheld
    · left
      cases r <;> simp_all [rank]
    · cases r <;> simp_all [rank, isTerminal]
    · cases r <;> simp_all [rank, nextStep, forwardStep]
    · exact .inr hheld
  · -- The loop goes on from the three statuses before it.
    have hr : r = .created ∨ r = .quoted ∨ r = .screened := by simpa [or_assoc] using hmore
    cases hturn with
    | stay hnone => rcases hr with rfl | rfl | rfl <;> cases hnone
    | forward hnext => rcases hr with rfl | rfl | rfl <;> cases hnext <;> decide
    | reject hawait => rw [hawait] at hmore; cases hmore

/-- **The drive to completion**: it ends where only an event, a decision on a hold or the completion
of a reversal can move the transfer on, or fails on a balance that 64 bits do not hold. -/
theorem advanceToCompletion_undisturbed (hu : Undisturbed R i) (h : Idle loc d) {state : AppState}
    {id : Uuid} {bodies : ℕ → String} {s : TransferStatus} (hs : d.status id = some s) :
    wp R i (fun r loc' d' => Idle loc' d' ∧ d'.status id = some r ∧
        (r = .screened ∧ holds (d'.latestPayload id) = true ∨
          r = .settling ∧ state.settlementOnchain = true ∨ r = .reversing ∧ s = .reversing ∨
          r.isTerminal = true))
      (fun e _ d' => e = .serverError ∧ Stopped R id d')
      (advanceToCompletion state id bodies) loc d := by
  refine wp_mono ?_ (fun _ _ _ he => ⟨he.1, he.2.2⟩) (loop_undisturbed hu
    (J := fun r => r = .reversing → s = .reversing) (fun r next hmore hturn hj => ?_) h hs
    fun he => he)
  · rintro r loc₁ d₁ ⟨h₁, hrev, hst, hwhy⟩
    refine ⟨h₁, hst, ?_⟩
    have hlast : r.forwardStep = none → r = .reversing ∧ s = .reversing ∨ r.isTerminal = true :=
      fun hnone => (reversing_or_isTerminal hnone).imp (fun he => ⟨he, hrev he⟩) fun ht => ht
    rcases hwhy with hmore | hterm | hnone | hheld
    · exact .inr (.inr (hlast (Option.isSome_eq_false_iff.1 hmore |> Option.isNone_iff_eq_none.1)))
    · exact .inr (.inr (.inr hterm))
    · rcases nextStep_eq_none hnone with hnone | hsettling
      · exact .inr (.inr (hlast hnone))
      · exact .inr (.inl hsettling)
    · exact .inl hheld
  · rintro rfl
    cases hturn with
    | stay => exact hj rfl
    | forward hnext =>
      have := (Option.filter_eq_some_iff.1 hnext).1
      cases r <;> cases this

end Kimana.Engine
