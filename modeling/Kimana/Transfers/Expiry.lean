import Kimana.ReadCommitted.Never
import Kimana.Transfers.Exhaustion

/-!
# Quotes that expire while a call waits

`createTransfer` compares the expiry of its quote with the clock once, before it waits for a
connection and for the customer's row, and the update that claims the quote does not look at it
again.

* `never_createTransfer` : a call that has not made the comparison claims no expired quote.
* `claimed_in_time` : **no expired quote is claimed**, in every run in which no quote expires while
  a call stands between its comparison and its claim.
* `claimed_late` : a call that waits too long claims an expired quote.
-/

namespace Kimana.Service

open ReadCommitted Table

/-- The update that claims a quote. -/
def Claims (quoteId : Uuid) (w : Write) : Prop := ∃ id, w = .consumeQuote quoteId id

/-- A quote that expires at a time has expired. -/
structure Past (quoteId : Uuid) (expiry : Time) (d : World) : Prop where
  quote : ∀ q, d.quote quoteId = some q → q.expiresAt = expiry
  clock : expiry ≤ d.clock

/-! ### Expiries do not change -/

theorem expiries_applyAll (ws : List Write) (d : World) (quoteId : Uuid) :
    ((applyAll ws d).quote quoteId).map (·.expiresAt) = (d.quote quoteId).map (·.expiresAt) := by
  induction ws generalizing d with
  | nil => rfl
  | cons w ws ih =>
    rw [applyAll_cons, ih]
    cases w <;> try rfl
    case consumeQuote id transferId => exact map_find?_updateWhere (fun _ => rfl) fun _ => rfl

theorem clock_applyAll (ws : List Write) (d : World) : (applyAll ws d).clock = d.clock := by
  induction ws generalizing d with
  | nil => rfl
  | cons w ws ih =>
    rw [applyAll_cons, ih]
    cases w <;> rfl

/-- The quote and the clock are all that counts. -/
theorem Past.congr {quoteId : Uuid} {expiry : Time} {d d' : World} (h : Past quoteId expiry d)
    (hq : (d'.quote quoteId).map (·.expiresAt) = (d.quote quoteId).map (·.expiresAt))
    (hc : d'.clock = d.clock) : Past quoteId expiry d' := by
  refine ⟨fun q hq' => ?_, hc ▸ h.clock⟩
  rw [hq', Option.map_some] at hq
  obtain ⟨q₀, hq₀, he⟩ := Option.map_eq_some_iff.1 hq.symm
  exact he ▸ h.quote q₀ hq₀

theorem Past.applyAll {quoteId : Uuid} {expiry : Time} (ws : List Write) (d : World)
    (h : Past quoteId expiry d) : Past quoteId expiry (applyAll ws d) :=
  h.congr (expiries_applyAll ws d quoteId) (clock_applyAll ws d)

/-! ### A call that has not compared -/

/-- A write that claims a quote, if any, claims this one. -/
def ClaimsOnly (quoteId : Uuid) (w : Write) : Prop := ∀ q, Claims q w → q = quoteId

theorem creating_claims (quoteId : Uuid) :
    Walks.Creating quoteId (ClaimsOnly quoteId) fun _ => True where
  write w hw _ := by
    rintro q ⟨id, rfl⟩
    exact hw.elim
  rows _ _ := by
    rintro q ⟨id, he⟩
    cases he
  lock _ _ := trivial
  inserts _ := by
    rintro q ⟨id, he⟩
    cases he
  claims id := by
    rintro q ⟨id', he⟩
    cases he
    rfl
  refers _ _ := by
    rintro q ⟨id, he⟩
    cases he
  keys _ _ := trivial

/-- The row that a creation finds is that of its quote. -/
theorem id_of_found {d : World} {quoteId : Uuid} {p : Quote.StoredQuote → Bool}
    {quote : Quote.StoredQuote}
    (h : ((d.quote quoteId).map Quote.intoStored).filter p = some quote) :
    quote.id = quoteId ∧ ∃ row, d.quote quoteId = some row ∧ row.expiresAt = quote.expiresAt := by
  obtain ⟨hmap, -⟩ := Option.filter_eq_some_iff.1 h
  obtain ⟨row, hrow, rfl⟩ := Option.map_eq_some_iff.1 hmap
  have hid : row.id = quoteId := by simpa using List.find?_some hrow
  exact ⟨hid, row, hrow, rfl⟩

/-- A creation claims no quote but its own. -/
theorem writes_createTransfer (r : CreateRequest) :
    r.prog.Writes (ClaimsOnly r.input.quoteId) (fun _ => False) fun _ => True := by
  unfold CreateRequest.prog createTransfer
  generalize Util.byteLen (Util.trim r.input.idempotencyKey) = len
  split
  · trivial
  refine Prog.Writes.bind (fun _ => trivial) fun found => ?_
  split
  · trivial
  intro d₁
  simp only [Prog.pure_eq, Prog.bind]
  split
  · trivial
  next quote hquote =>
  have hwalk := creating_claims r.input.quoteId
  intro d₂
  simp only [Prog.bind_eq, Prog.bind]
  split
  · trivial
  intro d₃
  dsimp only
  split
  · trivial
  refine Prog.Writes.bind (fun _ => trivial) fun conn => ?_
  refine Prog.Writes.bind (fun _ d => ?_) fun limits => ?_
  · dsimp only
    split <;> trivial
  refine Walks.writes (K := fun _ => True) ((Walks.findByIdempotencyKey ..).bind fun again => ?_)
  split
  · exact Walks.rollback.bind fun _ => .ret _
  refine (Walks.checkExposureLimits ..).bind fun _ =>
    (Walks.insertTransfer hwalk _ _ _ _ _ _ _ (id_of_found hquote).1).bind fun inserted => ?_
  split
  · exact .ret _
  refine (Walks.advanceToAwaitingFunds hwalk.toBasic ..).bind fun _ =>
    .bind (Walks.query.bind fun _ => .ret _) fun t => ?_
  split
  · exact .ret _
  · exact .fail _

/-- A call that begins claims no expired quote. -/
theorem never_createTransfer (r : CreateRequest) (quoteId : Uuid) (expiry : Time) :
    r.prog.Never (Past quoteId expiry) (Claims quoteId) := by
  by_cases hne : quoteId = r.input.quoteId
  case neg => exact never_of_writes (fun w hw hc => hne (hw _ hc)) (writes_createTransfer r)
  subst hne
  unfold CreateRequest.prog createTransfer
  generalize Util.byteLen (Util.trim r.input.idempotencyKey) = len
  split
  · trivial
  refine Prog.Never.bind (fun _ _ => trivial) fun found => ?_
  split
  · trivial
  intro d₁ h₁
  simp only [Prog.pure_eq, Prog.bind]
  split
  · trivial
  next quote hquote =>
  obtain ⟨-, row, hrow, hexpires⟩ := id_of_found hquote
  intro d₂ h₂
  simp only [Prog.bind_eq, Prog.bind]
  split
  · trivial
  next hlive => exact absurd (hexpires ▸ (h₁.quote row hrow).symm ▸ h₂.clock) hlive

/-! ### Runs -/

section Runs

variable {ι : Type} [DecidableEq ι] {calls : ι → CreateRequest} {d₀ : World}

/-- The calls have not begun. -/
def creations (calls : ι → CreateRequest) (d : World) :
    Sys ι World Write Key Label ApiError Transfer :=
  ⟨d, fun i => .start (calls i).prog⟩

/-- No quote expires in a step while a call stands where it would claim the quote all the same:
between its comparison and its claim. -/
def InTime (s s' : Sys ι World Write Key Label ApiError Transfer) : Prop :=
  ∀ quoteId q, s.shared.quote quoteId = some q → s.shared.clock < q.expiresAt →
    q.expiresAt ≤ s'.shared.clock →
    ∀ i, (s.calls i).Never (Past quoteId q.expiresAt) (Claims quoteId)

/-- A step in which no such quote expires. -/
def StepInTime (e : Event ι) (s s' : Sys ι World Write Key Label ApiError Transfer) : Prop :=
  Step Env e s s' ∧ InTime s s'

/-- No call goes on to claim a quote that has expired, and none changes anything at once. -/
structure Unclaimed (s : Sys ι World Write Key Label ApiError Transfer) : Prop where
  never : ∀ quoteId q, s.shared.quote quoteId = some q → q.expiresAt ≤ s.shared.clock →
    ∀ i, (s.calls i).Never (Past quoteId q.expiresAt) (Claims quoteId)
  quiet : ∀ i, (s.calls i).Never (fun _ => True) fun _ => False

omit [DecidableEq ι] in
theorem unclaimed_start : Unclaimed (creations calls d₀) where
  never quoteId _ _ _ i := (Call.never_settle (never_createTransfer (calls i) quoteId _)).1
  quiet i := (Call.never_settle (never_of_writes (fun _ _ => not_false)
    (writes_createTransfer (calls i)))).1

/-- A step changes no expiry, and only the environment moves the clock. -/
theorem expiry_of_step {e : Event ι} {s s' : Sys ι World Write Key Label ApiError Transfer}
    (hquiet : ∀ i, (s.calls i).Never (fun _ => True) fun _ => False) (hst : Step Env e s s')
    (quoteId : Uuid) :
    (s'.shared.quote quoteId).map (·.expiresAt) = (s.shared.quote quoteId).map (·.expiresAt) ∧
      (e = .env ∨ s'.shared.clock = s.shared.clock) := by
  cases e with
  | env =>
    obtain ⟨d, he, rfl⟩ := hst
    cases he <;> exact ⟨rfl, .inl rfl⟩
  | crash j =>
    obtain ⟨p, loc, w, hj, rfl⟩ := hst
    exact ⟨rfl, .inr rfl⟩
  | go j =>
    obtain ⟨free, -, d, c, hn, rfl⟩ := hst
    rcases Call.shared_next hn with rfl | rfl | ⟨ws, rfl⟩ | ⟨u, f, loc, w, hc⟩
    · exact ⟨rfl, .inr rfl⟩
    · exact ⟨rfl, .inr rfl⟩
    · exact ⟨expiries_applyAll ws _ quoteId, .inr (clock_applyAll ws _)⟩
    · have := hquiet j
      rw [hc] at this
      exact this.elim

/-- Where a call stands that does not move. -/
theorem never_of_step {S : World → Prop} {N : Write → Prop}
    (hS : ∀ ws d, S d → S (applyAll ws d)) {e : Event ι}
    {s s' : Sys ι World Write Key Label ApiError Transfer} (hst : Step Env e s s')
    {i : ι} (hs : e = .go i → S s.shared) (h : (s.calls i).Never S N) :
    (s'.calls i).Never S N ∧ ∀ w ∈ (s'.calls i).pending, N w → w ∈ (s.calls i).pending := by
  cases e with
  | env =>
    obtain ⟨d, -, rfl⟩ := hst
    exact ⟨h, fun _ hw _ => hw⟩
  | crash j =>
    obtain ⟨p, loc, w, hj, rfl⟩ := hst
    by_cases hij : i = j
    · subst hij
      simp [Call.Never, Call.pending]
    · simp only [Function.update_of_ne hij]
      exact ⟨h, fun _ hw _ => hw⟩
  | go j =>
    obtain ⟨free, -, d, c, hn, rfl⟩ := hst
    by_cases hij : i = j
    · subst hij
      simpa using Call.never_next hS h (hs rfl) hn
    · simp only [Function.update_of_ne hij]
      exact ⟨h, fun _ hw _ => hw⟩

/-- A quote that has expired after a step is claimed by nobody from its beginning on. -/
theorem Unclaimed.before {e : Event ι} {s s' : Sys ι World Write Key Label ApiError Transfer}
    (h : Unclaimed s) (hst : StepInTime e s s') {quoteId : Uuid} {q : QuoteRow}
    (hq : s'.shared.quote quoteId = some q) (hexp : q.expiresAt ≤ s'.shared.clock) (i : ι) :
    (s.calls i).Never (Past quoteId q.expiresAt) (Claims quoteId) ∧
      (e = .go i → Past quoteId q.expiresAt s.shared) := by
  obtain ⟨hsame, hclock⟩ := expiry_of_step h.quiet hst.1 quoteId
  rw [hq, Option.map_some] at hsame
  obtain ⟨q₀, hq₀, he⟩ := Option.map_eq_some_iff.1 hsame.symm
  constructor
  · rw [← he] at hexp ⊢
    rcases Nat.lt_or_ge s.shared.clock q₀.expiresAt with hlt | hle
    · exact hst.2 quoteId q₀ hq₀ hlt hexp i
    · exact h.never quoteId q₀ hq₀ hle i
  · rintro rfl
    refine ⟨fun q₁ hq₁ => ?_, hclock.resolve_left nofun ▸ hexp⟩
    rw [hq₀, Option.some.injEq] at hq₁
    exact hq₁ ▸ he

theorem Unclaimed.step {e : Event ι} {s s' : Sys ι World Write Key Label ApiError Transfer}
    (h : Unclaimed s) (hst : StepInTime e s s') : Unclaimed s' where
  never quoteId q hq hexp i := by
    obtain ⟨hnever, hpast⟩ := h.before hst hq hexp i
    exact (never_of_step Past.applyAll hst.1 hpast hnever).1
  quiet i := (never_of_step (fun _ _ _ => trivial) hst.1 (fun _ => trivial) (h.quiet i)).1

/-- **No expired quote is claimed**, in every run in which no quote expires while a call stands
between its comparison and its claim: whatever step makes the claim does so before the quote's
expiry. -/
theorem claimed_in_time {e : Event ι} {s s' : Sys ι World Write Key Label ApiError Transfer}
    (hr : Reach StepInTime (creations calls d₀) s) (hst : StepInTime e s s') {i : ι}
    {quoteId id : Uuid} (hclaim : .consumeQuote quoteId id ∈ (s'.calls i).pending)
    (hnew : .consumeQuote quoteId id ∉ (s.calls i).pending) {q : QuoteRow}
    (hq : s.shared.quote quoteId = some q) : s.shared.clock < q.expiresAt := by
  have h : Unclaimed s := hr.invariant unclaimed_start fun _ _ _ _ hi hst => hi.step hst
  by_contra hle
  have hexp : q.expiresAt ≤ s.shared.clock := Nat.le_of_not_lt hle
  have hpast : Past quoteId q.expiresAt s.shared :=
    ⟨fun q₁ hq₁ => by rw [hq, Option.some.injEq] at hq₁; rw [hq₁], hexp⟩
  exact hnew ((never_of_step Past.applyAll hst.1 (fun _ => hpast) (h.never quoteId q hq hexp i)).2 _
    hclaim ⟨id, rfl⟩)

/-- Without the environment the clock stands still, and no quote expires. -/
theorem reach_inTime {s : Sys ι World Write Key Label ApiError Transfer}
    (hr : Reach (fun e s s' => Step Env e s s' ∧ e ≠ .env) (creations calls d₀) s) :
    Reach StepInTime (creations calls d₀) s := by
  induction hr with
  | refl => exact .refl
  | tail _ hst ih =>
    obtain ⟨e, hst, hne⟩ := hst
    have h : Unclaimed _ := ih.invariant unclaimed_start fun _ _ _ _ hi hst => hi.step hst
    have hclock := fun quoteId => (expiry_of_step h.quiet hst quoteId).2.resolve_left hne
    exact ih.tail ⟨e, hst, fun quoteId _ _ hlt hle =>
      absurd (hclock quoteId ▸ hle) (Nat.not_le_of_lt hlt)⟩

end Runs

/-- One call. -/
def oneCreation : Sys (Fin 1) World Write Key Label ApiError Transfer :=
  creations (fun _ => sampleRequest) (sampleWorld "NG")

/-- A call moves, not the environment. -/
def isGo (e : Event (Fin 1)) (_ : Sys (Fin 1) World Write Key Label ApiError Transfer) : Bool :=
  match e with
  | .go _ => true
  | _ => false

/-- A call that nothing delays claims its quote in time. -/
theorem claimed_of_prompt :
    ∃ s s' q, Reach StepInTime oneCreation s ∧ StepInTime (.go 0) s s' ∧
      .consumeQuote 3 100 ∈ (s'.calls 0).pending ∧ s.shared.quote 3 = some q ∧
      s.shared.clock < q.expiresAt := by
  have hrun : ((playChecked isGo [0] (schedule [(0, 18)]) oneCreation).any fun s =>
      (s.shared.quote 3).isSome && decide (.consumeQuote 3 100 ∉ (s.calls 0).pending) &&
        (playMove [0] s (.go 0)).any fun s' =>
          decide (.consumeQuote 3 100 ∈ (s'.calls 0).pending)) = true := by decide +kernel
  obtain ⟨s, hs, hrun⟩ := (Option.any_eq_true ..).1 hrun
  simp only [Bool.and_eq_true, decide_eq_true_eq] at hrun
  obtain ⟨⟨hquote, hnew⟩, hrun⟩ := hrun
  obtain ⟨q, hq⟩ := Option.isSome_iff_exists.1 hquote
  obtain ⟨s', hs', hclaim⟩ := (Option.any_eq_true ..).1 hrun
  have hall : ∀ i : Fin 1, i ∈ [0] := by decide
  have hr : Reach (fun e s s' => Step Env e s s' ∧ isGo e s = true) oneCreation s :=
    reach_of_playChecked hall (env_schedule _) hs
  have hr : Reach StepInTime oneCreation s :=
    reach_inTime (hr.mono fun e _ _ h => ⟨h.1, by rintro rfl; cases h.2⟩)
  have hst : Step Env (.go 0) s s' := step_of_playMove hall (by simp) hs'
  have hst : StepInTime (.go 0) s s' := by
    refine ⟨hst, fun quoteId q' _ hlt hle => ?_⟩
    have h : Unclaimed s := hr.invariant unclaimed_start fun _ _ _ _ hi hst => hi.step hst
    have hclock := (expiry_of_step h.quiet hst quoteId).2.resolve_left nofun
    exact absurd (hclock ▸ hle) (Nat.not_le_of_lt hlt)
  exact ⟨s, s', q, hr, hst, of_decide_eq_true hclaim, hq,
    claimed_in_time hr hst (of_decide_eq_true hclaim) hnew hq⟩

/-- The quote expires while the call waits for the customer's row. -/
def delayed {ι : Type} (i : ι) : List (Move ι World) :=
  schedule [(i, 3)] ++ [.env fun d => { d with clock := d.clock + 1000 }] ++ schedule [(i, 15)]

/-- A call that waits too long claims a quote that has expired, and its transfer is created. -/
theorem claimed_late :
    ∃ s s' s'' q q', Reach (Step Env) oneCreation s ∧ Step Env (.go 0) s s' ∧
      .consumeQuote 3 100 ∉ (s.calls 0).pending ∧ .consumeQuote 3 100 ∈ (s'.calls 0).pending ∧
      s.shared.quote 3 = some q ∧ q.expiresAt ≤ s.shared.clock ∧
      Reach (Step Env) s' s'' ∧ s''.shared.quote 3 = some q' ∧
      q'.consumedByTransferId = some 100 := by
  have hrun : ((play [0] (delayed 0) oneCreation).any fun s =>
      (s.shared.quote 3).any (fun q => decide (q.expiresAt ≤ s.shared.clock)) &&
        decide (.consumeQuote 3 100 ∉ (s.calls 0).pending) &&
        (playMove [0] s (.go 0)).any fun s' =>
          decide (.consumeQuote 3 100 ∈ (s'.calls 0).pending) &&
          (play [0] (schedule [(0, 14)]) s').any fun s'' =>
            (s''.shared.quote 3).any fun q =>
              decide (q.consumedByTransferId = some 100)) = true := by
    decide +kernel
  have hall : ∀ i : Fin 1, i ∈ [0] := by decide
  have henv : ∀ f, Move.env f ∈ delayed (0 : Fin 1) → ∀ d, Env d (f d) := by
    intro f hf d
    simp only [delayed, List.mem_append, List.mem_singleton, Move.env.injEq] at hf
    rcases hf with (hf | rfl) | hf
    · exact env_schedule _ f hf d
    · exact .tick _ (Nat.le_add_right _ _)
    · exact env_schedule _ f hf d
  obtain ⟨s, hs, hrun⟩ := (Option.any_eq_true ..).1 hrun
  simp only [Bool.and_eq_true, decide_eq_true_eq] at hrun
  obtain ⟨⟨hquote, hnew⟩, hrun⟩ := hrun
  obtain ⟨q, hq, hexp⟩ := (Option.any_eq_true ..).1 hquote
  obtain ⟨s', hs', hrun⟩ := (Option.any_eq_true ..).1 hrun
  simp only [Bool.and_eq_true, decide_eq_true_eq] at hrun
  obtain ⟨s'', hs'', hconsumed⟩ := (Option.any_eq_true ..).1 hrun.2
  obtain ⟨q', hq', hby⟩ := (Option.any_eq_true ..).1 hconsumed
  exact ⟨s, s', s'', q, q', reach_of_play hall henv hs, step_of_playMove hall (by simp) hs', hnew,
    hrun.1, hq, of_decide_eq_true hexp, reach_of_play hall (env_schedule _) hs'', hq',
    of_decide_eq_true hby⟩

end Kimana.Service
