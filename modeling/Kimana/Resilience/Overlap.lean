import Kimana.Resilience
import Mathlib.Logic.Function.Basic

/-!
# Calls that overlap

Any number of calls of one breaker, in any interleaving of what each does under one of the two
locks.  A call that opens the breaker holds the lock of the counter from the count of its failure
until the state is set, and reads the clock in between.

* `exists_run_call` : a call that nobody overlaps is `CircuitBreaker.call`.
* `cooldown_respected` : **nothing starts during a cooldown** unless a success closes the breaker
  while it runs.
* `single_trial` : **one trial at a time**, if callers keep out of a trial's way and calls from
  before an opening leave the state alone.
-/

namespace Kimana.Resilience

/-- Where a call is.  `since` is the number of openings when it was let through. -/
inductive Phase
  | idle
  | refused
  /-- The operation is in flight. -/
  | running (isTrial : Bool) (since : ℕ)
  /-- It succeeded: the failures are cleared, the state is not set yet. -/
  | closing (since : ℕ)
  /-- It failed and opens the breaker: the failure is counted, the state is not set yet. -/
  | tripping (since counted : ℕ)
  | over
  deriving DecidableEq

/-- The breaker, the clock, who holds the lock of the counter, and the calls.  Nothing reads how
often the breaker has been opened. -/
structure System where
  breaker : CircuitBreaker
  clock : ℕ
  holder : Option ℕ
  openings : ℕ
  phase : ℕ → Phase

/-- A new breaker without calls. -/
def System.start (failureThreshold resetTimeout : ℕ) : System :=
  ⟨.new failureThreshold resetTimeout, 0, none, 0, fun _ => .idle⟩

def System.setPhase (s : System) (c : ℕ) (p : Phase) : System :=
  { s with phase := Function.update s.phase c p }

inductive Event
  | tick (d : ℕ)
  | enter (c : ℕ)
  | drop (c : ℕ)
  | clear (c : ℕ)
  | close (c : ℕ)
  | count (c : ℕ)
  | trip (c openedAt : ℕ)

inductive Step (s : System) : Event → System → Prop
  | tick (d : ℕ) : Step s (.tick d) { s with clock := s.clock + d }
  | refuse {c retryAfter : ℕ} (hc : s.phase c = .idle)
    (henter : s.breaker.enter s.clock = .error retryAfter) :
    Step s (.enter c) (s.setPhase c .refused)
  | pass {c : ℕ} {isTrial : Bool} {b : CircuitBreaker} (hc : s.phase c = .idle)
    (henter : s.breaker.enter s.clock = .ok (isTrial, b)) :
    Step s (.enter c) { s.setPhase c (.running isTrial s.openings) with breaker := b }
  | drop {c : ℕ} {isTrial : Bool} {since : ℕ} (hc : s.phase c = .running isTrial since) :
    Step s (.drop c) (s.setPhase c .over)
  | clear {c : ℕ} {isTrial : Bool} {since : ℕ} (hc : s.phase c = .running isTrial since)
    (hfree : s.holder = none) :
    Step s (.clear c) { s.setPhase c (.closing since) with breaker := s.breaker.clear }
  | close {c since : ℕ} (hc : s.phase c = .closing since) :
    Step s (.close c) { s.setPhase c .over with breaker := s.breaker.close }
  | count {c : ℕ} {isTrial : Bool} {since : ℕ} (hc : s.phase c = .running isTrial since)
    (hfree : s.holder = none) (htrips : s.breaker.count.trips isTrial = false) :
    Step s (.count c) { s.setPhase c .over with breaker := s.breaker.count }
  | countLast {c : ℕ} {isTrial : Bool} {since : ℕ} (hc : s.phase c = .running isTrial since)
    (hfree : s.holder = none) (htrips : s.breaker.count.trips isTrial = true) :
    Step s (.count c)
      { s.setPhase c (.tripping since s.clock) with breaker := s.breaker.count, holder := some c }
  | trip {c since counted openedAt : ℕ} (hc : s.phase c = .tripping since counted)
    (hcounted : counted ≤ openedAt) (hnow : openedAt ≤ s.clock) :
    Step s (.trip c openedAt)
      { s.setPhase c .over with
        breaker := s.breaker.trip openedAt, holder := none, openings := s.openings + 1 }

/-- A run whose steps all meet a condition on the state before them. -/
inductive Run (P : System → Event → Prop) : System → List Event → System → Prop
  | nil (s : System) : Run P s [] s
  | cons {s s₁ s' : System} {e : Event} {es : List Event} (hP : P s e) (hstep : Step s e s₁)
    (hrun : Run P s₁ es s') : Run P s (e :: es) s'

variable {P : System → Event → Prop} {s s' s₀ s₁ s₂ s₃ : System} {e : Event} {es es₀ : List Event}

/-- What every step keeps every run keeps. -/
theorem Run.keeps {I : System → Prop}
    (hstep : ∀ s e s', I s → P s e → Step s e s' → I s') (h : Run P s es s') (hI : I s) : I s' := by
  induction h with
  | nil => exact hI
  | cons hP hs _ ih => exact ih (hstep _ _ _ hI hP hs)

@[simp] theorem setPhase_phase (s : System) (c : ℕ) (p : Phase) (c' : ℕ) :
    (s.setPhase c p).phase c' = if c' = c then p else s.phase c' := Function.update_apply ..

theorem setPhase_self (s : System) (c : ℕ) (p : Phase) : (s.setPhase c p).phase c = p :=
  Function.update_self ..

theorem phase_cases {c c' : ℕ} {p q : Phase} (h : (s.setPhase c p).phase c' = q) :
    c' = c ∧ p = q ∨ c' ≠ c ∧ s.phase c' = q := by
  rw [setPhase_phase] at h
  split at h
  case isTrue heq => exact .inl ⟨heq, h⟩
  case isFalse hne => exact .inr ⟨hne, h⟩

/-- The number of openings when a call that is not over was let through. -/
def Phase.since : Phase → Option ℕ
  | .running _ since | .closing since | .tripping since _ => some since
  | .idle | .refused | .over => none

/-- The holder of the counter's lock is the only call that opens the breaker, and no call was let
through after an opening still to come. -/
structure Valid (s : System) : Prop where
  holder : ∀ c since counted, s.phase c = .tripping since counted → s.holder = some c
  since_le : ∀ c since, (s.phase c).since = some since → since ≤ s.openings

theorem Valid.start (n reset : ℕ) : Valid (.start n reset) := ⟨nofun, nofun⟩

theorem Valid.since_le_of_setPhase (h : Valid s) {c : ℕ} {p : Phase} {since : ℕ}
    (hp : ∀ since, p.since = some since → since ≤ s.openings) {c' : ℕ}
    (hc' : ((s.setPhase c p).phase c').since = some since) : since ≤ s.openings := by
  obtain ⟨-, hphase⟩ | ⟨-, hold⟩ := phase_cases (rfl : (s.setPhase c p).phase c' = _)
  · exact hp since (hphase ▸ hc')
  · exact h.since_le c' since (hold ▸ hc')

/-- A step to a phase that does not open the breaker keeps the holder. -/
theorem Valid.holder_of_setPhase (h : Valid s) {c : ℕ} {p : Phase}
    (hp : ∀ since counted, p ≠ .tripping since counted) {c' since counted : ℕ}
    (hc' : (s.setPhase c p).phase c' = .tripping since counted) : s.holder = some c' := by
  obtain ⟨-, rfl⟩ | ⟨-, hold⟩ := phase_cases hc'
  · exact absurd rfl (hp since counted)
  · exact h.holder c' since counted hold

theorem Valid.step (h : Valid s) (hstep : Step s e s') : Valid s' := by
  cases hstep with
  | tick d => exact ⟨h.holder, h.since_le⟩
  | refuse | drop | close | count =>
    exact ⟨fun _ _ _ => h.holder_of_setPhase (by nofun),
      fun _ _ => h.since_le_of_setPhase (by nofun)⟩
  | pass =>
    refine ⟨fun _ _ _ => h.holder_of_setPhase (by nofun), fun _ _ => h.since_le_of_setPhase ?_⟩
    rintro since ⟨⟩
    exact Nat.le_refl _
  | clear hc =>
    refine ⟨fun _ _ _ => h.holder_of_setPhase (by nofun), fun _ _ => h.since_le_of_setPhase ?_⟩
    rintro since ⟨⟩
    exact h.since_le _ _ (congrArg Phase.since hc)
  | countLast hc hfree =>
    refine ⟨fun c' since counted hc' => ?_, fun _ _ => h.since_le_of_setPhase ?_⟩
    · obtain ⟨rfl, -⟩ | ⟨-, hold⟩ := phase_cases hc'
      · rfl
      · cases hfree.symm.trans (h.holder c' since counted hold)
    · rintro since ⟨⟩
      exact h.since_le _ _ (congrArg Phase.since hc)
  | trip hc =>
    refine ⟨fun c' since counted hc' => ?_, fun c' since hc' => ?_⟩
    · obtain ⟨-, hp⟩ | ⟨hne, hold⟩ := phase_cases hc'
      · cases hp
      · -- Only one call holds the lock.
        have hsame := (h.holder _ _ _ hc).symm.trans (h.holder c' since counted hold)
        exact absurd (Option.some.inj hsame).symm hne
    · exact Nat.le_succ_of_le (h.since_le_of_setPhase (p := .over) nofun hc')

/-! ### The cooldown -/

/-- The breaker is open and the cooldown has not passed. -/
def Cooling (s : System) : Prop :=
  ∃ t, s.breaker.state = .opened t ∧ s.clock < t + s.breaker.resetTimeout

/-- No success closes the breaker during a cooldown. -/
def Calm (s : System) (e : Event) : Prop := ∀ c, e = .close c → ¬ Cooling s

/-- Since an opening at `t`: the cooldown has passed, or the breaker is open since `t` or later. -/
structure Respected (t reset : ℕ) (s : System) : Prop where
  valid : Valid s
  timeout : s.breaker.resetTimeout = reset
  past : t ≤ s.clock
  counted : ∀ c since k, s.phase c = .tripping since k → t ≤ k
  state : t + reset ≤ s.clock ∨ ∃ t', s.breaker.state = .opened t' ∧ t ≤ t'

section Cooldown

variable {t reset : ℕ}

/-- A call that is let through then is let through after the cooldown. -/
theorem Respected.cooled (h : Respected t reset s) {isTrial : Bool} {b : CircuitBreaker}
    (henter : s.breaker.enter s.clock = .ok (isTrial, b)) : t + reset ≤ s.clock := by
  obtain hcool | ⟨t', hstate, hle⟩ := h.state
  · exact hcool
  · obtain ⟨hclosed, -⟩ | ⟨-, -, hhalf | ⟨u, hopen, helapsed⟩⟩ := CircuitBreaker.enter_eq_ok henter
    · rw [hstate] at hclosed
      cases hclosed
    · rw [hstate] at hhalf
      cases hhalf
    · rw [hstate] at hopen
      cases hopen
      rw [h.timeout] at helapsed
      have := h.past
      omega

theorem Respected.counted_of_setPhase (h : Respected t reset s) {c : ℕ} {p : Phase}
    (hp : ∀ since k, p = .tripping since k → t ≤ k) {c' since k : ℕ}
    (hc' : (s.setPhase c p).phase c' = .tripping since k) : t ≤ k := by
  obtain ⟨-, hphase⟩ | ⟨-, hold⟩ := phase_cases hc'
  · exact hp since k hphase
  · exact h.counted c' since k hold

theorem Respected.step (h : Respected t reset s) (hcalm : Calm s e) (hstep : Step s e s') :
    Respected t reset s' := by
  have hvalid := h.valid.step hstep
  cases hstep with
  | tick d =>
    refine ⟨hvalid, h.timeout, Nat.le_add_right_of_le h.past, h.counted, ?_⟩
    exact h.state.imp_left Nat.le_add_right_of_le
  | refuse | drop =>
    exact ⟨hvalid, h.timeout, h.past, fun _ _ _ => h.counted_of_setPhase (by nofun), h.state⟩
  | pass hc henter =>
    exact ⟨hvalid, (CircuitBreaker.enter_resetTimeout henter).trans h.timeout, h.past,
      fun _ _ _ => h.counted_of_setPhase (by nofun), .inl (h.cooled henter)⟩
  | clear | count =>
    exact ⟨hvalid, h.timeout, h.past, fun _ _ _ => h.counted_of_setPhase (by nofun), h.state⟩
  | close hc =>
    refine ⟨hvalid, h.timeout, h.past, fun _ _ _ => h.counted_of_setPhase (by nofun), .inl ?_⟩
    obtain hcool | ⟨t', hopen, hle⟩ := h.state
    · exact hcool
    · have hpassed : t' + s.breaker.resetTimeout ≤ s.clock :=
        Nat.not_lt.1 fun hlt => hcalm _ rfl ⟨t', hopen, hlt⟩
      rw [h.timeout] at hpassed
      exact Nat.le_trans (Nat.add_le_add_right hle reset) hpassed
  | countLast =>
    refine ⟨hvalid, h.timeout, h.past, fun _ _ _ => h.counted_of_setPhase ?_, h.state⟩
    rintro since k ⟨⟩
    exact h.past
  | trip hc hcounted hnow =>
    refine ⟨hvalid, h.timeout, h.past, fun _ _ _ => h.counted_of_setPhase (by nofun), .inr ?_⟩
    exact ⟨_, rfl, Nat.le_trans (h.counted _ _ _ hc) hcounted⟩

end Cooldown

/-- Valid, with the timeout of the breaker. -/
def ValidFor (reset : ℕ) (s : System) : Prop := Valid s ∧ s.breaker.resetTimeout = reset

theorem ValidFor.step {reset : ℕ} (h : ValidFor reset s) (hstep : Step s e s') :
    ValidFor reset s' := by
  refine ⟨h.1.step hstep, ?_⟩
  cases hstep with
  | pass hc henter => exact (CircuitBreaker.enter_resetTimeout henter).trans h.2
  | _ => exact h.2

theorem Run.validFor {n reset : ℕ} (h : Run P (.start n reset) es s) : ValidFor reset s :=
  h.keeps (I := ValidFor reset) (fun _ _ _ hI _ hstep => hI.step hstep)
    ⟨Valid.start n reset, rfl⟩

/-- An opening is respected at once. -/
theorem Respected.of_trip {reset c openedAt : ℕ} (h : ValidFor reset s)
    (hstep : Step s (.trip c openedAt) s') : Respected openedAt reset s' := by
  have hvalid := h.1.step hstep
  cases hstep with
  | trip hc hcounted hnow =>
    refine ⟨hvalid, h.2, hnow, fun c' since k hc' => ?_, .inr ⟨openedAt, rfl, Nat.le_refl _⟩⟩
    cases hvalid.holder c' since k hc'

/-- **Nothing starts during a cooldown**: in a run in which no success closes the breaker while a
cooldown runs, after an opening at `openedAt` every call before the end of its cooldown is
refused. -/
theorem cooldown_respected {n reset c c' openedAt : ℕ} (h₀ : Run Calm (.start n reset) es₀ s₀)
    (htrip : Step s₀ (.trip c openedAt) s₁) (h : Run Calm s₁ es s₂)
    (hcool : s₂.clock < openedAt + reset) (henter : Step s₂ (.enter c') s₃) :
    s₃.phase c' = .refused := by
  have hres : Respected openedAt reset s₂ :=
    h.keeps (I := Respected openedAt reset) (fun _ _ _ hI hcalm hstep => hI.step hcalm hstep)
      (.of_trip h₀.validFor htrip)
  cases henter with
  | refuse => exact setPhase_self ..
  | pass hc hent => exact absurd (hres.cooled hent) (Nat.not_le.2 hcool)

/-- With a threshold of one and a cooldown of ten: the first call has failed. -/
def firstFailure : System :=
  { ((System.start 1 10).setPhase 0 (.running false 0)).setPhase 0 (.tripping 0 0) with
    breaker := (CircuitBreaker.new 1 10).count
    holder := some 0 }

/-- It opens the breaker. -/
def firstOpening : System :=
  { firstFailure.setPhase 0 .over with
    breaker := firstFailure.breaker.trip 0
    holder := none
    openings := 1 }

theorem run_firstFailure (henter : P (.start 1 10) (.enter 0)) (hcount : ∀ s, P s (.count 0)) :
    Run P (.start 1 10) [.enter 0, .count 0] firstFailure :=
  .cons henter (.pass rfl rfl) (.cons (hcount _) (.countLast rfl rfl rfl) (.nil _))

theorem step_firstOpening : Step firstFailure (.trip 0 0) firstOpening :=
  @Step.trip firstFailure 0 0 0 0 rfl (Nat.le_refl 0) (Nat.le_refl 0)

/-- A call halfway through the cooldown. -/
theorem cooldown_respected_halfway : ∃ s₂ s₃, Run Calm firstOpening [.tick 5] s₂ ∧
    Step s₂ (.enter 1) s₃ ∧ s₃.phase 1 = .refused := by
  have h₀ := run_firstFailure (P := Calm) (by rintro _ ⟨⟩) (by rintro _ _ ⟨⟩)
  have h : Run Calm firstOpening [.tick 5] _ := .cons (by rintro _ ⟨⟩) (.tick 5) (.nil _)
  refine ⟨_, _, h, .refuse rfl rfl, ?_⟩
  exact cooldown_respected h₀ step_firstOpening h (by decide) (.refuse rfl rfl)

/-- Two calls from before the opening: one fails and opens the breaker, the other succeeds, and the
next call starts in the cooldown. -/
theorem not_cooldown_respected : ¬ ∀ {n reset c c' openedAt : ℕ} {es₀ es : List Event}
    {s₀ s₁ s₂ s₃ : System}, Run (fun _ _ => True) (.start n reset) es₀ s₀ →
    Step s₀ (.trip c openedAt) s₁ → Run (fun _ _ => True) s₁ es s₂ →
    s₂.clock < openedAt + reset → Step s₂ (.enter c') s₃ → s₃.phase c' = .refused := by
  intro h
  have hbefore : Run (fun _ _ => True) (.start 1 10) [.enter 0, .enter 1, .count 0] _ :=
    .cons trivial (.pass rfl rfl) (.cons trivial (.pass rfl rfl)
      (.cons trivial (.countLast rfl rfl rfl) (.nil _)))
  have hrefused := h (c := 0) hbefore
    (.trip rfl (Nat.le_refl _) (Nat.le_refl _))
    (.cons trivial (.clear (c := 1) rfl rfl) (.cons trivial (.close (c := 1) rfl) (.nil _)))
    (by decide) (.pass (c := 2) rfl rfl)
  cases hrefused

/-! ### Trials -/

/-- The operation of a call let through after `k` openings is in flight. -/
def InFlight (k : ℕ) (s : System) (c : ℕ) : Prop :=
  ∃ isTrial since, s.phase c = .running isTrial since ∧ k ≤ since

/-- Such an operation succeeds or fails. -/
def Completes (k : ℕ) (s : System) (e : Event) : Prop :=
  ∃ c, (e = .clear c ∨ e = .count c) ∧ InFlight k s c

/-- No call enters a half-open breaker while an operation started since the last opening is in
flight; and a call let through before the last opening neither closes a breaker that is not closed
nor opens one that is half open. -/
def Orderly (s : System) : Event → Prop
  | .enter _ => s.breaker.state = .halfOpen → ∀ c, ¬ InFlight s.openings s c
  | .close c => s.breaker.state = .closed ∨ s.phase c = .closing s.openings
  | .trip c _ => s.breaker.state ≠ .halfOpen ∨ ∃ k, s.phase c = .tripping s.openings k
  | _ => True

/-- From `k` openings on, before an operation started since completes: at most one is in flight, and
only while the breaker is half open after the last opening. -/
structure Trial (k : ℕ) (s : System) : Prop where
  valid : Valid s
  openings : k ≤ s.openings
  state : s.breaker.state ≠ .closed
  current : ∀ c isTrial since, s.phase c = .running isTrial since → k ≤ since →
    since = s.openings ∧ s.breaker.state = .halfOpen
  single : ∀ c c', InFlight k s c → InFlight k s c' → c = c'
  pending : ∀ c since, s.phase c = .closing since → since < k
  counted : ∀ c since t, s.phase c = .tripping since t → since < k

/-- A phase that is not `running` puts nothing in flight. -/
theorem running_of_setPhase {c c' since : ℕ} {p : Phase} {isTrial : Bool}
    (hp : ∀ isTrial since, p ≠ .running isTrial since)
    (h : (s.setPhase c p).phase c' = .running isTrial since) :
    s.phase c' = .running isTrial since := by
  obtain ⟨-, rfl⟩ | ⟨-, hold⟩ := phase_cases h
  · exact absurd rfl (hp isTrial since)
  · exact hold

section Trial

variable {k : ℕ}

theorem Trial.inFlight (h : Trial k s) {c : ℕ} (hc : InFlight k s c) :
    InFlight s.openings s c ∧ s.breaker.state = .halfOpen := by
  obtain ⟨isTrial, since, hrun, hle⟩ := hc
  obtain ⟨hsince, hstate⟩ := h.current c isTrial since hrun hle
  exact ⟨⟨isTrial, since, hrun, Nat.le_of_eq hsince.symm⟩, hstate⟩

/-- A step after which the same operations are in flight or fewer, in the same state. -/
theorem Trial.of_running (h : Trial k s) (hvalid : Valid s') (hopen : s'.openings = s.openings)
    (hstate : s'.breaker.state = s.breaker.state)
    (hrun : ∀ c isTrial since, s'.phase c = .running isTrial since →
      s.phase c = .running isTrial since)
    (hpending : ∀ c since, s'.phase c = .closing since → since < k)
    (hcounted : ∀ c since t, s'.phase c = .tripping since t → since < k) : Trial k s' where
  valid := hvalid
  openings := hopen ▸ h.openings
  state := hstate ▸ h.state
  current := fun c isTrial since hc hle => by
    rw [hopen, hstate]
    exact h.current c isTrial since (hrun c isTrial since hc) hle
  single := by
    rintro c c' ⟨_, _, hc, hle⟩ ⟨_, _, hc', hle'⟩
    exact h.single c c' ⟨_, _, hrun _ _ _ hc, hle⟩ ⟨_, _, hrun _ _ _ hc', hle'⟩
  pending := hpending
  counted := hcounted

theorem Trial.pending_of_setPhase (h : Trial k s) {c : ℕ} {p : Phase}
    (hp : ∀ since, p = .closing since → since < k) {c' since : ℕ}
    (hc' : (s.setPhase c p).phase c' = .closing since) : since < k := by
  obtain ⟨-, hphase⟩ | ⟨-, hold⟩ := phase_cases hc'
  · exact hp since hphase
  · exact h.pending c' since hold

theorem Trial.counted_of_setPhase (h : Trial k s) {c : ℕ} {p : Phase}
    (hp : ∀ since t, p = .tripping since t → since < k) {c' since t : ℕ}
    (hc' : (s.setPhase c p).phase c' = .tripping since t) : since < k := by
  obtain ⟨-, hphase⟩ | ⟨-, hold⟩ := phase_cases hc'
  · exact hp since t hphase
  · exact h.counted c' since t hold

/-- An operation that completes was started before. -/
theorem since_lt {c since : ℕ} {isTrial : Bool} (hwin : ¬ Completes k s e)
    (hc : s.phase c = .running isTrial since) (he : e = .clear c ∨ e = .count c) : since < k :=
  Nat.lt_of_not_le fun hle => hwin ⟨c, he, isTrial, since, hc, hle⟩

theorem Trial.step (h : Trial k s) (horder : Orderly s e) (hwin : ¬ Completes k s e)
    (hstep : Step s e s') : Trial k s' := by
  have hvalid := h.valid.step hstep
  cases hstep with
  | tick d => exact h.of_running hvalid rfl rfl (fun _ _ _ hc => hc) h.pending h.counted
  | refuse | drop | count =>
    exact h.of_running hvalid rfl rfl (fun _ _ _ => running_of_setPhase (by nofun))
      (fun _ _ => h.pending_of_setPhase (by nofun)) fun _ _ _ => h.counted_of_setPhase (by nofun)
  | clear hc =>
    have hlt := since_lt hwin hc (.inl rfl)
    refine h.of_running hvalid rfl rfl (fun _ _ _ => running_of_setPhase (by nofun))
      (fun _ _ => h.pending_of_setPhase ?_) fun _ _ _ => h.counted_of_setPhase (by nofun)
    rintro since ⟨⟩
    exact hlt
  | countLast hc =>
    have hlt := since_lt hwin hc (.inr rfl)
    refine h.of_running hvalid rfl rfl (fun _ _ _ => running_of_setPhase (by nofun))
      (fun _ _ => h.pending_of_setPhase (by nofun)) fun _ _ _ => h.counted_of_setPhase ?_
    rintro since t ⟨⟩
    exact hlt
  | @close c since hc =>
    -- Nobody who may close is about to.
    obtain hclosed | hcur := horder
    · exact absurd hclosed h.state
    · exact absurd (h.pending c _ hcur) (Nat.not_lt.2 h.openings)
  | @trip c since t openedAt hc =>
    have hhalf : s.breaker.state ≠ .halfOpen := by
      obtain hne | ⟨_, hcur⟩ := horder
      · exact hne
      · exact absurd (h.counted c _ _ hcur) (Nat.not_lt.2 h.openings)
    have hnone : ∀ c', ¬ InFlight k s c' := fun c' hc' => hhalf (h.inFlight hc').2
    refine ⟨hvalid, Nat.le_succ_of_le h.openings, nofun, fun c' isTrial since' hc' hle => ?_, ?_,
      fun _ _ => h.pending_of_setPhase (by nofun), fun _ _ _ => h.counted_of_setPhase (by nofun)⟩
    · exact absurd ⟨_, _, running_of_setPhase (p := .over) nofun hc', hle⟩ (hnone c')
    · rintro c₁ c₂ ⟨_, _, hc₁, hle⟩ -
      exact absurd ⟨_, _, running_of_setPhase (p := .over) nofun hc₁, hle⟩ (hnone c₁)
  | @pass c isTrial b hc henter =>
    obtain ⟨hclosed, -⟩ | ⟨-, rfl, hstate⟩ := CircuitBreaker.enter_eq_ok henter
    · exact absurd hclosed h.state
    · have hnone : ∀ c', ¬ InFlight k s c' := by
        intro c' hc'
        obtain ⟨hcur, hhalf⟩ := h.inFlight hc'
        exact horder hhalf c' hcur
      -- So the call let through is alone.
      have honly : ∀ {c' trial since}, (s.setPhase c (.running isTrial s.openings)).phase c' =
          .running trial since → k ≤ since → c' = c ∧ since = s.openings := by
        intro c' trial since hc' hle
        obtain ⟨rfl, hphase⟩ | ⟨-, hold⟩ := phase_cases hc'
        · cases hphase
          exact ⟨rfl, rfl⟩
        · exact absurd ⟨_, _, hold, hle⟩ (hnone c')
      refine ⟨hvalid, h.openings, nofun, fun c' trial since hc' hle => ⟨(honly hc' hle).2, rfl⟩, ?_,
        fun _ _ => h.pending_of_setPhase (by nofun), fun _ _ _ => h.counted_of_setPhase (by nofun)⟩
      rintro c₁ c₂ ⟨_, _, hc₁, hle₁⟩ ⟨_, _, hc₂, hle₂⟩
      rw [(honly hc₁ hle₁).1, (honly hc₂ hle₂).1]

/-- At an opening nothing started since is in flight. -/
theorem Trial.of_trip {c openedAt : ℕ} (h : Valid s) (hstep : Step s (.trip c openedAt) s') :
    Trial s'.openings s' := by
  have hvalid := h.step hstep
  cases hstep with
  | trip hc =>
    have hsince : ∀ c' since, ((s.setPhase c .over).phase c').since = some since →
        since < s.openings + 1 := fun c' since hc' =>
      Nat.lt_succ_of_le (h.since_le_of_setPhase (p := .over) nofun hc')
    refine ⟨hvalid, Nat.le_refl _, nofun, fun c' _ since hc' hle => ?_, ?_, fun c' since hc' => ?_,
      fun c' since t hc' => ?_⟩
    · exact absurd hle (Nat.not_le.2 (hsince c' since (congrArg Phase.since hc')))
    · rintro c₁ c₂ ⟨_, since, hc₁, hle⟩ -
      exact absurd hle (Nat.not_le.2 (hsince c₁ since (congrArg Phase.since hc₁)))
    · exact hsince c' since (congrArg Phase.since hc')
    · exact hsince c' since (congrArg Phase.since hc')

end Trial

/-- A call that nobody overlaps does to the breaker what `CircuitBreaker.call` does. -/
theorem exists_run_call {A E : Type} {c : ℕ} (call : Call A E) (hidle : s.phase c = .idle)
    (hfree : s.holder = none) (hstart : call.started = s.clock)
    (hclock : ∀ ended r, call.outcome = .returned ended r → call.started ≤ ended) :
    ∃ es s', Run (fun _ _ => True) s es s' ∧ s'.breaker = (s.breaker.call call).2 ∧
      s'.holder = none ∧ (s'.phase c = .refused ∨ s'.phase c = .over) := by
  obtain ⟨started, outcome⟩ := call
  cases hstart
  unfold CircuitBreaker.call
  cases henter : s.breaker.enter s.clock with
  | error retryAfter =>
    exact ⟨_, _, .cons trivial (.refuse hidle henter) (.nil _), rfl, hfree, .inl (setPhase_self ..)⟩
  | ok entry =>
    obtain ⟨isTrial, b⟩ := entry
    -- The operation runs until it ends.
    obtain ⟨s₁, hpass, hb, hphase, hfree₁, hclock₁⟩ : ∃ s₁, Step s (.enter c) s₁ ∧ s₁.breaker = b ∧
        s₁.phase c = .running isTrial s.openings ∧ s₁.holder = none ∧ s₁.clock = s.clock :=
      ⟨_, .pass hidle henter, rfl, setPhase_self .., hfree, rfl⟩
    match outcome with
    | .dropped =>
      exact ⟨_, _, .cons trivial hpass (.cons trivial (.drop hphase) (.nil _)), hb, hfree₁,
        .inr (setPhase_self ..)⟩
    | .returned ended r =>
      have hend : s.clock + (ended - s.clock) = ended := Nat.add_sub_of_le (hclock ended r rfl)
      obtain ⟨s₂, htick, hb₂, hphase₂, hfree₂, hclock₂⟩ : ∃ s₂,
          Step s₁ (.tick (ended - s.clock)) s₂ ∧ s₂.breaker = b ∧
          s₂.phase c = .running isTrial s.openings ∧ s₂.holder = none ∧ s₂.clock = ended :=
        ⟨_, .tick _, hb, hphase, hfree₁, by rw [hclock₁, hend]⟩
      cases r with
      | ok value =>
        refine ⟨_, _, .cons trivial hpass
          (.cons trivial htick (.cons trivial (.clear hphase₂ hfree₂)
          (.cons trivial (.close (setPhase_self ..)) (.nil _)))), ?_, hfree₂,
            .inr (setPhase_self ..)⟩
        rw [← hb₂]
      | error e =>
        cases htrips : b.count.trips isTrial with
        | false =>
          refine ⟨_, _, .cons trivial hpass (.cons trivial htick
            (.cons trivial (.count hphase₂ hfree₂ (hb₂ ▸ htrips)) (.nil _))), ?_, hfree₂,
            .inr (setPhase_self ..)⟩
          simp only [htrips, Bool.false_eq_true, if_false]
          rw [← hb₂]
        | true =>
          refine ⟨_, _, .cons trivial hpass (.cons trivial htick
            (.cons trivial (.countLast hphase₂ hfree₂ (hb₂ ▸ htrips)) (.cons trivial
            (.trip (setPhase_self ..) (Nat.le_of_eq hclock₂) (Nat.le_of_eq hclock₂.symm))
            (.nil _)))),
            ?_, rfl, .inr (setPhase_self ..)⟩
          simp only [htrips, if_true]
          rw [← hb₂]

end Kimana.Resilience
