import Kimana.Resilience

/-!
# Calls that do not overlap

What the breaker does in terms of the calls before, newest first.

* `failuresInRow`, `lastFailure` : what matters of the calls before.
* `Tied` : the invariant that ties state, counter and times to them.
* `call_spec` : **a call is attempted** until there are enough failures in a row, and again once the
  cooldown has passed since the last failure.
-/

namespace Kimana.Resilience

variable {A E : Type} {n reset : ℕ}

/-- A call that was made, and its answer. -/
structure Record (A E : Type) where
  call : Call A E
  result : Option (Except (CallError E) A)

/-- What a call answers if its operation is attempted: the operation's own result. -/
def Call.own (c : Call A E) : Option (Except (CallError E) A) :=
  match c.outcome with
  | .dropped => none
  | .returned _ r => some (r.mapError .failed)

/-- When a call is over. -/
def Record.over (r : Record A E) : ℕ :=
  match r.result, r.call.outcome with
  | some (.error (.opened _)), _ => r.call.started
  | _, .returned ended _ => ended
  | _, .dropped => r.call.started

/-- Failed attempts since the last success. -/
def failuresInRow : List (Record A E) → ℕ
  | [] => 0
  | r :: rs =>
    match r.result with
    | some (.ok _) => 0
    | some (.error (.failed _)) => failuresInRow rs + 1
    | _ => failuresInRow rs

theorem failuresInRow_le_length (rs : List (Record A E)) : failuresInRow rs ≤ rs.length := by
  fun_induction failuresInRow rs <;> simp <;> omega

/-- When the last failed attempt ended. -/
def lastFailure : List (Record A E) → Option ℕ
  | [] => none
  | r :: rs =>
    match r.result with
    | some (.error (.failed _)) => some r.over
    | _ => lastFailure rs

/-- A call starts when the one before is over. -/
def Follows (c : Call A E) (rs : List (Record A E)) : Prop := ∀ r ∈ rs.head?, r.over ≤ c.started

/-- The record of a call. -/
def CircuitBreaker.record (b : CircuitBreaker) (c : Call A E) : Record A E := ⟨c, (b.call c).1⟩

/-- Calls on a new breaker, one after another on a monotone clock, and the breaker after them. -/
inductive Trace (n reset : ℕ) : List (Record A E) → CircuitBreaker → Prop
  | nil : Trace n reset [] (.new n reset)
  | cons {rs : List (Record A E)} {b : CircuitBreaker} {c : Call A E} (h : Trace n reset rs b)
    (hc : Follows c rs) (hclock : c.started ≤ (b.record c).over) :
    Trace n reset (b.record c :: rs) (b.call c).2

/-- How the state is tied to the calls before. -/
def StateTied (n reset : ℕ) (rs : List (Record A E)) : State → Prop
  | .closed => failuresInRow rs < max n 1
  | .opened openedAt => max n 1 ≤ failuresInRow rs ∧ lastFailure rs = some openedAt
  | .halfOpen => max n 1 ≤ failuresInRow rs ∧
      ∃ t, lastFailure rs = some t ∧ ∃ r ∈ rs.head?, t + reset ≤ r.over

/-- How a breaker is tied to the calls before. -/
structure Tied (n reset : ℕ) (rs : List (Record A E)) (b : CircuitBreaker) : Prop where
  threshold : b.failureThreshold = max n 1
  timeout : b.resetTimeout = reset
  counter : b.consecutiveFailures = failuresInRow rs
  state : StateTied n reset rs b.state
  past : ∀ t, lastFailure rs = some t → ∃ r ∈ rs.head?, t ≤ r.over

variable {rs : List (Record A E)} {b : CircuitBreaker} {c : Call A E}

theorem Tied.new (n reset : ℕ) :
    Tied n reset ([] : List (Record A E)) (.new n reset) where
  threshold := rfl
  timeout := rfl
  counter := rfl
  state := Nat.lt_of_lt_of_le Nat.one_pos (Nat.le_max_right n 1)
  past := nofun

/-- What the check before the operation can say. -/
inductive Entry (n reset : ℕ) (rs : List (Record A E)) (now : ℕ) :
    CircuitBreaker → Except ℕ (Bool × CircuitBreaker) → Prop
  | refused {t : ℕ} (hrow : max n 1 ≤ failuresInRow rs) (hlast : lastFailure rs = some t)
    (hlt : now < t + reset) :
    Entry n reset rs now ⟨.opened t, failuresInRow rs, max n 1, reset⟩ (.error (t + reset - now))
  | closed (hrow : failuresInRow rs < max n 1) :
    Entry n reset rs now ⟨.closed, failuresInRow rs, max n 1, reset⟩
      (.ok (false, ⟨.closed, failuresInRow rs, max n 1, reset⟩))
  | trial {t : ℕ} {state : State} (hrow : max n 1 ≤ failuresInRow rs)
    (hlast : lastFailure rs = some t) (hle : t + reset ≤ now) :
    Entry n reset rs now ⟨state, failuresInRow rs, max n 1, reset⟩
      (.ok (true, ⟨.halfOpen, failuresInRow rs, max n 1, reset⟩))

theorem Tied.past_le (h : Tied n reset rs b) (hc : Follows c rs) {t : ℕ}
    (hlast : lastFailure rs = some t) : t ≤ c.started := by
  obtain ⟨r, hr, hle⟩ := h.past t hlast
  exact Nat.le_trans hle (hc r hr)

theorem Tied.entry (h : Tied n reset rs b) (hc : Follows c rs) :
    Entry n reset rs c.started b (b.enter c.started) := by
  have hpast := fun t => h.past_le hc (t := t)
  obtain ⟨state, failures, threshold, timeout⟩ := b
  obtain ⟨rfl, rfl, rfl, hstate, -⟩ := h
  cases state with
  | closed => exact .closed hstate
  | opened t =>
    obtain ⟨hrow, hlast⟩ := hstate
    have hle := hpast t hlast
    unfold CircuitBreaker.enter
    simp only
    split
    case isTrue hlt =>
      rw [show timeout - (c.started - t) = t + timeout - c.started by omega]
      exact .refused hrow hlast (by omega)
    case isFalse hge => exact .trial hrow hlast (by omega)
  | halfOpen =>
    obtain ⟨hrow, t, hlast, r, hr, hle⟩ := hstate
    exact .trial hrow hlast (Nat.le_trans hle (hc r hr))

/-! ### One call -/

theorem call_of_refused {retryAfter : ℕ} (h : b.enter c.started = .error retryAfter) :
    b.call c = (some (.error (.opened retryAfter)), b) := by
  rw [CircuitBreaker.call, h]

/-- The breaker after an operation that was let through. -/
def after (isTrial : Bool) (b : CircuitBreaker) : Outcome A E → CircuitBreaker
  | .dropped => b
  | .returned _ (.ok _) => b.clear.close
  | .returned ended (.error _) => if b.count.trips isTrial then b.count.trip ended else b.count

theorem call_of_entered {isTrial : Bool} {b' : CircuitBreaker}
    (h : b.enter c.started = .ok (isTrial, b')) :
    b.call c = (c.own, after isTrial b' c.outcome) := by
  obtain ⟨started, outcome⟩ := c
  rw [CircuitBreaker.call, h]
  cases outcome with
  | dropped => rfl
  | returned ended r => cases r <;> rfl

/-- A refused call changes nothing. -/
theorem Tied.refused {t : ℕ} (hrow : max n 1 ≤ failuresInRow rs) (hlast : lastFailure rs = some t)
    (hpast : t ≤ c.started) (retryAfter : ℕ) :
    Tied n reset (⟨c, some (.error (.opened retryAfter))⟩ :: rs)
      ⟨.opened t, failuresInRow rs, max n 1, reset⟩ where
  threshold := rfl
  timeout := rfl
  counter := rfl
  state := ⟨hrow, hlast⟩
  past := fun _ hs => ⟨_, rfl, Option.some.inj (hlast.symm.trans hs) ▸ hpast⟩

theorem Tied.dropped {state : State} {started : ℕ}
    (hstate : StateTied n reset (⟨⟨started, .dropped⟩, none⟩ :: rs) state)
    (hpast : ∀ t, lastFailure rs = some t → t ≤ started) :
    Tied n reset (⟨⟨started, .dropped⟩, none⟩ :: rs) ⟨state, failuresInRow rs, max n 1, reset⟩ where
  threshold := rfl
  timeout := rfl
  counter := rfl
  state := hstate
  past := fun s hs => ⟨_, rfl, hpast s hs⟩

theorem Tied.succeeded {started ended : ℕ} (value : A) (b : CircuitBreaker)
    (hb : b.failureThreshold = max n 1 ∧ b.resetTimeout = reset) (hclock : started ≤ ended)
    (hpast : ∀ t, lastFailure rs = some t → t ≤ started) :
    Tied n reset (⟨⟨started, .returned ended (.ok value)⟩, some (.ok value)⟩ :: rs)
      b.clear.close where
  threshold := hb.1
  timeout := hb.2
  counter := rfl
  state := Nat.lt_of_lt_of_le Nat.one_pos (Nat.le_max_right n 1)
  past := fun t ht => ⟨_, rfl, Nat.le_trans (hpast t ht) hclock⟩

/-- A failed trial opens the breaker, another failed attempt once there are enough. -/
theorem Tied.failed {started ended : ℕ} (e : E) {isTrial : Bool} {state : State}
    (hfit : failuresInRow rs + 1 < 2 ^ 32)
    (hstate : isTrial = true ∧ max n 1 ≤ failuresInRow rs ∨ isTrial = false ∧ state = .closed) :
    Tied n reset
      (⟨⟨started, .returned ended (.error e)⟩, some (.error (.failed e))⟩ :: rs)
      (after isTrial ⟨state, failuresInRow rs, max n 1, reset⟩
        (.returned ended (.error e) : Outcome A E)) := by
  have hmod : (failuresInRow rs + 1) % 2 ^ 32 = failuresInRow rs + 1 := Nat.mod_eq_of_lt hfit
  have hcount : (⟨state, failuresInRow rs, max n 1, reset⟩ : CircuitBreaker).count =
      ⟨state, failuresInRow rs + 1, max n 1, reset⟩ := by rw [CircuitBreaker.count, hmod]
  rw [after, hcount]
  split
  case isTrue htrips =>
    have hrow : max n 1 ≤ failuresInRow rs + 1 := by
      rcases hstate with ⟨-, hrow⟩ | ⟨rfl, -⟩
      · omega
      · simpa [CircuitBreaker.trips] using htrips
    exact ⟨rfl, rfl, rfl, ⟨hrow, rfl⟩, fun t ht => ⟨_, rfl, Nat.le_of_eq (Option.some.inj ht).symm⟩⟩
  case isFalse htrips =>
    obtain ⟨rfl, -⟩ | ⟨rfl, rfl⟩ := hstate
    · exact absurd rfl htrips
    · have hrow : failuresInRow rs + 1 < max n 1 := by simpa [CircuitBreaker.trips] using htrips
      exact ⟨rfl, rfl, rfl, hrow, fun t ht => ⟨_, rfl, Nat.le_of_eq (Option.some.inj ht).symm⟩⟩

/-- One more call keeps the breaker tied. -/
theorem Tied.step (h : Tied n reset rs b) (hc : Follows c rs)
    (hclock : c.started ≤ (b.record c).over) (hfit : failuresInRow (b.record c :: rs) < 2 ^ 32) :
    Tied n reset (b.record c :: rs) (b.call c).2 := by
  have hpast := fun t => h.past_le hc (t := t)
  have hentry := h.entry hc
  unfold CircuitBreaker.record at hclock hfit ⊢
  generalize hresult : b.enter c.started = result at hentry
  cases hentry with
  | refused hrow hlast hlt =>
    rw [call_of_refused hresult]
    exact .refused hrow hlast (hpast _ hlast) _
  | closed hrow =>
    rw [call_of_entered hresult] at hclock hfit ⊢
    obtain ⟨started, outcome⟩ := c
    match outcome with
    | .dropped => exact .dropped hrow hpast
    | .returned ended (.ok value) => exact .succeeded value _ ⟨rfl, rfl⟩ hclock hpast
    | .returned ended (.error e) => exact .failed e hfit (.inr ⟨rfl, rfl⟩)
  | trial hrow hlast hle =>
    rw [call_of_entered hresult] at hclock hfit ⊢
    obtain ⟨started, outcome⟩ := c
    match outcome with
    | .dropped => exact .dropped ⟨hrow, _, hlast, _, rfl, hle⟩ hpast
    | .returned ended (.ok value) => exact .succeeded value _ ⟨rfl, rfl⟩ hclock hpast
    | .returned ended (.error e) => exact .failed e hfit (.inl ⟨rfl, hrow⟩)

theorem Trace.tied (h : Trace n reset rs b)
    (hfit : ∀ rs', rs' <:+ rs → failuresInRow rs' < 2 ^ 32) : Tied n reset rs b := by
  induction h with
  | nil => exact .new n reset
  | cons h hc hclock ih =>
    have htail := ih fun rs' hrs' => hfit rs' (hrs'.trans (List.suffix_cons ..))
    exact htail.step hc hclock (hfit _ List.suffix_rfl)

/-- **A call is attempted** exactly when there have been fewer failed attempts in a row than the
threshold, which is at least one, or the cooldown has passed since the last of them ended.  Then it
answers with the operation's own result, and otherwise that the breaker is open, with what is left
of the cooldown. -/
theorem call_spec (h : Trace n reset rs b)
    (hfit : ∀ rs', rs' <:+ rs → failuresInRow rs' < 2 ^ 32) (hc : Follows c rs) :
    ((∃ isTrial b', b.enter c.started = .ok (isTrial, b')) ↔
      (failuresInRow rs < max n 1 ∨ ∃ t, lastFailure rs = some t ∧ t + reset ≤ c.started)) ∧
    (∀ isTrial b', b.enter c.started = .ok (isTrial, b') → (b.call c).1 = c.own) ∧
    ((¬ ∃ isTrial b', b.enter c.started = .ok (isTrial, b')) → ∃ t, lastFailure rs = some t ∧
      0 < t + reset - c.started ∧
      (b.call c).1 = some (.error (.opened (t + reset - c.started)))) := by
  refine ⟨?_, fun isTrial b' hent => by rw [call_of_entered hent], fun hent => ?_⟩
  all_goals
    have hentry := (h.tied hfit).entry hc
    generalize hresult : b.enter c.started = result at hentry
  · cases hentry with
    | refused hrow hlast hlt =>
      refine ⟨nofun, ?_⟩
      rintro (hlt' | ⟨t, ht, hle⟩)
      · omega
      · cases hlast.symm.trans ht
        omega
    | closed hrow => exact ⟨fun _ => .inl hrow, fun _ => ⟨_, _, rfl⟩⟩
    | trial hrow hlast hle => exact ⟨fun _ => .inr ⟨_, hlast, hle⟩, fun _ => ⟨_, _, rfl⟩⟩
  · cases hentry with
    | refused hrow hlast hlt =>
      refine ⟨_, hlast, by omega, ?_⟩
      rw [call_of_refused hresult]
    | closed => exact absurd ⟨_, _, hresult⟩ hent
    | trial => exact absurd ⟨_, _, hresult⟩ hent

/-- After one failure at a threshold of one, in the cooldown. -/
theorem call_spec_cooling :
    ((((CircuitBreaker.new 1 10).call (⟨0, .returned 5 (.error ())⟩ : Call Unit Unit)).2.call
      (⟨7, .returned 8 (.ok ())⟩ : Call Unit Unit)).1 : Option (Except (CallError Unit) Unit)) =
      some (.error (.opened 8)) := by
  have htrace : Trace 1 10 [_] _ :=
    Trace.nil.cons (A := Unit) (c := ⟨0, .returned 5 (.error ())⟩) nofun (by decide)
  obtain ⟨t, ht, -, hcall⟩ := (call_spec (c := ⟨7, .returned 8 (.ok ())⟩) htrace
    (fun rs' hrs' => Nat.lt_of_le_of_lt (failuresInRow_le_length rs')
      (Nat.lt_of_le_of_lt hrs'.length_le (by decide)))
    (fun r hr => Option.some.inj hr ▸ by decide)).2.2 nofun
  cases ht
  exact hcall

end Kimana.Resilience
