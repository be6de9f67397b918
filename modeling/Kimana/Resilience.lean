import Kimana.Contract

/-!
# Circuit breaker

A breaker for calls to a dependency that may fail.  After enough consecutive failures it opens and
refuses calls for a cooldown; then it lets a trial through.

The state and the counter of failures sit behind two locks.  Each method below is what happens under
one of them; `CircuitBreaker.call` is a whole call with nobody else around.  Moments of the monotone
clock and durations are numbers of nanoseconds.
-/

namespace Kimana.Resilience

inductive State
  | closed
  | opened (openedAt : ℕ)
  | halfOpen
  deriving DecidableEq

/-- Why a call does not return a value of its operation. -/
inductive CallError (E : Type)
  /-- The breaker was open and the operation never attempted. -/
  | opened (retryAfter : ℕ)
  /-- The operation was attempted and failed. -/
  | failed (e : E)
  deriving DecidableEq

structure CircuitBreaker where
  state : State
  /-- A `u32`. -/
  consecutiveFailures : ℕ
  failureThreshold : ℕ
  resetTimeout : ℕ
  deriving DecidableEq

namespace CircuitBreaker

variable {A E : Type}

/-- A closed breaker. -/
def new (failureThreshold : ℕ) (resetTimeout : ℕ) : CircuitBreaker :=
  ⟨.closed, 0, max failureThreshold 1, resetTimeout⟩

/-- The check before the operation: refused with the rest of the cooldown, or let through, as a
trial or not. -/
def enter (b : CircuitBreaker) (now : ℕ) : Except ℕ (Bool × CircuitBreaker) :=
  match b.state with
  | .opened openedAt =>
    let elapsed := now - openedAt
    if elapsed < b.resetTimeout then .error (b.resetTimeout - elapsed)
    else .ok (true, { b with state := .halfOpen })
  | .halfOpen => .ok (true, b)
  | .closed => .ok (false, b)

/-- After a success, first: no failures in a row. -/
def clear (b : CircuitBreaker) : CircuitBreaker := { b with consecutiveFailures := 0 }

/-- After a success, then: closed. -/
def close (b : CircuitBreaker) : CircuitBreaker := { b with state := .closed }

/-- After a failure, first: one failure more. -/
def count (b : CircuitBreaker) : CircuitBreaker :=
  { b with consecutiveFailures := (b.consecutiveFailures + 1) % 2 ^ 32 }

/-- Whether a counted failure opens the breaker. -/
def trips (b : CircuitBreaker) (isTrial : Bool) : Bool :=
  isTrial || b.failureThreshold ≤ b.consecutiveFailures

/-- After such a failure, then: open. -/
def trip (b : CircuitBreaker) (openedAt : ℕ) : CircuitBreaker :=
  { b with state := .opened openedAt }

/-- What it takes to be let through. -/
theorem enter_eq_ok {b b' : CircuitBreaker} {now : ℕ} {isTrial : Bool}
    (h : b.enter now = .ok (isTrial, b')) :
    b.state = .closed ∧ isTrial = false ∧ b' = b ∨
      isTrial = true ∧ b' = { b with state := .halfOpen } ∧
        (b.state = .halfOpen ∨ ∃ t, b.state = .opened t ∧ b.resetTimeout ≤ now - t) := by
  obtain ⟨state, failures, threshold, timeout⟩ := b
  cases state with
  | closed =>
    cases h
    exact .inl ⟨rfl, rfl, rfl⟩
  | halfOpen =>
    cases h
    exact .inr ⟨rfl, rfl, .inl rfl⟩
  | opened t =>
    unfold enter at h
    simp only at h
    split at h
    case isTrue => cases h
    case isFalse hge =>
      cases h
      exact .inr ⟨rfl, rfl, .inr ⟨t, rfl, Nat.not_lt.1 hge⟩⟩

theorem enter_resetTimeout {b b' : CircuitBreaker} {now : ℕ} {isTrial : Bool}
    (h : b.enter now = .ok (isTrial, b')) : b'.resetTimeout = b.resetTimeout := by
  obtain ⟨-, -, rfl⟩ | ⟨-, rfl, -⟩ := enter_eq_ok h <;> rfl

end CircuitBreaker

/-- What an operation comes to, if it is attempted. -/
inductive Outcome (A E : Type)
  | returned (ended : ℕ) (r : Except E A)
  /-- The caller goes away before the operation is finished. -/
  | dropped

/-- A call of the breaker: when it is made, and what its operation comes to. -/
structure Call (A E : Type) where
  started : ℕ
  outcome : Outcome A E

/-- A call, and the breaker after it.  Without an answer it was dropped. -/
def CircuitBreaker.call {A E : Type} (b : CircuitBreaker) (c : Call A E) :
    Option (Except (CallError E) A) × CircuitBreaker :=
  match b.enter c.started with
  | .error retryAfter => (some (.error (.opened retryAfter)), b)
  | .ok (isTrial, b) =>
    match c.outcome with
    | .dropped => (none, b)
    | .returned _ (.ok value) => (some (.ok value), b.clear.close)
    | .returned ended (.error e) =>
      let b := b.count
      (some (.error (.failed e)), if b.trips isTrial then b.trip ended else b)

end Kimana.Resilience
