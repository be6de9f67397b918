import Kimana.Resilience
import Mathlib.Logic.Function.Basic

/-!
# Rates of the primary feed

`FxResilience` asks the feed through a circuit breaker that all pairs share, and falls back to the
last rate known of the pair.  What a rate holds is nothing to it.
-/

namespace Kimana

/-- The feed of a corridor is down and there is no cached rate to fall back to. -/
def ApiError.partnerUnavailable (corridor : String) (retryAfter : ℕ) : ApiError :=
  let secs := max (retryAfter / 1000000000) 1
  .new .partnerFailure ("Rate feed for " ++ corridor ++
    " is temporarily unavailable. Try again in about " ++ toString secs ++ "s.")

namespace Fx

open Resilience

variable {R : Type}

/-- Where a rate comes from. -/
inductive RateOutcome (R : Type)
  | live (rate : R)
  | cachedProvisional (rate : R)
  /-- The feed answered, and has nothing for the pair. -/
  | notFound
  deriving DecidableEq

structure CachedRate (R : Type) where
  rate : R
  cachedAt : ℕ

structure FxResilience (R : Type) where
  breaker : CircuitBreaker
  cache : String → Option (CachedRate R)
  maxCacheAge : ℕ
  callTimeout : ℕ

def FxResilience.new (failureThreshold resetTimeout maxCacheAge callTimeout : ℕ) : FxResilience R :=
  ⟨.new failureThreshold resetTimeout, fun _ => none, maxCacheAge, callTimeout⟩

/-- What a fetch from the feed comes to, if it is made. -/
inductive Fetch (R : Type)
  | answered (r : Except ApiError (Option R))
  /-- It takes longer than the timeout. -/
  | timedOut
  /-- The caller goes away first. -/
  | dropped

/-- A fetch that is given up after the timeout. -/
def timedFetch (timeout ended : ℕ) : Fetch R → Outcome (Option R) ApiError
  | .answered r => .returned ended r
  | .timedOut => .returned ended (.error (.new .partnerFailure
      ("fx feed call exceeded " ++ toString (timeout / 1000000) ++ "ms")))
  | .dropped => .dropped

/-- A request for the rate of a pair: when it is made, what the fetch comes to and when it ends, and
when the cache is written or read. -/
structure Request (R : Type) where
  pair : String
  started : ℕ
  fetch : Fetch R
  ended : ℕ
  looked : ℕ

/-- The call of the breaker that a request makes. -/
def Request.attempt (c : Request R) (timeout : ℕ) : Call (Option R) ApiError :=
  ⟨c.started, timedFetch timeout c.ended c.fetch⟩

/-- What is served without a live rate: the cached one if it is not too old. -/
def FxResilience.fallback (f : FxResilience R) (c : Request R) (retryAfter : ℕ) :
    Except ApiError (RateOutcome R) :=
  match f.cache c.pair with
  | some cached =>
    if c.looked - cached.cachedAt ≤ f.maxCacheAge then .ok (.cachedProvisional cached.rate)
    else .error (.partnerUnavailable c.pair retryAfter)
  | none => .error (.partnerUnavailable c.pair retryAfter)

/-- Resolve a rate.  Without an answer the caller went away. -/
def FxResilience.resolve (f : FxResilience R) (c : Request R) :
    Option (Except ApiError (RateOutcome R)) × FxResilience R :=
  let (result, breaker) := f.breaker.call (c.attempt f.callTimeout)
  let f := { f with breaker }
  match result with
  | none => (none, f)
  | some (.ok (some rate)) =>
    (some (.ok (.live rate)),
      { f with cache := Function.update f.cache c.pair (some ⟨rate, c.looked⟩) })
  | some (.ok none) => (some (.ok .notFound), f)
  | some (.error (.opened retryAfter)) => (some (f.fallback c retryAfter), f)
  | some (.error (.failed _)) => (some (f.fallback c 0), f)

end Fx

end Kimana
