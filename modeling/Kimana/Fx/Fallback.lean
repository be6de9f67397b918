import Kimana.Fx
import Kimana.Resilience.Trace

/-!
# The rate fallback

What `FxResilience.resolve` answers in terms of the requests before, newest first, of any pairs.

* `Resolved` : what a request can come to.
* `Trace.cache_eq` : the cache holds the last live rate of each pair.
* `Trace.breaker` : the calls of the breaker are those of all pairs.
* `resolve_spec` : **the fallback serves the right rate or none**.
-/

namespace Kimana.Fx

open Resilience

variable {R : Type} {n reset age timeout : ℕ}

/-- A request that was made, and its answer. -/
structure Record (R : Type) where
  request : Request R
  result : Option (Except ApiError (RateOutcome R))

/-- The last live rate of a pair. -/
def lastLive (pair : String) : List (Record R) → Option (CachedRate R)
  | [] => none
  | r :: rs =>
    match r.result with
    | some (.ok (.live rate)) =>
      if r.request.pair = pair then some ⟨rate, r.request.looked⟩ else lastLive pair rs
    | _ => lastLive pair rs

/-- Requests one after another on a monotone clock, and what they leave. -/
inductive Trace (n reset age timeout : ℕ) : List (Record R) → FxResilience R → Prop
  | nil : Trace n reset age timeout [] (.new n reset age timeout)
  | cons {rs : List (Record R)} {f : FxResilience R} {c : Request R}
    (h : Trace n reset age timeout rs f) (hc : ∀ r ∈ rs.head?, r.request.looked ≤ c.started)
    (hstarted : c.started ≤ c.ended) (hended : c.ended ≤ c.looked) :
    Trace n reset age timeout (⟨c, (f.resolve c).1⟩ :: rs) (f.resolve c).2

variable {rs : List (Record R)} {f : FxResilience R} {c : Request R}

/-- The breaker refuses the fetch. -/
def Blocked (f : FxResilience R) (c : Request R) : Prop :=
  ∃ retryAfter, f.breaker.enter c.started = .error retryAfter

/-- The fetch fails. -/
def Failed (c : Request R) : Prop := c.fetch = .timedOut ∨ ∃ e, c.fetch = .answered (.error e)

/-- What a request can come to. -/
inductive Resolved (f : FxResilience R) (c : Request R) :
    Option (Except ApiError (RateOutcome R)) × FxResilience R → Prop
  | blocked {retryAfter : ℕ} (h : f.breaker.enter c.started = .error retryAfter) :
    Resolved f c (some (f.fallback c retryAfter), f)
  | failed {b : CircuitBreaker} (hfree : ¬ Blocked f c) (h : Failed c) :
    Resolved f c (some (f.fallback c 0), { f with breaker := b })
  | live {b : CircuitBreaker} {rate : R} (hfree : ¬ Blocked f c)
    (h : c.fetch = .answered (.ok (some rate))) :
    Resolved f c (some (.ok (.live rate)),
      { f with breaker := b, cache := Function.update f.cache c.pair (some ⟨rate, c.looked⟩) })
  | notFound {b : CircuitBreaker} (hfree : ¬ Blocked f c) (h : c.fetch = .answered (.ok none)) :
    Resolved f c (some (.ok .notFound), { f with breaker := b })
  | dropped {b : CircuitBreaker} (hfree : ¬ Blocked f c) (h : c.fetch = .dropped) :
    Resolved f c (none, { f with breaker := b })

theorem resolved (f : FxResilience R) (c : Request R) : Resolved f c (f.resolve c) := by
  cases henter : f.breaker.enter c.started with
  | error retryAfter =>
    have hcall : f.breaker.call (c.attempt f.callTimeout) = _ := call_of_refused henter
    have : f.resolve c = (some (f.fallback c retryAfter), f) := by
      rw [FxResilience.resolve, hcall]
    rw [this]
    exact .blocked henter
  | ok entry =>
    have hcall : f.breaker.call (c.attempt f.callTimeout) = _ := call_of_entered henter
    have hfree : ¬ Blocked f c := by
      rintro ⟨retryAfter, h⟩
      cases henter.symm.trans h
    rw [FxResilience.resolve, hcall, Call.own, Request.attempt]
    match hfetch : c.fetch with
    | .dropped => exact .dropped hfree hfetch
    | .timedOut => exact .failed hfree (.inl hfetch)
    | .answered (.error e) => exact .failed hfree (.inr ⟨e, hfetch⟩)
    | .answered (.ok none) => exact .notFound hfree hfetch
    | .answered (.ok (some rate)) => exact .live hfree hfetch

theorem resolve_breaker (f : FxResilience R) (c : Request R) :
    (f.resolve c).2.breaker = (f.breaker.call (c.attempt f.callTimeout)).2 := by
  rw [FxResilience.resolve]
  obtain ⟨result, breaker⟩ := f.breaker.call (c.attempt f.callTimeout)
  match result with
  | none => rfl
  | some (.ok (some _)) => rfl
  | some (.ok none) => rfl
  | some (.error (.opened _)) => rfl
  | some (.error (.failed _)) => rfl

/-- Nothing changes the settings. -/
theorem resolve_settings (f : FxResilience R) (c : Request R) :
    (f.resolve c).2.maxCacheAge = f.maxCacheAge ∧ (f.resolve c).2.callTimeout = f.callTimeout := by
  have h := resolved f c
  generalize f.resolve c = answer at h
  cases h <;> exact ⟨rfl, rfl⟩

theorem Trace.settings (h : Trace n reset age timeout rs f) :
    f.maxCacheAge = age ∧ f.callTimeout = timeout := by
  induction h with
  | nil => exact ⟨rfl, rfl⟩
  | cons _ _ _ _ ih =>
    obtain ⟨hage, htimeout⟩ := resolve_settings _ _
    exact ⟨hage.trans ih.1, htimeout.trans ih.2⟩

/-- What is served without a live rate is never one. -/
theorem fallback_ne_live (f : FxResilience R) (c : Request R) (retryAfter : ℕ) (rate : R) :
    f.fallback c retryAfter ≠ .ok (.live rate) := by
  unfold FxResilience.fallback
  split
  · split <;> nofun
  · nofun

theorem lastLive_of_ne {pair : String} {result : Option (Except ApiError (RateOutcome R))}
    (h : ∀ rate, result ≠ some (.ok (.live rate))) :
    lastLive pair (⟨c, result⟩ :: rs) = lastLive pair rs := by
  rw [lastLive]
  split
  case h_1 rate heq => exact absurd heq (h rate)
  case h_2 => rfl

theorem lastLive_live (pair : String) (rs : List (Record R)) (c : Request R) (rate : R) :
    lastLive pair (⟨c, some (.ok (.live rate))⟩ :: rs) =
      if c.pair = pair then some ⟨rate, c.looked⟩ else lastLive pair rs := rfl

/-- The cache holds the last live rate of each pair. -/
theorem Trace.cache_eq (h : Trace n reset age timeout rs f) (pair : String) :
    f.cache pair = lastLive pair rs := by
  induction h with
  | nil => rfl
  | @cons rs f c _ _ _ _ ih =>
    have hres := resolved f c
    generalize f.resolve c = answer at hres
    cases hres with
    | blocked =>
      rw [lastLive_of_ne fun rate heq => fallback_ne_live f c _ rate (Option.some.inj heq)]
      exact ih
    | failed =>
      rw [lastLive_of_ne fun rate heq => fallback_ne_live f c _ rate (Option.some.inj heq)]
      exact ih
    | notFound =>
      rw [lastLive_of_ne nofun]
      exact ih
    | dropped =>
      rw [lastLive_of_ne nofun]
      exact ih
    | live =>
      rw [lastLive_live]
      by_cases hpair : c.pair = pair
      · rw [if_pos hpair, ← hpair]
        exact Function.update_self ..
      · rw [if_neg hpair, ← ih]
        exact Function.update_of_ne (Ne.symm hpair) ..

/-- The call of the breaker is over between the start of the request and its look at the cache. -/
theorem over_bounds (result : Option (Except (CallError ApiError) (Option R))) (timeout : ℕ)
    (hstarted : c.started ≤ c.ended) (hended : c.ended ≤ c.looked) :
    c.started ≤ (Resilience.Record.over ⟨c.attempt timeout, result⟩) ∧
      Resilience.Record.over ⟨c.attempt timeout, result⟩ ≤ c.looked := by
  have hlooked := Nat.le_trans hstarted hended
  unfold Resilience.Record.over
  split
  case h_1 => exact ⟨Nat.le_refl _, hlooked⟩
  case h_2 ended r hfetch _ =>
    have hend : ended = c.ended := by
      match hf : c.fetch with
      | .answered _ | .timedOut | .dropped => simp_all [Request.attempt, timedFetch]
    rw [hend]
    exact ⟨hstarted, hended⟩
  case h_3 => exact ⟨Nat.le_refl _, hlooked⟩

/-- The breaker has been called by the requests of all pairs, one after another. -/
theorem Trace.breaker (h : Trace n reset age timeout rs f) : ∃ rs',
    Resilience.Trace n reset rs' f.breaker ∧
      rs'.map (·.call) = rs.map (·.request.attempt timeout) ∧
      ∀ r' ∈ rs'.head?, ∀ r ∈ rs.head?, r'.over ≤ r.request.looked := by
  induction h with
  | nil => exact ⟨[], .nil, rfl, nofun⟩
  | @cons rs f c h hc hstarted hended ih =>
    obtain ⟨rs', htrace, hmap, hover⟩ := ih
    have htimeout := h.settings.2
    have hrecord := over_bounds (f.breaker.call (c.attempt timeout)).1 timeout hstarted hended
    have hfollows : Follows (c.attempt timeout) rs' := by
      intro r' hr'
      cases rs with
      | nil =>
        rw [List.map_eq_nil_iff.1 hmap] at hr'
        cases hr'
      | cons r rs => exact Nat.le_trans (hover r' hr' r rfl) (hc r rfl)
    refine ⟨f.breaker.record (c.attempt timeout) :: rs', ?_, ?_, ?_⟩
    · rw [resolve_breaker, htimeout]
      exact htrace.cons hfollows hrecord.1
    · rw [List.map_cons, List.map_cons, hmap]
      rfl
    · rintro r' ⟨⟩ r ⟨⟩
      exact hrecord.2

/-! ### The answer -/

/-- How long the breaker asks to wait, if it refuses. -/
def wait (f : FxResilience R) (c : Request R) : ℕ :=
  match f.breaker.enter c.started with
  | .error retryAfter => retryAfter
  | .ok _ => 0

/-- There is a cached rate that is not too old. -/
def Fresh (age : ℕ) (rs : List (Record R)) (c : Request R) (rate : R) : Prop :=
  ∃ t, lastLive c.pair rs = some ⟨rate, t⟩ ∧ c.looked - t ≤ age

theorem resolve_of_unavailable (f : FxResilience R) (h : Blocked f c ∨ Failed c) :
    (f.resolve c).1 = some (f.fallback c (wait f c)) := by
  have hres := resolved f c
  generalize f.resolve c = answer at hres
  cases hres with
  | blocked henter => rw [wait, henter]
  | failed hfree =>
    rw [wait]
    split
    case h_1 retryAfter henter => exact absurd ⟨retryAfter, henter⟩ hfree
    case h_2 => rfl
  | live hfree hfetch | notFound hfree hfetch | dropped hfree hfetch =>
    obtain hblocked | hfailed | ⟨e, hfailed⟩ := h
    · exact absurd hblocked hfree
    · cases hfetch.symm.trans hfailed
    · cases hfetch.symm.trans hfailed

theorem Trace.fallback_eq (h : Trace n reset age timeout rs f) (c : Request R) (retryAfter : ℕ) :
    (∀ rate, f.fallback c retryAfter = .ok (.cachedProvisional rate) ↔ Fresh age rs c rate) ∧
      ((¬ ∃ rate, Fresh age rs c rate) →
        f.fallback c retryAfter = .error (.partnerUnavailable c.pair retryAfter)) := by
  have hcache := h.cache_eq c.pair
  unfold Fresh
  rw [FxResilience.fallback, ← hcache, h.settings.1]
  cases f.cache c.pair with
  | none => exact ⟨fun rate => ⟨nofun, nofun⟩, fun _ => rfl⟩
  | some cached =>
    obtain ⟨stored, t⟩ := cached
    by_cases hage : c.looked - t ≤ age
    · simp only [if_pos hage]
      refine ⟨fun rate => ⟨?_, ?_⟩, fun hnone => absurd ⟨stored, t, rfl, hage⟩ hnone⟩
      · rintro ⟨⟩
        exact ⟨t, rfl, hage⟩
      · rintro ⟨_, ⟨⟩, -⟩
        rfl
    · simp only [if_neg hage]
      refine ⟨fun rate => ⟨nofun, ?_⟩, fun _ => trivial⟩
      rintro ⟨_, ⟨⟩, hle⟩
      exact absurd hle hage

/-- **The fallback serves the right rate or none**, after any requests for any pairs.  A request
answers with a cached rate exactly when its fetch was refused by the breaker or failed and that is
the last live rate of its pair and not too old; without such a rate it answers that the partner is
unavailable; it answers with a live rate exactly when its own fetch brought it; and only a live rate
changes what its pair falls back to. -/
theorem resolve_spec (h : Trace n reset age timeout rs f) (c : Request R) :
    (∀ rate, (f.resolve c).1 = some (.ok (.cachedProvisional rate)) ↔
      (Blocked f c ∨ Failed c) ∧ ∃ t, lastLive c.pair rs = some ⟨rate, t⟩ ∧ c.looked - t ≤ age) ∧
    (Blocked f c ∨ Failed c →
      (¬ ∃ rate t, lastLive c.pair rs = some ⟨rate, t⟩ ∧ c.looked - t ≤ age) →
      (f.resolve c).1 = some (.error (.partnerUnavailable c.pair (wait f c)))) ∧
    (∀ rate, (f.resolve c).1 = some (.ok (.live rate)) ↔
      ¬ Blocked f c ∧ c.fetch = .answered (.ok (some rate))) ∧
    ∀ pair, (c.pair = pair → ∀ rate, (f.resolve c).1 ≠ some (.ok (.live rate))) →
      (f.resolve c).2.cache pair = f.cache pair := by
  refine ⟨fun rate => ?_, fun hdown hnone => ?_, fun rate => ?_, fun pair hpair => ?_⟩
  · constructor
    · intro hanswer
      -- Only a blocked or failed request reads the cache.
      have hdown : Blocked f c ∨ Failed c := by
        have hres := resolved f c
        generalize f.resolve c = answer at hres hanswer
        cases hres with
        | blocked henter => exact .inl ⟨_, henter⟩
        | failed _ hfailed => exact .inr hfailed
        | _ => cases hanswer
      rw [resolve_of_unavailable f hdown] at hanswer
      exact ⟨hdown, ((h.fallback_eq c _).1 rate).1 (Option.some.inj hanswer)⟩
    · rintro ⟨hdown, hfresh⟩
      rw [resolve_of_unavailable f hdown, ((h.fallback_eq c _).1 rate).2 hfresh]
  · rw [resolve_of_unavailable f hdown, (h.fallback_eq c _).2 hnone]
  · have hres := resolved f c
    generalize f.resolve c = answer at hres
    cases hres with
    | blocked henter =>
      refine ⟨fun heq => absurd (Option.some.inj heq) (fallback_ne_live f c _ rate), ?_⟩
      exact fun hlive => absurd ⟨_, henter⟩ hlive.1
    | failed _ hfailed =>
      refine ⟨fun heq => absurd (Option.some.inj heq) (fallback_ne_live f c _ rate), ?_⟩
      rintro ⟨-, hfetch⟩
      obtain hlate | ⟨e, herror⟩ := hfailed
      · cases hfetch.symm.trans hlate
      · cases hfetch.symm.trans herror
    | live hfree hfetch =>
      refine ⟨?_, ?_⟩
      · rintro ⟨⟩
        exact ⟨hfree, hfetch⟩
      · rintro ⟨-, heq⟩
        cases hfetch.symm.trans heq
        rfl
    | notFound _ hfetch | dropped _ hfetch =>
      refine ⟨nofun, ?_⟩
      rintro ⟨-, heq⟩
      cases hfetch.symm.trans heq
  · have hres := resolved f c
    generalize f.resolve c = answer at hres hpair
    cases hres with
    | blocked | failed | notFound | dropped => rfl
    | live =>
      by_cases heq : c.pair = pair
      · exact absurd rfl (hpair heq _)
      · exact Function.update_of_ne (Ne.symm heq) ..

/-- A live rate, and then a fetch that takes too long. -/
theorem resolve_spec_cached :
    ((((FxResilience.new 1 10 100 5).resolve
      ⟨"USD/NGN", 0, .answered (.ok (some 7)), 1, 1⟩).2.resolve
      (⟨"USD/NGN", 2, .timedOut, 3, 4⟩ : Request ℕ)).1) = some (.ok (.cachedProvisional 7)) := by
  have htrace : Trace 1 10 100 5 [_] _ :=
    Trace.nil.cons (c := (⟨"USD/NGN", 0, .answered (.ok (some 7)), 1, 1⟩ : Request ℕ)) nofun
      (by decide) (by decide)
  have hlive := lastLive_live "USD/NGN" []
    (⟨"USD/NGN", 0, .answered (.ok (some 7)), 1, 1⟩ : Request ℕ) 7
  exact ((resolve_spec htrace _).1 7).2 ⟨.inr (.inl rfl), 1, hlive.trans (if_pos rfl), by decide⟩

end Kimana.Fx
