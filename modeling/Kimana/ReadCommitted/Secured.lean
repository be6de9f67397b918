import Kimana.ReadCommitted.Point

/-!
# Checks under a lock

A call checks something of the shared state under a row lock and acts on it when it commits.  What
it checked still holds then if nobody else can undo it while the lock is held.

* `Prog.Secured` : every commit of a program is of a kind that needs no check, or is made under the
  lock `k` and right for every state that others may have made, by changes in `R`, of the state it
  last looked at; with its rules (`secured_bind`, `secured_mapError`, `secured_of_adds`,
  `secured_of_writes`).
* `Call.secured_cases` : every commit of a call is as its program says.
* `stays_secured` : so is what is left of it after a step, if the others respect the lock.
-/

namespace ReadCommitted

variable {ι D W K Λ E A B : Type} [Store D W] [DecidableEq K]

/-- The shared state may be `d` when `v` is what the call last saw under the lock. -/
def Since (I : D → Prop) (R : D → D → Prop) (v : Option D) (d : D) : Prop :=
  I d ∧ ∀ x, v = some x → R x d

/-- Each commit of the program publishes writes that are `Q`, or holds the lock and publishes writes
that `P` relates to the shared state then, and its answer satisfies `Φ`.  `v` is the state last seen
since the lock was taken, `ws` what is not yet published; `I` holds of every shared state. -/
def Prog.Secured (k : K) (I : D → Prop) (R : D → D → Prop) (Q : List W → Prop)
    (P : D → List W → Prop) (Φ : A → Option D → List W → Prop) :
    Prog D W K Λ E A → Option D → List W → Prop
  | .ret a, v, ws => Φ a v ws
  | .fail _, _, _ => True
  | .fresh f, v, ws => ∀ n, (f n).Secured k I R Q P Φ v ws
  | .atomic _ _, _, _ => False
  | .query f, v, ws => ∀ d, Since I R v d → (f d).Secured k I R Q P Φ (v.map fun _ => d) ws
  | .read f, v, ws => ∀ d, Since I R v d →
      (f (applyAll ws d)).Secured k I R Q P Φ (v.map fun _ => d) ws
  | .write w p, v, ws => p.Secured k I R Q P Φ v (ws ++ [w])
  | .lock k' f, v, ws => ∀ snap d, Since I R v d →
      (f snap (applyAll ws d)).Secured k I R Q P Φ (if k' = k then some d else v) ws
  | .commit p, v, ws =>
      (Q ws ∨ v.isSome ∧ ∀ d, Since I R v d → P d ws) ∧ p.Secured k I R Q P Φ none []
  | .rollback p, _, _ => p.Secured k I R Q P Φ none []
  | .mark _ p, v, ws => p.Secured k I R Q P Φ v ws

section Rules

variable {k : K} {I : D → Prop} {R : D → D → Prop} {Q : List W → Prop} {P : D → List W → Prop}
  {Φ Φ' : A → Option D → List W → Prop} {v : Option D} {ws : List W}

theorem secured_mono (hΦ : ∀ a v ws, Φ a v ws → Φ' a v ws) {p : Prog D W K Λ E A}
    (h : p.Secured k I R Q P Φ v ws) : p.Secured k I R Q P Φ' v ws := by
  induction p generalizing v ws with
  | ret a => exact hΦ _ _ _ h
  | fail e => trivial
  | atomic => exact h.elim
  | write w p ih | mark l p ih | rollback p ih => exact ih h
  | fresh f ih => exact fun n => ih n (h n)
  | query f ih | read f ih => exact fun d hd => ih _ (h d hd)
  | lock k' f ih => exact fun snap d hd => ih _ _ (h snap d hd)
  | commit p ih => exact ⟨h.1, ih h.2⟩

theorem secured_bind {p : Prog D W K Λ E B} {g : B → Prog D W K Λ E A} :
    (p.bind g).Secured k I R Q P Φ v ws ↔
      p.Secured k I R Q P (fun b v' ws' => (g b).Secured k I R Q P Φ v' ws') v ws := by
  induction p generalizing v ws with
  | ret b => exact Iff.rfl
  | fail e => exact Iff.rfl
  | atomic => exact Iff.rfl
  | write w p ih | mark l p ih | rollback p ih => exact ih
  | fresh f ih => exact forall_congr' fun n => ih n
  | query f ih | read f ih => exact forall₂_congr fun d _ => ih _
  | lock k' f ih => exact forall₂_congr fun snap d => forall_congr' fun _ => ih _ _
  | commit p ih => exact and_congr_right fun _ => ih

/-- A program whose first part is known. -/
theorem secured_bind_of {p : Prog D W K Λ E B} {g : B → Prog D W K Λ E A}
    {Φ₁ : B → Option D → List W → Prop} (hp : p.Secured k I R Q P Φ₁ v ws)
    (hg : ∀ b v' ws', Φ₁ b v' ws' → (g b).Secured k I R Q P Φ v' ws') :
    (p.bind g).Secured k I R Q P Φ v ws :=
  secured_bind.2 (secured_mono hg hp)

theorem secured_mapError {E' : Type} {h : E → E'} {p : Prog D W K Λ E A} :
    (p.mapError h).Secured k I R Q P Φ v ws ↔ p.Secured k I R Q P Φ v ws := by
  induction p generalizing v ws with
  | ret a => exact Iff.rfl
  | fail e => exact Iff.rfl
  | atomic => exact Iff.rfl
  | write w p ih | mark l p ih | rollback p ih => exact ih
  | fresh f ih => exact forall_congr' fun n => ih n
  | query f ih | read f ih => exact forall₂_congr fun d _ => ih _
  | lock k' f ih => exact forall₂_congr fun snap d => forall_congr' fun _ => ih _ _
  | commit p ih => exact and_congr_right fun _ => ih

/-- What a piece of a transaction that adds writes of kind `V` leaves. -/
structure SecuredOn (R : D → D → Prop) (V : W → Prop) (v v' : Option D) (ws ws' : List W) :
    Prop where
  seen : ∀ x, v = some x → ∃ y, v' = some y ∧ R x y
  adds : ∃ us, ws' = ws ++ us ∧ ∀ w ∈ us, V w

omit [Store D W] [DecidableEq K] in
theorem SecuredOn.refl (hR : ∀ d, R d d) {V : W → Prop} (v : Option D) (ws : List W) :
    SecuredOn R V v v ws ws :=
  ⟨fun x hx => ⟨x, hx, hR x⟩, [], (List.append_nil _).symm, by simp⟩

/-- A piece of a transaction keeps what is known. -/
theorem secured_of_adds (htrans : ∀ {x y z}, R x y → R y z → R x z) {V : W → Prop}
    {p : Prog D W K Λ E A} (hp : p.Adds V) {v₀ : Option D} {ws₀ : List W}
    (h : SecuredOn R V v₀ v ws₀ ws) :
    p.Secured k I R Q P (fun _ v' ws' => SecuredOn R V v₀ v' ws₀ ws') v ws := by
  have hlook : ∀ {v ws d}, SecuredOn R V v₀ v ws₀ ws → Since I R v d →
      SecuredOn R V v₀ (v.map fun _ => d) ws₀ ws := by
    rintro v ws d h ⟨-, hd⟩
    refine ⟨fun x hx => ?_, h.adds⟩
    obtain ⟨y, rfl, hxy⟩ := h.seen x hx
    exact ⟨d, rfl, htrans hxy (hd y rfl)⟩
  induction p generalizing v ws with
  | ret a => exact h
  | fail e => trivial
  | atomic | commit | rollback | mark => exact hp.elim
  | write w p ih =>
    obtain ⟨us, rfl, hus⟩ := h.adds
    refine ih hp.2 ⟨h.seen, us ++ [w], List.append_assoc .., fun u hu => ?_⟩
    rcases List.mem_append.1 hu with hu | hu
    · exact hus u hu
    · exact List.mem_singleton.1 hu ▸ hp.1
  | fresh f ih => exact fun n => ih n (hp n) h
  | query f ih | read f ih => exact fun d hd => ih _ (hp _) (hlook h hd)
  | lock k' f ih =>
    refine fun snap d hd => ih _ _ (hp _ _) ⟨fun x hx => ?_, h.adds⟩
    obtain ⟨y, rfl, hxy⟩ := h.seen x hx
    split
    · exact ⟨d, rfl, htrans hxy (hd.2 y rfl)⟩
    · exact ⟨y, rfl, hxy⟩

/-- A program whose writes are of a kind that may always be committed. -/
theorem secured_of_writes {V : W → Prop} {L : (Λ → Λ) → Prop}
    (hQ : ∀ ws, (∀ w ∈ ws, V w) → Q ws) {p : Prog D W K Λ E A}
    (hp : p.Writes V (fun _ => False) L) (h : ∀ w ∈ ws, V w) :
    p.Secured k I R Q P (fun _ _ ws' => ∀ w ∈ ws', V w) v ws := by
  induction p generalizing v ws with
  | ret a => exact h
  | fail e => trivial
  | atomic => exact hp.1.elim
  | write w p ih =>
    refine ih hp.2 fun u hu => ?_
    rcases List.mem_append.1 hu with hu | hu
    · exact h u hu
    · exact List.mem_singleton.1 hu ▸ hp.1
  | mark l p ih => exact ih hp.2 h
  | rollback p ih => exact ih hp (by simp)
  | fresh f ih => exact fun n => ih n (hp n) h
  | query f ih | read f ih => exact fun d _ => ih _ (hp _) h
  | lock k' f ih => exact fun snap d _ => ih _ _ (hp _ _) h
  | commit p ih => exact ⟨.inl (hQ _ h), ih hp (by simp)⟩

end Rules

/-! ### Calls -/

section Calls

variable {k : K} {I : D → Prop} {R : D → D → Prop} {Q : List W → Prop} {P : D → List W → Prop}
  {Φ : A → Option D → List W → Prop}

/-- A call commits as its program says; what it saw, it saw under the lock. -/
def Call.Secured (k : K) (I : D → Prop) (R : D → D → Prop) (Q : List W → Prop)
    (P : D → List W → Prop) (Φ : A → Option D → List W → Prop) (d : D) :
    Call D W K Λ E A → Prop
  | run p loc _ => ∃ v, p.Secured k I R Q P Φ v loc.pending ∧ (∀ x, v = some x → R x d) ∧
      (v.isSome → k ∈ loc.locks)
  | done _ _ | crashed _ => True

theorem Call.secured_settle {p : Prog D W K Λ E A} {loc : Local D W K Λ} {v : Option D} {d : D}
    (h : p.Secured k I R Q P Φ v loc.pending) (hv : ∀ x, v = some x → R x d)
    (hk : v.isSome → k ∈ loc.locks) : (Call.settle p loc).Secured k I R Q P Φ d := by
  induction p generalizing loc with
  | ret a => trivial
  | fail e => trivial
  | write w p ih => exact @ih (loc.wrote w) h hk
  | mark l p ih => exact @ih (loc.at' (l loc.label)) h hk
  | _ => exact ⟨v, h, hv, hk⟩

/-- What a step of a call does to the shared state, and where it leaves the call. -/
theorem Call.secured_cases (hrefl : ∀ d, R d d) (hbump : ∀ {x d}, R x d → R x (bump d))
    {free : K → Bool} {c c' : Call D W K Λ E A} {d d' : D} (hI : I d)
    (h : c.Secured k I R Q P Φ d) (hn : c.next free d = some (d', c')) :
    c'.Secured k I R Q P Φ d' ∧ (d' = d ∨ d' = bump d ∨
      ∃ ws, d' = applyAll ws d ∧ (Q ws ∨ k ∈ c.locks ∧ P d ws)) := by
  match c with
  | done r made => cases hn
  | crashed made => cases hn
  | run p loc w =>
    obtain ⟨v, hp, hv, hk⟩ := h
    -- A look at the state renews what is known, if there is anything to know.
    have hlook : ∀ x, (v.map fun _ => d) = some x → R x d := by
      intro x hx
      obtain ⟨_, -, rfl⟩ := Option.map_eq_some_iff.1 hx
      exact hrefl d
    cases p with
    | ret | fail | write | mark => cases w <;> cases hn
    | atomic => exact hp.elim
    | fresh f =>
      cases w <;> cases hn <;>
        exact ⟨secured_settle (hp _) (fun x hx => hbump (hv x hx)) hk, .inr (.inl rfl)⟩
    | query f | read f =>
      cases w <;> cases hn <;>
        exact ⟨secured_settle (hp _ ⟨hI, hv⟩) hlook (by simpa using hk), .inl rfl⟩
    | commit q =>
      cases w <;> cases hn <;>
        exact ⟨secured_settle hp.2 nofun nofun, .inr (.inr ⟨_, rfl,
          hp.1.imp_right fun h => ⟨hk h.1, h.2 _ ⟨hI, hv⟩⟩⟩)⟩
    | rollback q =>
      cases w <;> cases hn <;>
        exact ⟨secured_settle (show q.Secured k I R Q P Φ none [] from hp) nofun nofun, .inl rfl⟩
    | lock k' f =>
      cases w with
      | none => cases hn; exact ⟨⟨v, hp, hv, hk⟩, .inl rfl⟩
      | some snap =>
        simp only [next] at hn
        split at hn <;> cases hn
        refine ⟨secured_settle (hp snap d ⟨hI, hv⟩) (fun x hx => ?_) fun hx => ?_, .inl rfl⟩
        · split at hx
          · exact Option.some.inj hx ▸ hrefl d
          · exact hv x hx
        · split at hx
          case isTrue he => exact he ▸ List.mem_cons_self
          case isFalse => exact List.mem_cons_of_mem _ (hk hx)

variable [DecidableEq ι] {env : D → D → Prop} {i : ι}

/-- While call `i` holds the lock, the others change the shared state as `R` allows. -/
def Respects (k : K) (R : D → D → Prop) (i : ι) (e : Event ι) (s s' : Sys ι D W K Λ E A) : Prop :=
  e ≠ .go i → k ∈ (s.calls i).locks → R s.shared s'.shared

/-- A call goes on to commit as its program says. -/
theorem stays_secured (hrefl : ∀ d, R d d) (htrans : ∀ {x y z}, R x y → R y z → R x z)
    (hbump : ∀ {x d}, R x d → R x (bump d)) {e : Event ι} {s s' : Sys ι D W K Λ E A}
    (hI : I s.shared) (h : (s.calls i).Secured k I R Q P Φ s.shared)
    (hres : Respects k R i e s s') (hst : Step env e s s') :
    (s'.calls i).Secured k I R Q P Φ s'.shared := by
  -- A call that does not step keeps its lock, under which the others respect `R`.
  have hother : e ≠ .go i → s'.calls i = s.calls i →
      (s'.calls i).Secured k I R Q P Φ s'.shared := by
    intro hne hc
    rw [hc]
    match hi : s.calls i with
    | .done _ _ => trivial
    | .crashed _ => trivial
    | .run p loc w =>
      rw [hi] at h
      obtain ⟨v, hp, hv, hk⟩ := h
      refine ⟨v, hp, fun x hx => htrans (hv x hx) (hres hne ?_), hk⟩
      rw [hi]
      exact hk (hx ▸ rfl)
  cases e with
  | env =>
    obtain ⟨d, -, rfl⟩ := hst
    exact hother nofun rfl
  | crash j =>
    obtain ⟨p, loc, w, hj, rfl⟩ := hst
    by_cases hij : i = j
    · subst hij
      simp [Call.Secured]
    · exact hother nofun (Function.update_of_ne hij ..)
  | go j =>
    by_cases hij : i = j
    · subst hij
      obtain ⟨free, -, d, c, hn, rfl⟩ := hst
      simpa using (Call.secured_cases hrefl hbump hI h hn).1
    · refine hother (fun he => hij (by cases he; rfl)) ?_
      obtain ⟨free, -, d, c, hn, rfl⟩ := hst
      exact Function.update_of_ne hij ..

end Calls

end ReadCommitted
