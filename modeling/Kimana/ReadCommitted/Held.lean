import Kimana.ReadCommitted.Point

/-!
# Values under a lock

While a call holds a row lock, nobody else changes what the lock protects.  What the call reads of
it is then what it finds when it commits.

* `Prog.Held` : what a program commits, related to the value `val` of the shared state, which does
  not change while the program holds the lock `k`; with its rules (`held_bind`, `held_mapError`,
  `held_of_adds`, `held_of_writes`).
* `held_of_reach` : it holds of where a call stands in every reachable state.
* `Call.held_cases` : so every commit of a call is as the program says.
-/

namespace ReadCommitted

variable {ι D W K Λ E A B F : Type} [Store D W] [DecidableEq K]

/-- The shared state may be `d` when `v` is what is known of its value. -/
def Knows (val : D → F) (v : Option F) (d : D) : Prop := ∀ x, v = some x → val d = x

/-- Each commit of the program publishes writes that `P` relates to the value then, and its answer
satisfies `Φ`.  `v` is the value since the lock was taken, `ws` what is not yet published. -/
def Prog.Held (k : K) (val : D → F) (P : F → List W → Prop) (Φ : A → Option F → List W → Prop) :
    Prog D W K Λ E A → Option F → List W → Prop
  | .ret a, v, ws => Φ a v ws
  | .fail _, _, _ => True
  | .fresh f, v, ws => ∀ n, (f n).Held k val P Φ v ws
  | .atomic _ _, _, _ => False
  | .query f, v, ws => ∀ d, Knows val v d → (f d).Held k val P Φ v ws
  | .read f, v, ws => ∀ d, Knows val v d → (f (applyAll ws d)).Held k val P Φ v ws
  | .write w p, v, ws => p.Held k val P Φ v (ws ++ [w])
  | .lock k' f, v, ws => ∀ snap d, Knows val v d →
      (f snap (applyAll ws d)).Held k val P Φ (if k' = k then some (val d) else v) ws
  | .commit p, v, ws => (∀ d, Knows val v d → P (val d) ws) ∧ p.Held k val P Φ none []
  | .rollback p, _, _ => p.Held k val P Φ none []
  | .mark _ p, v, ws => p.Held k val P Φ v ws

section Rules

variable {k : K} {val : D → F} {P : F → List W → Prop} {Φ Φ' : A → Option F → List W → Prop}
  {v : Option F} {ws : List W}

theorem held_mono (hΦ : ∀ a v ws, Φ a v ws → Φ' a v ws) {p : Prog D W K Λ E A}
    (h : p.Held k val P Φ v ws) : p.Held k val P Φ' v ws := by
  induction p generalizing v ws with
  | ret a => exact hΦ _ _ _ h
  | fail e => trivial
  | atomic => exact h.elim
  | write w p ih | mark l p ih | rollback p ih => exact ih h
  | fresh f ih => exact fun n => ih n (h n)
  | query f ih | read f ih => exact fun d hd => ih _ (h d hd)
  | lock k' f ih => exact fun snap d hd => ih _ _ (h snap d hd)
  | commit p ih => exact ⟨h.1, ih h.2⟩

theorem held_bind {p : Prog D W K Λ E B} {g : B → Prog D W K Λ E A} :
    (p.bind g).Held k val P Φ v ws ↔
      p.Held k val P (fun b v' ws' => (g b).Held k val P Φ v' ws') v ws := by
  induction p generalizing v ws with
  | ret b => exact Iff.rfl
  | fail e => exact Iff.rfl
  | atomic => exact Iff.rfl
  | write w p ih | mark l p ih | rollback p ih => exact ih
  | fresh f ih => exact forall_congr' fun n => ih n
  | query f ih | read f ih => exact forall₂_congr fun d _ => ih _
  | lock k' f ih => exact forall₂_congr fun snap d => forall_congr' fun _ => ih _ _
  | commit p ih => exact and_congr_right fun _ => ih

/-- A program whose first part is known. -/
theorem held_bind_of {p : Prog D W K Λ E B} {g : B → Prog D W K Λ E A}
    {Φ₁ : B → Option F → List W → Prop} (hp : p.Held k val P Φ₁ v ws)
    (hg : ∀ b v' ws', Φ₁ b v' ws' → (g b).Held k val P Φ v' ws') :
    (p.bind g).Held k val P Φ v ws :=
  held_bind.2 (held_mono hg hp)

theorem held_mapError {E' : Type} {h : E → E'} {p : Prog D W K Λ E A} :
    (p.mapError h).Held k val P Φ v ws ↔ p.Held k val P Φ v ws := by
  induction p generalizing v ws with
  | ret a => exact Iff.rfl
  | fail e => exact Iff.rfl
  | atomic => exact Iff.rfl
  | write w p ih | mark l p ih | rollback p ih => exact ih
  | fresh f ih => exact forall_congr' fun n => ih n
  | query f ih | read f ih => exact forall₂_congr fun d _ => ih _
  | lock k' f ih => exact forall₂_congr fun snap d => forall_congr' fun _ => ih _ _
  | commit p ih => exact and_congr_right fun _ => ih

/-- What a piece of a transaction that adds writes of kind `V` leaves. -/
structure HeldOn (V : W → Prop) (v v' : Option F) (ws ws' : List W) : Prop where
  value : ∀ x, v = some x → v' = some x
  adds : ∃ us, ws' = ws ++ us ∧ ∀ w ∈ us, V w

omit [Store D W] [DecidableEq K] in
theorem HeldOn.refl {V : W → Prop} (v : Option F) (ws : List W) : HeldOn V v v ws ws :=
  ⟨fun _ h => h, [], (List.append_nil _).symm, by simp⟩

/-- A piece of a transaction keeps the value that is known. -/
theorem held_of_adds {V : W → Prop} {p : Prog D W K Λ E A} (hp : p.Adds V) {v₀ : Option F}
    {ws₀ : List W} (h : HeldOn V v₀ v ws₀ ws) :
    p.Held k val P (fun _ v' ws' => HeldOn V v₀ v' ws₀ ws') v ws := by
  induction p generalizing v ws with
  | ret a => exact h
  | fail e => trivial
  | atomic | commit | rollback | mark => exact hp.elim
  | write w p ih =>
    obtain ⟨us, rfl, hus⟩ := h.adds
    refine ih hp.2 ⟨h.value, us ++ [w], List.append_assoc .., fun u hu => ?_⟩
    rcases List.mem_append.1 hu with hu | hu
    · exact hus u hu
    · exact List.mem_singleton.1 hu ▸ hp.1
  | fresh f ih => exact fun n => ih n (hp n) h
  | query f ih | read f ih => exact fun d _ => ih _ (hp _) h
  | lock k' f ih =>
    refine fun snap d hd => ih _ _ (hp _ _) ⟨fun x hx => ?_, h.adds⟩
    split
    · rw [hd x (h.value x hx)]
    · exact h.value x hx

/-- A program whose writes are of a kind that may always be committed. -/
theorem held_of_writes {V : W → Prop} {L : (Λ → Λ) → Prop}
    (hP : ∀ x ws, (∀ w ∈ ws, V w) → P x ws) {p : Prog D W K Λ E A}
    (hp : p.Writes V (fun _ => False) L) (h : ∀ w ∈ ws, V w) :
    p.Held k val P (fun _ _ ws' => ∀ w ∈ ws', V w) v ws := by
  induction p generalizing v ws with
  | ret a => exact h
  | fail e => trivial
  | atomic => exact hp.1.elim
  | write w p ih =>
    refine ih hp.2 fun u hu => ?_
    rcases List.mem_append.1 hu with hu | hu
    · exact h u hu
    · exact List.mem_singleton.1 hu ▸ hp.1
  | mark l p ih => exact ih hp.2 h
  | rollback p ih => exact ih hp (by simp)
  | fresh f ih => exact fun n => ih n (hp n) h
  | query f ih | read f ih => exact fun d _ => ih _ (hp _) h
  | lock k' f ih => exact fun snap d _ => ih _ _ (hp _ _) h
  | commit p ih => exact ⟨fun d _ => hP _ _ h, ih hp (by simp)⟩

end Rules

/-! ### Calls -/

section Calls

variable {k : K} {val : D → F} {P : F → List W → Prop} {Φ : A → Option F → List W → Prop}

/-- A call commits as its program says; it knows the value only while it holds the lock. -/
def Call.Held (k : K) (val : D → F) (P : F → List W → Prop) (Φ : A → Option F → List W → Prop)
    (d : D) : Call D W K Λ E A → Prop
  | run p loc _ => ∃ v, p.Held k val P Φ v loc.pending ∧ Knows val v d ∧
      ∀ x, v = some x → k ∈ loc.locks
  | done _ _ | crashed _ => True

theorem Call.held_settle {p : Prog D W K Λ E A} {loc : Local D W K Λ} {v : Option F} {d : D}
    (h : p.Held k val P Φ v loc.pending) (hv : Knows val v d)
    (hk : ∀ x, v = some x → k ∈ loc.locks) : (Call.settle p loc).Held k val P Φ d := by
  induction p generalizing loc with
  | ret a => trivial
  | fail e => trivial
  | write w p ih => exact @ih (loc.wrote w) h hk
  | mark l p ih => exact @ih (loc.at' (l loc.label)) h hk
  | _ => exact ⟨v, h, hv, hk⟩

/-- What a step of a call does to the shared state, and where it leaves the call. -/
theorem Call.held_cases {free : K → Bool} {c c' : Call D W K Λ E A} {d d' : D}
    (hbump : ∀ d, val (bump d) = val d) (h : c.Held k val P Φ d)
    (hn : c.next free d = some (d', c')) :
    c'.Held k val P Φ d' ∧ (d' = d ∨ d' = bump d ∨ ∃ ws, d' = applyAll ws d ∧ P (val d) ws) := by
  match c with
  | done r made => cases hn
  | crashed made => cases hn
  | run p loc w =>
    obtain ⟨v, hp, hv, hk⟩ := h
    cases p with
    | ret | fail | write | mark => cases w <;> cases hn
    | atomic => exact hp.elim
    | fresh f =>
      cases w <;> cases hn <;>
        exact ⟨held_settle (hp _) (fun x hx => (hbump d).trans (hv x hx)) hk, .inr (.inl rfl)⟩
    | query f | read f =>
      cases w <;> cases hn <;> exact ⟨held_settle (hp _ hv) hv hk, .inl rfl⟩
    | commit q =>
      cases w <;> cases hn <;>
        exact ⟨held_settle hp.2 nofun nofun, .inr (.inr ⟨_, rfl, hp.1 _ hv⟩)⟩
    | rollback q =>
      cases w <;> cases hn <;>
        exact ⟨held_settle (show q.Held k val P Φ none [] from hp) nofun nofun, .inl rfl⟩
    | lock k' f =>
      cases w with
      | none => cases hn; exact ⟨⟨v, hp, hv, hk⟩, .inl rfl⟩
      | some snap =>
        simp only [next] at hn
        split at hn <;> cases hn
        refine ⟨held_settle (hp snap d hv) (fun x hx => ?_) fun x hx => ?_, .inl rfl⟩
        · split at hx
          · exact Option.some.inj hx
          · exact hv x hx
        · split at hx
          case isTrue he => exact he ▸ List.mem_cons_self
          case isFalse => exact List.mem_cons_of_mem _ (hk x hx)

variable [DecidableEq ι] {env : D → D → Prop} {i : ι}

/-- Nobody else changes the value while call `i` holds the lock. -/
def Protects (k : K) (val : D → F) (i : ι) (e : Event ι) (s s' : Sys ι D W K Λ E A) : Prop :=
  e ≠ .go i → k ∈ (s.calls i).locks → val s'.shared = val s.shared

theorem stays_held (hbump : ∀ d, val (bump d) = val d) {e : Event ι} {s s' : Sys ι D W K Λ E A}
    (h : (s.calls i).Held k val P Φ s.shared) (hpro : Protects k val i e s s')
    (hst : Step env e s s') : (s'.calls i).Held k val P Φ s'.shared := by
  have hother : e ≠ .go i → s'.calls i = s.calls i → (s'.calls i).Held k val P Φ s'.shared := by
    intro hne hc
    rw [hc]
    match hi : s.calls i with
    | .done _ _ => trivial
    | .crashed _ => trivial
    | .run p loc w =>
      rw [hi] at h
      obtain ⟨v, hp, hv, hk⟩ := h
      refine ⟨v, hp, fun x hx => ?_, hk⟩
      rw [hpro hne (by rw [hi]; exact hk x hx), hv x hx]
  cases e with
  | env =>
    obtain ⟨d, -, rfl⟩ := hst
    exact hother nofun rfl
  | crash j =>
    obtain ⟨p, loc, w, hj, rfl⟩ := hst
    by_cases hij : i = j
    · subst hij
      simp [Call.Held]
    · exact hother nofun (Function.update_of_ne hij ..)
  | go j =>
    by_cases hij : i = j
    · subst hij
      obtain ⟨free, -, d, c, hn, rfl⟩ := hst
      simpa using (Call.held_cases hbump h hn).1
    · refine hother (fun he => hij (by cases he; rfl)) ?_
      obtain ⟨free, -, d, c, hn, rfl⟩ := hst
      exact Function.update_of_ne hij ..

/-- A call goes on to commit as its program says. -/
theorem held_of_reach (hbump : ∀ d, val (bump d) = val d) {s s' : Sys ι D W K Λ E A}
    (hpro : ∀ s₁ e s₂, Reach (Step env) s s₁ → Step env e s₁ s₂ → Protects k val i e s₁ s₂)
    (h : (s.calls i).Held k val P Φ s.shared) (hr : Reach (Step env) s s') :
    (s'.calls i).Held k val P Φ s'.shared :=
  hr.invariant (I := fun s => (s.calls i).Held k val P Φ s.shared) h fun s₁ e s₂ hr₁ hi hst =>
    stays_held hbump hi (hpro s₁ e s₂ hr₁ hst) hst

end Calls

end ReadCommitted
