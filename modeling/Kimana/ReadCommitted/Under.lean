import Kimana.ReadCommitted.System

/-!
# Rely and guarantee between different calls

What a call relies on is promised by the other calls; its own changes need not keep it.

* `Prog.Under` : what a program does when others change the shared state as `rely` says, with its
  rules (`under_bind_of`, `under_query`).
* `under_of_reach` : **if each call relies on no more than what the others promise, each does what
  its program says in every run**, and every change is one that its call promises.
-/

namespace ReadCommitted

variable {ι D W K Λ E A B : Type} [Store D W]

/-- Every change of the shared state that the program makes satisfies `guar`, and its answer `Φ`.
`d` is the shared state last known, which others have since changed as `rely` says, and `ws` what is
not yet published. -/
def Prog.Under (rely guar : D → D → Prop) (Φ : A → List W → D → Prop) :
    Prog D W K Λ E A → List W → D → Prop
  | .ret a, ws, d => Φ a ws d
  | .fail _, _, _ => True
  | .fresh f, ws, d => ∀ d' n, rely d d' → (f n).Under rely guar Φ ws (bump d')
  | .atomic u f, ws, d => ∀ d', rely d d' → guar d' (u d') ∧ (f d').Under rely guar Φ ws (u d')
  | .query f, ws, d => ∀ d', rely d d' → (f d').Under rely guar Φ ws d'
  | .read f, ws, d => ∀ d', rely d d' → (f (applyAll ws d')).Under rely guar Φ ws d'
  | .write w p, ws, d => p.Under rely guar Φ (ws ++ [w]) d
  | .lock _ f, ws, d => ∀ snap d', rely d d' → (f snap (applyAll ws d')).Under rely guar Φ ws d'
  | .commit p, ws, d => ∀ d', rely d d' →
      guar d' (applyAll ws d') ∧ p.Under rely guar Φ [] (applyAll ws d')
  | .rollback p, _, d => ∀ d', rely d d' → p.Under rely guar Φ [] d'
  | .mark _ p, ws, d => p.Under rely guar Φ ws d

section Rules

variable {rely guar : D → D → Prop} {Φ Φ' : A → List W → D → Prop} {ws : List W} {d : D}

theorem under_mono (hΦ : ∀ a ws d, Φ a ws d → Φ' a ws d) {p : Prog D W K Λ E A}
    (h : p.Under rely guar Φ ws d) : p.Under rely guar Φ' ws d := by
  induction p generalizing ws d with
  | ret a => exact hΦ _ _ _ h
  | fail e => trivial
  | write w p ih | mark l p ih => exact ih h
  | fresh f ih => exact fun d' n hd => ih n (h d' n hd)
  | query f ih | read f ih => exact fun d' hd => ih _ (h d' hd)
  | atomic u f ih => exact fun d' hd => (h d' hd).imp_right (ih _)
  | lock k f ih => exact fun snap d' hd => ih _ _ (h snap d' hd)
  | commit p ih => exact fun d' hd => (h d' hd).imp_right ih
  | rollback p ih => exact fun d' hd => ih (h d' hd)

theorem under_bind {p : Prog D W K Λ E B} {g : B → Prog D W K Λ E A} :
    (p.bind g).Under rely guar Φ ws d ↔
      p.Under rely guar (fun b ws' d' => (g b).Under rely guar Φ ws' d') ws d := by
  induction p generalizing ws d with
  | ret b => exact Iff.rfl
  | fail e => exact Iff.rfl
  | write w p ih | mark l p ih => exact ih
  | fresh f ih => exact forall₂_congr fun _ n => forall_congr' fun _ => ih n
  | query f ih | read f ih => exact forall₂_congr fun _ _ => ih _
  | atomic u f ih => exact forall₂_congr fun _ _ => and_congr_right fun _ => ih _
  | lock k f ih => exact forall₂_congr fun _ _ => forall_congr' fun _ => ih _ _
  | commit p ih => exact forall₂_congr fun _ _ => and_congr_right fun _ => ih
  | rollback p ih => exact forall₂_congr fun _ _ => ih

/-- A program whose first part is known. -/
theorem under_bind_of {p : Prog D W K Λ E B} {g : B → Prog D W K Λ E A}
    {Φ₁ : B → List W → D → Prop} (hp : p.Under rely guar Φ₁ ws d)
    (hg : ∀ b ws d, Φ₁ b ws d → (g b).Under rely guar Φ ws d) : (p.bind g).Under rely guar Φ ws d :=
  under_bind.2 (under_mono hg hp)

end Rules

/-! ### Calls -/

section Calls

variable {rely guar : D → D → Prop} {Φ : A → List W → D → Prop}

/-- A call does what its program says. -/
def Call.Under (rely guar : D → D → Prop) (Φ : A → List W → D → Prop) (d : D) :
    Call D W K Λ E A → Prop
  | run p loc _ => ∃ d₀, rely d₀ d ∧ p.Under rely guar Φ loc.pending d₀
  | done _ _ | crashed _ => True

/-- The shared state after a step of a call: as before, with an id drawn, or changed as promised. -/
def Changed (guar : D → D → Prop) (d d' : D) : Prop := d' = d ∨ d' = bump d ∨ guar d d'

theorem Call.under_settle (hrefl : ∀ d, rely d d) {p : Prog D W K Λ E A} {loc : Local D W K Λ}
    {d : D} (h : p.Under rely guar Φ loc.pending d) : (Call.settle p loc).Under rely guar Φ d := by
  induction p generalizing loc with
  | ret a => trivial
  | fail e => trivial
  | write w p ih => exact @ih (loc.wrote w) h
  | mark l p ih => exact @ih (loc.at' (l loc.label)) h
  | _ => exact ⟨d, hrefl d, h⟩

theorem Call.under_next (hrefl : ∀ d, rely d d) {free : K → Bool} {c c' : Call D W K Λ E A}
    {d d' : D} (h : c.Under rely guar Φ d) (hn : c.next free d = some (d', c')) :
    c'.Under rely guar Φ d' ∧ Changed guar d d' := by
  match c with
  | done r made => cases hn
  | crashed made => cases hn
  | run p loc w =>
    obtain ⟨d₀, hd, hp⟩ := h
    cases p with
    | ret | fail | write | mark => cases w <;> cases hn
    | fresh => cases w <;> cases hn <;> exact ⟨under_settle hrefl (hp _ _ hd), .inr (.inl rfl)⟩
    | query | read => cases w <;> cases hn <;> exact ⟨under_settle hrefl (hp _ hd), .inl rfl⟩
    | atomic | commit =>
      cases w <;> cases hn <;>
        exact ⟨under_settle hrefl (hp _ hd).2, .inr (.inr (hp _ hd).1)⟩
    | rollback => cases w <;> cases hn <;> exact ⟨under_settle hrefl (hp _ hd), .inl rfl⟩
    | lock k f =>
      cases w with
      | none => cases hn; exact ⟨⟨d₀, hd, hp⟩, .inl rfl⟩
      | some snap =>
        simp only [next] at hn
        split at hn <;> cases hn
        exact ⟨under_settle hrefl (hp snap _ hd), .inl rfl⟩

theorem Call.under_of_rely (htrans : ∀ d₁ d₂ d₃, rely d₁ d₂ → rely d₂ d₃ → rely d₁ d₃)
    {c : Call D W K Λ E A} {d d' : D} (h : c.Under rely guar Φ d) (hd : rely d d') :
    c.Under rely guar Φ d' := by
  cases c with
  | run p loc w =>
    obtain ⟨d₀, hd₀, hp⟩ := h
    exact ⟨d₀, htrans _ _ _ hd₀ hd, hp⟩
  | done | crashed => trivial

end Calls

/-! ### Systems -/

section Systems

variable [DecidableEq ι] {env : D → D → Prop} {rely guar : ι → D → D → Prop}
  {Φ : ι → A → List W → D → Prop}

/-- What the calls rely on is promised by the others, and kept by the environment. -/
structure Promised (env : D → D → Prop) (rely guar : ι → D → D → Prop) : Prop where
  refl : ∀ i d, rely i d d
  trans : ∀ i d₁ d₂ d₃, rely i d₁ d₂ → rely i d₂ d₃ → rely i d₁ d₃
  env : ∀ i d d', env d d' → rely i d d'
  bump : ∀ i d, rely i d (bump d)
  guar : ∀ i j d d', i ≠ j → guar j d d' → rely i d d'

/-- One step: the calls go on as their programs say, and a change is one that its call promises. -/
theorem under_of_step (hR : Promised env rely guar) {e : Event ι} {s s' : Sys ι D W K Λ E A}
    (h : ∀ i, (s.calls i).Under (rely i) (guar i) (Φ i) s.shared) (hst : Step env e s s') :
    (∀ i, (s'.calls i).Under (rely i) (guar i) (Φ i) s'.shared) ∧
      (s'.shared = s.shared ∨ env s.shared s'.shared ∨
        ∃ i, Changed (guar i) s.shared s'.shared) := by
  cases e with
  | env =>
    obtain ⟨d, he, rfl⟩ := hst
    exact ⟨fun i => Call.under_of_rely (hR.trans i) (h i) (hR.env i _ _ he), .inr (.inl he)⟩
  | crash j =>
    obtain ⟨p, loc, w, hj, rfl⟩ := hst
    refine ⟨fun i => ?_, .inl rfl⟩
    by_cases hij : i = j
    · subst hij
      simp [Call.Under]
    · simpa only [Function.update_of_ne hij] using h i
  | go j =>
    obtain ⟨free, -, d, c, hn, rfl⟩ := hst
    obtain ⟨hc, hch⟩ := Call.under_next (hR.refl j) (h j) hn
    refine ⟨fun i => ?_, .inr (.inr ⟨j, hch⟩)⟩
    by_cases hij : i = j
    · subst hij
      simpa using hc
    · have hd : rely i s.shared d := by
        rcases hch with rfl | rfl | hg
        · exact hR.refl i _
        · exact hR.bump i _
        · exact hR.guar i j _ _ hij hg
      simpa only [Function.update_of_ne hij] using Call.under_of_rely (hR.trans i) (h i) hd

/-- **Rely and guarantee**: a fact that the environment, drawn ids and all promised changes keep
holds in every reachable state. -/
theorem under_of_reach (hR : Promised env rely guar) {I : D → Prop}
    (henv : ∀ d d', I d → env d d' → I d') (hbump : ∀ d, I d → I (bump d))
    (hguar : ∀ i d d', I d → guar i d d' → I d') {s s' : Sys ι D W K Λ E A} (hs : I s.shared)
    (h : ∀ i, (s.calls i).Under (rely i) (guar i) (Φ i) s.shared) (hr : Reach (Step env) s s') :
    I s'.shared := by
  refine (hr.invariant (I := fun s => I s.shared ∧
    ∀ i, (s.calls i).Under (rely i) (guar i) (Φ i) s.shared) ⟨hs, h⟩ ?_).1
  rintro s₁ e s₂ - ⟨hi, hu⟩ hst
  obtain ⟨hu', hch⟩ := under_of_step hR hu hst
  refine ⟨?_, hu'⟩
  rcases hch with he | he | ⟨i, he | he | hg⟩
  · exact he ▸ hi
  · exact henv _ _ hi he
  · exact he ▸ hi
  · exact he ▸ hbump _ hi
  · exact hguar i _ _ hi hg

end Systems

end ReadCommitted
