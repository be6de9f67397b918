import Kimana.ReadCommitted.Rely

/-!
# Programs all of whose writes are of one kind

When every write of a program keeps a relation `Q` while a fact `S` holds, and others keep that
fact, so does every commit: `wp_of_writes`.
-/

namespace ReadCommitted

variable {ι D W K Λ E A B : Type}

/-- Every write of the program satisfies `P`, every change it makes outside a transaction `U`, and
every change of its label `L`. -/
def Prog.Writes (P : W → Prop) (U : (D → D) → Prop) (L : (Λ → Λ) → Prop) :
    Prog D W K Λ E A → Prop
  | ret _ | fail _ => True
  | fresh f => ∀ n, (f n).Writes P U L
  | atomic u f => U u ∧ ∀ d, (f d).Writes P U L
  | query f | read f => ∀ d, (f d).Writes P U L
  | lock _ f => ∀ d d', (f d d').Writes P U L
  | write w p => P w ∧ p.Writes P U L
  | mark l p => L l ∧ p.Writes P U L
  | commit p | rollback p => p.Writes P U L

section Writes

variable {P : W → Prop} {U : (D → D) → Prop} {L : (Λ → Λ) → Prop}

theorem Prog.Writes.bind {p : Prog D W K Λ E B} {g : B → Prog D W K Λ E A} (hp : p.Writes P U L)
    (hg : ∀ b, (g b).Writes P U L) : (p.bind g).Writes P U L := by
  induction p with
  | ret b => exact hg b
  | fail e => trivial
  | fresh f ih | query f ih | read f ih => exact fun d => ih d (hp d)
  | atomic u f ih => exact ⟨hp.1, fun d => ih d (hp.2 d)⟩
  | lock k f ih => exact fun d d' => ih d d' (hp d d')
  | write w p ih | mark l p ih => exact ⟨hp.1, ih hp.2⟩
  | commit p ih | rollback p ih => exact ih hp

theorem Prog.Writes.tryCatch {p : Prog D W K Λ E A} {h : E → Prog D W K Λ E A}
    (hp : p.Writes P U L) (hh : ∀ e, (h e).Writes P U L) : (p.tryCatch h).Writes P U L := by
  induction p with
  | ret b => trivial
  | fail e => exact hh e
  | fresh f ih | query f ih | read f ih => exact fun d => ih d (hp d)
  | atomic u f ih => exact ⟨hp.1, fun d => ih d (hp.2 d)⟩
  | lock k f ih => exact fun d d' => ih d d' (hp d d')
  | write w p ih | mark l p ih => exact ⟨hp.1, ih hp.2⟩
  | commit p ih | rollback p ih => exact ih hp

end Writes

variable [Store D W]

/-- While `S` holds, the writes may be carried out: they keep `Q`. -/
def MayCommit (Q : D → D → Prop) (S : D → Prop) (ws : List W) : Prop :=
  ∀ d, S d → Q d (applyAll ws d)

/-- What `wp_of_writes` asks of the relation and the fact: the fact survives what others do to a
call at label `l`, and the relation is what call `i` promises. -/
structure Keeps (R : Rules ι D K Λ) (i : ι) (l : Λ) (Q : D → D → Prop) (S : D → Prop) : Prop where
  refl : ∀ d, Q d d
  trans : ∀ d d' d'', Q d d' → Q d' d'' → Q d d''
  keeps : ∀ d d', S d → Q d d' → S d'
  others : ∀ ℓ ids w d d', S d → R.Others ℓ ids l w d d' → S d'
  bump : ∀ d, S d → S (bump d)
  guar : ∀ ℓ ids d d', S d → Q d d' → R.guar i ℓ ids d d'
  stand : ∀ d, R.stand l d

section Keeps

variable {R : Rules ι D K Λ} {i : ι} {l : Λ} {Q : D → D → Prop} {S : D → Prop}

theorem Keeps.rely (h : Keeps R i l Q S) {loc : Local D W K Λ} (hl : loc.label = l) {w : Option D}
    {d d' : D} (hr : R.Rely loc w d d') (hs : S d) : S d' :=
  hr.invariant hs fun _ _ hs ho => h.others _ _ _ _ _ hs (hl ▸ ho)

theorem MayCommit.nil (h : Keeps R i l Q S) : MayCommit Q S ([] : List W) := fun d _ => h.refl d

theorem MayCommit.concat (h : Keeps R i l Q S) {ws : List W} (hws : MayCommit Q S ws) {w : W}
    (hw : ∀ d, S d → Q d (Store.apply w d)) : MayCommit Q S (ws ++ [w]) := by
  intro d hs
  rw [applyAll_append]
  have hq := hws d hs
  exact h.trans _ _ _ hq (hw _ (h.keeps _ _ hs hq))

/-- A program whose writes keep `Q` commits nothing else, and `S` holds when it ends.  Its labels
stay among those at which `S` survives. -/
theorem wp_of_writes {G : Λ → Prop} (h : ∀ l, G l → Keeps R i l Q S) {P : W → Prop}
    {U : (D → D) → Prop} {L : (Λ → Λ) → Prop} (hP : ∀ w d, P w → S d → Q d (Store.apply w d))
    (hU : ∀ u d, U u → S d → Q d (u d)) (hL : ∀ f l, L f → G l → G (f l))
    {p : Prog D W K Λ E A} (hp : p.Writes P U L) {loc : Local D W K Λ} (hl : G loc.label) {d : D}
    (hs : S d) (hpend : MayCommit Q S loc.pending) :
    wp R i (fun _ loc' d' => G loc'.label ∧ S d' ∧ MayCommit Q S loc'.pending)
      (fun _ loc' d' => G loc'.label ∧ S d') p loc d := by
  -- Others may interfere before each statement; `hk` says that they keep `S`.
  have hk := h _ hl
  induction p generalizing loc d with
  | ret a => exact ⟨hl, hs, hpend⟩
  | fail e => exact ⟨hl, hs⟩
  | mark l p ih =>
    have hl' := hL l _ hp.1 hl
    exact @ih hp.2 (loc.at' (l loc.label)) hl' _ hs hpend (h _ hl')
  | write w p ih =>
    exact @ih hp.2 (loc.wrote w) hl _ hs (hpend.concat hk fun d hs => hP w d hp.1 hs) hk
  | fresh f ih =>
    exact fun d₁ hr => ⟨hk.stand _, @ih _ (hp _) (loc.draw _) hl _
      (hk.bump _ (hk.rely rfl hr hs)) hpend hk⟩
  | atomic u f ih =>
    intro d₁ hr
    have hs₁ := hk.rely rfl hr hs
    have hq := hU u d₁ hp.1 hs₁
    exact ⟨hk.stand _, hk.guar _ _ _ _ hs₁ hq,
      @ih _ (hp.2 _) (loc.changed _ _) hl _ (hk.keeps _ _ hs₁ hq) hpend hk⟩
  | query f ih | read f ih =>
    exact fun d₁ hr => ⟨hk.stand _, ih _ (hp _) hl (hk.rely rfl hr hs) hpend hk⟩
  | lock k f ih =>
    intro d₁ hr
    have hs₁ := hk.rely rfl hr hs
    exact ⟨hk.stand _, fun d₂ hr₂ => ⟨hk.stand _,
      @ih _ _ (hp _ _) (loc.hold k) hl _ (hk.rely rfl hr₂ hs₁) hpend hk⟩⟩
  | commit p ih =>
    intro d₁ hr
    have hs₁ := hk.rely rfl hr hs
    have hq := hpend d₁ hs₁
    exact ⟨hk.stand _, hk.guar _ _ _ _ hs₁ hq,
      @ih hp (loc.ended.changed _ _) hl _ (hk.keeps _ _ hs₁ hq) (.nil hk) hk⟩
  | rollback p ih =>
    exact fun d₁ hr => ⟨hk.stand _, @ih hp loc.ended hl _ (hk.rely rfl hr hs) (.nil hk) hk⟩

end Keeps

end ReadCommitted
