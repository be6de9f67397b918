import Kimana.ReadCommitted.System
import Mathlib.Order.Nat

/-!
# Rely and guarantee for transactions

A call promises that each change it makes to the shared state satisfies its guarantee, which
may mention the row locks and row ids the call holds at that moment.  It may rely on the
guarantees of the other calls, for locks and ids disjoint from its own.

* `Rules` : the guarantees, the environment, and a condition on the runs considered.
* `Rules.Rely` : what can happen to the shared state while a call stands still.
* `wp` : the weakest precondition of a program under interference, with its rules
  (`wp_bind`, `wp_tryCatch`, `wp_mapError`, `wp_mono`).
* `SysOk.reach` : **soundness**: if every call satisfies its `wp` at the start, then in every
  run every change satisfies the guarantee of the call that makes it, every running call stands
  where its label is right, and every answered call satisfies its postcondition.
* `changes_of_wp` : the same for a program that runs alone.
-/

namespace ReadCommitted

variable {ι D W K Λ E A B : Type}

/-- What the calls of a system promise, what the environment does, and the condition the runs
considered meet. -/
structure Rules (ι D K Λ : Type) where
  /-- `guar i ℓ ids d d'` : call `i`, holding locks `ℓ` and ids `ids`, may change `d` to `d'`. -/
  guar : ι → List K → List ℕ → D → D → Prop
  /-- What the environment may do. -/
  env : D → D → Prop
  /-- The condition on a step, seen from a call at a label that may wait with a snapshot. -/
  cond : Λ → Option D → D → D → Prop := fun _ _ _ _ => True
  /-- What holds of the shared state while a call stands at a label. -/
  stand : Λ → D → Prop := fun _ _ => True

variable [Store D W]

namespace Rules

variable (R : Rules ι D K Λ)

/-- One change by others, seen from a call that holds `ℓ` and `ids` at label `l`. -/
inductive Others (ℓ : List K) (ids : List ℕ) (l : Λ) (w : Option D) : D → D → Prop
  | bump {d : D} : Others ℓ ids l w d (bump d)
  | guar {d d' : D} (j : ι) (ℓ' : List K) (ids' : List ℕ) : (∀ k ∈ ℓ', k ∉ ℓ) →
      (∀ n ∈ ids', n ∉ ids) → (∀ n ∈ ids', n < seq d) → R.guar j ℓ' ids' d d' →
      R.cond l w d d' → Others ℓ ids l w d d'
  | env {d d' : D} : R.env d d' → R.cond l w d d' → Others ℓ ids l w d d'

/-- What can happen to the shared state while a call with `loc` stands still. -/
def Rely (loc : Local D W K Λ) (w : Option D) : D → D → Prop :=
  Relation.ReflTransGen (R.Others loc.locks loc.ids loc.label w)

/-- Row ids only grow. -/
structure SeqMono : Prop where
  guar : ∀ i ℓ ids d d', R.guar i ℓ ids d d' → seq d ≤ seq d'
  env : ∀ d d', R.env d d' → seq d ≤ seq d'

variable {R}

@[refl] theorem Rely.refl {loc : Local D W K Λ} {w : Option D} (d : D) : R.Rely loc w d d :=
  Relation.ReflTransGen.refl

theorem Rely.trans {loc : Local D W K Λ} {w : Option D} {d₁ d₂ d₃ : D}
    (h₁ : R.Rely loc w d₁ d₂) (h₂ : R.Rely loc w d₂ d₃) : R.Rely loc w d₁ d₃ :=
  Relation.ReflTransGen.trans h₁ h₂

/-- A call that holds more, and stands where the condition asks for more, relies on more. -/
theorem Rely.weaken {loc loc' : Local D W K Λ} {w w' : Option D}
    (hℓ : ∀ k ∈ loc.locks, k ∈ loc'.locks) (hids : ∀ n ∈ loc.ids, n ∈ loc'.ids)
    (hc : ∀ d d', R.cond loc'.label w' d d' → R.cond loc.label w d d') {d d' : D}
    (h : R.Rely loc' w' d d') : R.Rely loc w d d' := by
  refine Relation.ReflTransGen.mono (fun _ _ ho => ?_) _ _ h
  cases ho with
  | bump => exact .bump
  | guar j ℓ₁ ids₁ h₁ h₂ h₃ hg hc' =>
    exact .guar j ℓ₁ ids₁ (fun k hk hk' => h₁ k hk (hℓ k hk'))
      (fun n hn hn' => h₂ n hn (hids n hn')) h₃ hg (hc _ _ hc')
  | env he hc' => exact .env he (hc _ _ hc')

/-- A predicate kept by every change of others is kept while a call stands still. -/
theorem Rely.invariant {loc : Local D W K Λ} {w : Option D} {P : D → Prop} {d d' : D}
    (h : R.Rely loc w d d') (h₀ : P d)
    (hstep : ∀ d d', P d → R.Others loc.locks loc.ids loc.label w d d' → P d') : P d' := by
  induction h with
  | refl => exact h₀
  | tail _ hst ih => exact hstep _ _ ih hst

theorem Others.seq_le (hR : R.SeqMono) {ℓ : List K} {ids : List ℕ} {l : Λ}
    {w : Option D} {d d' : D} (h : R.Others ℓ ids l w d d') : seq d ≤ seq d' := by
  cases h with
  | bump => rw [seq_bump]; omega
  | guar j ℓ' ids' _ _ _ hg _ => exact hR.guar j ℓ' ids' _ _ hg
  | env he _ => exact hR.env _ _ he

end Rules

open Rules

/-! ### Weakest preconditions -/

/-- Call `i` can run the program from `loc` and `d` under interference: every change it makes
satisfies its guarantee, wherever it stands its label is right, an answer satisfies `Φ` and an
error satisfies `Ψ`. -/
def wp (R : Rules ι D K Λ) (i : ι) (Φ : A → Local D W K Λ → D → Prop)
    (Ψ : E → Local D W K Λ → D → Prop) : Prog D W K Λ E A → Local D W K Λ → D → Prop
  | .ret a, loc, d => Φ a loc d
  | .fail e, loc, d => Ψ e loc d
  | .write w p, loc, d => wp R i Φ Ψ p (loc.wrote w) d
  | .mark l p, loc, d => wp R i Φ Ψ p (loc.at' (l loc.label)) d
  | .fresh f, loc, d => ∀ d', R.Rely loc none d d' → R.stand loc.label d' ∧
      wp R i Φ Ψ (f (seq d')) (loc.draw (seq d')) (bump d')
  | .atomic u f, loc, d => ∀ d', R.Rely loc none d d' → R.stand loc.label d' ∧
      R.guar i loc.locks loc.ids d' (u d') ∧
      wp R i Φ Ψ (f d') (loc.changed d' (u d')) (u d')
  | .query f, loc, d => ∀ d', R.Rely loc none d d' → R.stand loc.label d' ∧
      wp R i Φ Ψ (f d') loc d'
  | .read f, loc, d => ∀ d', R.Rely loc none d d' → R.stand loc.label d' ∧
      wp R i Φ Ψ (f (applyAll loc.pending d')) loc d'
  | .lock k f, loc, d => ∀ d', R.Rely loc none d d' → R.stand loc.label d' ∧
      ∀ d'', R.Rely loc (some (applyAll loc.pending d')) d' d'' → R.stand loc.label d'' ∧
      wp R i Φ Ψ (f (applyAll loc.pending d') (applyAll loc.pending d''))
        (loc.hold k) d''
  | .commit p, loc, d => ∀ d', R.Rely loc none d d' → R.stand loc.label d' ∧
      R.guar i loc.locks loc.ids d' (applyAll loc.pending d') ∧
      wp R i Φ Ψ p (loc.ended.changed d' (applyAll loc.pending d'))
        (applyAll loc.pending d')
  | .rollback p, loc, d => ∀ d', R.Rely loc none d d' → R.stand loc.label d' ∧
      wp R i Φ Ψ p loc.ended d'

variable {R : Rules ι D K Λ} {i : ι}

section Rules

variable {Φ Φ' : A → Local D W K Λ → D → Prop} {Ψ Ψ' : E → Local D W K Λ → D → Prop}

theorem wp_mono {p : Prog D W K Λ E A} {loc : Local D W K Λ} {d : D}
    (hΦ : ∀ a loc d, Φ a loc d → Φ' a loc d) (hΨ : ∀ e loc d, Ψ e loc d → Ψ' e loc d)
    (h : wp R i Φ Ψ p loc d) : wp R i Φ' Ψ' p loc d := by
  induction p generalizing loc d with
  | ret a => exact hΦ _ _ _ h
  | fail e => exact hΨ _ _ _ h
  | write w p ih => exact ih h
  | mark l p ih => exact ih h
  | fresh f ih => exact fun d₁ h₁ => (h d₁ h₁).imp_right (ih _)
  | atomic u f ih => exact fun d₁ h₁ => (h d₁ h₁).imp_right (And.imp_right (ih _))
  | query f ih => exact fun d₁ h₁ => (h d₁ h₁).imp_right (ih _)
  | read f ih => exact fun d₁ h₁ => (h d₁ h₁).imp_right (ih _)
  | lock k f ih =>
    exact fun d₁ h₁ => (h d₁ h₁).imp_right fun h d₂ h₂ => (h d₂ h₂).imp_right (ih _ _)
  | commit p ih => exact fun d₁ h₁ => (h d₁ h₁).imp_right (And.imp_right ih)
  | rollback p ih => exact fun d₁ h₁ => (h d₁ h₁).imp_right ih

theorem wp_bind {p : Prog D W K Λ E B} {g : B → Prog D W K Λ E A} {loc : Local D W K Λ} {d : D} :
    wp R i Φ Ψ (p.bind g) loc d ↔ wp R i (fun b => wp R i Φ Ψ (g b)) Ψ p loc d := by
  induction p generalizing loc d with
  | ret b => exact Iff.rfl
  | fail e => exact Iff.rfl
  | write w p ih => exact ih
  | mark l p ih => exact ih
  | fresh f ih => exact forall₂_congr fun _ _ => and_congr_right fun _ => ih _
  | atomic u f ih =>
    exact forall₂_congr fun _ _ => and_congr_right fun _ => and_congr_right fun _ => ih _
  | query f ih => exact forall₂_congr fun _ _ => and_congr_right fun _ => ih _
  | read f ih => exact forall₂_congr fun _ _ => and_congr_right fun _ => ih _
  | lock k f ih =>
    exact forall₂_congr fun _ _ => and_congr_right fun _ =>
      forall₂_congr fun _ _ => and_congr_right fun _ => ih _ _
  | commit p ih =>
    exact forall₂_congr fun _ _ => and_congr_right fun _ => and_congr_right fun _ => ih
  | rollback p ih => exact forall₂_congr fun _ _ => and_congr_right fun _ => ih

/-- Labelling what a query sees. -/
theorem wp_noting {note : D → Λ → Λ} {p : Prog D W K Λ E A} {loc : Local D W K Λ} {d : D}
    (h : ∀ l d', R.Rely loc none d d' → wp R i Φ Ψ p (loc.at' l) d') :
    wp R i Φ Ψ (p.noting note) loc d := by
  cases p with
  | query f =>
    intro d' hr
    obtain ⟨hs, -⟩ := h loc.label d' hr d' (.refl _)
    obtain ⟨-, hw⟩ := h (note d' loc.label) d' hr d' (.refl _)
    exact ⟨hs, hw⟩
  | _ => exact h loc.label d (.refl _)

theorem wp_mark {l : Λ → Λ} {p : Prog D W K Λ E A} {loc : Local D W K Λ} {d : D} :
    wp R i Φ Ψ (.mark l p) loc d ↔ wp R i Φ Ψ p (loc.at' (l loc.label)) d := Iff.rfl

/-- A program whose first part is specified. -/
theorem wp_bind_of {p : Prog D W K Λ E B} {g : B → Prog D W K Λ E A} {loc : Local D W K Λ} {d : D}
    {Φ₁ : B → Local D W K Λ → D → Prop} {Ψ₁ : E → Local D W K Λ → D → Prop}
    (hp : wp R i Φ₁ Ψ₁ p loc d) (hΨ : ∀ e loc d, Ψ₁ e loc d → Ψ e loc d)
    (hΦ : ∀ b loc d, Φ₁ b loc d → wp R i Φ Ψ (g b) loc d) : wp R i Φ Ψ (p.bind g) loc d :=
  wp_bind.2 (wp_mono hΦ hΨ hp)

theorem wp_mapError {E' : Type} {h : E → E'} {Ψ : E' → Local D W K Λ → D → Prop}
    {p : Prog D W K Λ E A} {loc : Local D W K Λ} {d : D} :
    wp R i Φ Ψ (p.mapError h) loc d ↔ wp R i Φ (fun e => Ψ (h e)) p loc d := by
  induction p generalizing loc d with
  | ret a => exact Iff.rfl
  | fail e => exact Iff.rfl
  | write w p ih => exact ih
  | mark l p ih => exact ih
  | fresh f ih => exact forall₂_congr fun _ _ => and_congr_right fun _ => ih _
  | atomic u f ih =>
    exact forall₂_congr fun _ _ => and_congr_right fun _ => and_congr_right fun _ => ih _
  | query f ih => exact forall₂_congr fun _ _ => and_congr_right fun _ => ih _
  | read f ih => exact forall₂_congr fun _ _ => and_congr_right fun _ => ih _
  | lock k f ih =>
    exact forall₂_congr fun _ _ => and_congr_right fun _ =>
      forall₂_congr fun _ _ => and_congr_right fun _ => ih _ _
  | commit p ih =>
    exact forall₂_congr fun _ _ => and_congr_right fun _ => and_congr_right fun _ => ih
  | rollback p ih => exact forall₂_congr fun _ _ => and_congr_right fun _ => ih

theorem wp_tryCatch {p : Prog D W K Λ E A} {h : E → Prog D W K Λ E A} {loc : Local D W K Λ}
    {d : D} : wp R i Φ Ψ (p.tryCatch h) loc d ↔
      wp R i Φ (fun e loc d => ∀ d', R.Rely loc none d d' → R.stand loc.label d' ∧
        wp R i Φ Ψ (h e) loc.ended d') p loc d := by
  induction p generalizing loc d with
  | ret a => exact Iff.rfl
  | fail e => exact Iff.rfl
  | write w p ih => exact ih
  | mark l p ih => exact ih
  | fresh f ih => exact forall₂_congr fun _ _ => and_congr_right fun _ => ih _
  | atomic u f ih =>
    exact forall₂_congr fun _ _ => and_congr_right fun _ => and_congr_right fun _ => ih _
  | query f ih => exact forall₂_congr fun _ _ => and_congr_right fun _ => ih _
  | read f ih => exact forall₂_congr fun _ _ => and_congr_right fun _ => ih _
  | lock k f ih =>
    exact forall₂_congr fun _ _ => and_congr_right fun _ =>
      forall₂_congr fun _ _ => and_congr_right fun _ => ih _ _
  | commit p ih =>
    exact forall₂_congr fun _ _ => and_congr_right fun _ => and_congr_right fun _ => ih
  | rollback p ih => exact forall₂_congr fun _ _ => and_congr_right fun _ => ih

end Rules

/-! ### Soundness -/

variable [Inhabited Λ]

/-- `Q` of the answer, whatever others do after it. -/
def Stays (R : Rules ι D K Λ) (Q : Except E A → List (D × D) → D → Prop) (r : Except E A)
    (made : List (D × D)) (d : D) : Prop :=
  ∀ d', Relation.ReflTransGen (R.Others [] [] default none) d d' → Q r made d'

/-- The weakest precondition of an answer that satisfies `Q` from then on. -/
def Runs (R : Rules ι D K Λ) (i : ι) (Q : Except E A → List (D × D) → D → Prop) :
    Prog D W K Λ E A → Local D W K Λ → D → Prop :=
  wp R i (fun a loc => Stays R Q (.ok a) loc.made) (fun e loc => Stays R Q (.error e) loc.made)

/-- Call `i` stands where its promises hold and its answer will satisfy `Q`. -/
def CallOk (R : Rules ι D K Λ) (i : ι) (Q : Except E A → List (D × D) → D → Prop) :
    Call D W K Λ E A → D → Prop
  | .run p loc none, d => ∀ d', R.Rely loc none d d' → R.stand loc.label d' ∧ Runs R i Q p loc d'
  | .run p loc (some snap), d => ∃ k f, p = .lock k f ∧
      ∀ d', R.Rely loc (some snap) d d' → R.stand loc.label d' ∧
        Runs R i Q (f snap (applyAll loc.pending d')) (loc.hold k) d'
  | .done r made, d => Stays R Q r made d
  | .crashed _, _ => True

variable {Q : Except E A → List (D × D) → D → Prop}

theorem CallOk.others {c : Call D W K Λ E A} {d d' : D} (h : CallOk R i Q c d)
    (ho : R.Others c.locks c.ids c.label c.wait d d') : CallOk R i Q c d' := by
  match c with
  | .run p loc none => exact fun d₁ h₁ => h d₁ (.head ho h₁)
  | .run p loc (some snap) =>
    obtain ⟨k, f, rfl, hw⟩ := h
    exact ⟨k, f, rfl, fun d₁ h₁ => hw d₁ (.head ho h₁)⟩
  | .done r made => exact fun d₁ h₁ => h d₁ (.head ho h₁)
  | .crashed _ => trivial

/-- A call that has gone on to its next statement is in order. -/
theorem Runs.settle {p : Prog D W K Λ E A} {loc : Local D W K Λ} {d : D}
    (h : Runs R i Q p loc d) : CallOk R i Q (Call.settle p loc) d := by
  induction p generalizing loc with
  | ret a => exact h
  | fail e => exact h
  | write w p ih => exact @ih (loc.wrote w) h
  | mark l p ih => exact @ih (loc.at' (l loc.label)) h
  | _ => exact fun d₁ h₁ => ⟨(h d₁ h₁).1, fun d₂ h₂ => h d₂ (h₁.trans h₂)⟩

/-- A call stands where its label is right. -/
theorem CallOk.stand {p : Prog D W K Λ E A} {loc : Local D W K Λ} {w : Option D} {d : D}
    (h : CallOk R i Q (.run p loc w) d) : R.stand loc.label d := by
  cases w with
  | none => exact (h d (.refl d)).1
  | some snap =>
    obtain ⟨_, _, _, hw⟩ := h
    exact (hw d (.refl d)).1

/-- The change a call makes in one statement: none, a drawn id, or one its guarantee allows. -/
def Change (R : Rules ι D K Λ) (i : ι) (ℓ : List K) (ids : List ℕ) (d d' : D) : Prop :=
  d' = d ∨ d' = bump d ∨ R.guar i ℓ ids d d'

/-- What one statement of a call that holds `ℓ` and `ids` leaves: the call in order, an allowed
change, and only free locks and new ids. -/
structure Stepped (R : Rules ι D K Λ) (i : ι) (Q : Except E A → List (D × D) → D → Prop)
    (free : K → Bool) (ℓ : List K) (ids : List ℕ) (d d' : D) (c : Call D W K Λ E A) : Prop where
  ok : CallOk R i Q c d'
  change : Change R i ℓ ids d d'
  locks : ∀ k ∈ c.locks, k ∈ ℓ ∨ free k = true
  ids : ∀ n ∈ c.ids, n ∈ ids ∨ n = seq d ∧ d' = bump d

/-- A statement whose continuation runs from `loc` with locks and ids of the call. -/
theorem Stepped.of_runs {free : K → Bool} {p : Prog D W K Λ E A} {loc : Local D W K Λ}
    {ℓ : List K} {ids : List ℕ} {d d' : D} (h : Runs R i Q p loc d') (hc : Change R i ℓ ids d d')
    (hℓ : ∀ k ∈ loc.locks, k ∈ ℓ ∨ free k = true)
    (hids : ∀ n ∈ loc.ids, n ∈ ids ∨ n = seq d ∧ d' = bump d) :
    Stepped R i Q free ℓ ids d d' (Call.settle p loc) :=
  ⟨h.settle, hc, fun k hk => hℓ k (Call.locks_settle hk),
    fun n hn => hids n (Call.ids_settle hn)⟩

theorem CallOk.next {free : K → Bool} {c c' : Call D W K Λ E A} {d d' : D}
    (h : CallOk R i Q c d) (hn : c.next free d = some (d', c')) :
    Stepped R i Q free c.locks c.ids d d' c' := by
  match c with
  | .done r made => cases hn
  | .crashed made => cases hn
  | .run p loc (some snap) =>
    obtain ⟨k, f, rfl, hw⟩ := h
    -- The wait ends only when the lock is free.
    simp only [Call.next] at hn
    split at hn
    · rename_i hk
      cases hn
      refine .of_runs (hw d (.refl d)).2 (.inl rfl) (fun k' hk' => ?_) fun n hn => .inl hn
      rcases List.mem_cons.1 hk' with rfl | hk'
      · exact .inr hk
      · exact .inl hk'
    · cases hn
  | .run p loc none =>
    have h := (h d (.refl d)).2
    cases p with
    | ret | fail | write | mark => cases hn
    | fresh f =>
      cases hn
      refine .of_runs (h d (.refl d)).2 (.inr (.inl rfl)) (fun k hk => .inl hk) fun n hn => ?_
      rcases List.mem_cons.1 hn with rfl | hn
      · exact .inr ⟨rfl, rfl⟩
      · exact .inl hn
    | atomic u f =>
      cases hn
      obtain ⟨-, hg, hw⟩ := h d (.refl d)
      exact .of_runs hw (.inr (.inr hg)) (fun k hk => .inl hk) fun n hn => .inl hn
    | query f =>
      cases hn
      exact .of_runs (h d (.refl d)).2 (.inl rfl) (fun k hk => .inl hk) fun n hn => .inl hn
    | read f =>
      cases hn
      exact .of_runs (h d (.refl d)).2 (.inl rfl) (fun k hk => .inl hk) fun n hn => .inl hn
    | lock k f =>
      cases hn
      exact ⟨⟨k, f, rfl, (h d (.refl d)).2⟩, .inl rfl, fun k hk => .inl hk, fun n hn => .inl hn⟩
    | commit p =>
      cases hn
      obtain ⟨-, hg, hw⟩ := h d (.refl d)
      exact .of_runs hw (.inr (.inr hg)) (by simp [Local.ended]) (by simp [Local.ended])
    | rollback p =>
      cases hn
      exact .of_runs (h d (.refl d)).2 (.inl rfl) (by simp [Local.ended]) (by simp [Local.ended])

/-- Every call is in order, and no two calls hold the same lock or id. -/
structure SysOk (R : Rules ι D K Λ) (Q : ι → Except E A → List (D × D) → D → Prop)
    (s : Sys ι D W K Λ E A) : Prop where
  calls : ∀ i, CallOk R i (Q i) (s.calls i) s.shared
  locks : ∀ i j, i ≠ j → ∀ k ∈ (s.calls i).locks, k ∉ (s.calls j).locks
  ids : ∀ i j, i ≠ j → ∀ n ∈ (s.calls i).ids, n ∉ (s.calls j).ids
  below : ∀ i, ∀ n ∈ (s.calls i).ids, n < seq s.shared

variable {Q : ι → Except E A → List (D × D) → D → Prop}

/-- A system whose calls have not begun is in order when each satisfies its `wp`. -/
theorem SysOk.start {progs : ι → Prog D W K Λ E A} {d : D}
    (h : ∀ i, Runs R i (Q i) (progs i) { label := default } d) :
    SysOk R Q ⟨d, fun i => .start (progs i)⟩ :=
  ⟨fun i => (h i).settle, fun _ _ _ _ hk => absurd (Call.locks_settle hk) List.not_mem_nil,
    fun _ _ _ _ hn => absurd (Call.ids_settle hn) List.not_mem_nil,
    fun _ _ hn => absurd (Call.ids_settle hn) List.not_mem_nil⟩

/-- An answered call satisfies its postcondition. -/
theorem SysOk.answer {s : Sys ι D W K Λ E A} (h : SysOk R Q s) {i : ι} {r : Except E A}
    {made : List (D × D)} (hi : s.calls i = .done r made) : Q i r made s.shared := by
  have := h.calls i
  rw [hi] at this
  exact this _ .refl

/-- A running call stands where its label is right. -/
theorem SysOk.stand {s : Sys ι D W K Λ E A} (h : SysOk R Q s) {i : ι} {p : Prog D W K Λ E A}
    {loc : Local D W K Λ} {w : Option D} (hi : s.calls i = .run p loc w) :
    R.stand loc.label s.shared := by
  have := h.calls i
  rw [hi] at this
  exact this.stand

variable [DecidableEq ι]

/-- How one step of the system changes the shared state. -/
inductive Moved (R : Rules ι D K Λ) (s : Sys ι D W K Λ E A) : Event ι → D → Prop
  | go (i : ι) (d : D) : (∀ n ∈ (s.calls i).ids, n < seq s.shared) →
      Change R i (s.calls i).locks (s.calls i).ids s.shared d → Moved R s (.go i) d
  | crash (i : ι) : Moved R s (.crash i) s.shared
  | env (d : D) : R.env s.shared d → Moved R s .env d

theorem SysOk.moved {e : Event ι} {s s' : Sys ι D W K Λ E A} (h : SysOk R Q s)
    (hst : Step R.env e s s') : Moved R s e s'.shared := by
  cases e with
  | go i =>
    obtain ⟨free, -, d, c, hn, rfl⟩ := hst
    exact .go i d (h.below i) ((h.calls i).next hn).change
  | crash i =>
    obtain ⟨p, loc, w, -, rfl⟩ := hst
    exact .crash i
  | env =>
    obtain ⟨d, he, rfl⟩ := hst
    exact .env d he

/-- One step of the system keeps it in order. -/
theorem SysOk.step (hR : R.SeqMono) {e : Event ι} {s s' : Sys ι D W K Λ E A} (h : SysOk R Q s)
    (hst : Step R.env e s s') (hc : Meets R.cond e s s') : SysOk R Q s' := by
  cases e with
  | go i =>
    obtain ⟨free, hfree, d, c, hn, rfl⟩ := hst
    obtain ⟨hok, hch, hlocks, hids⟩ := (h.calls i).next hn
    -- The call that steps keeps its own postcondition; for the others the step is interference.
    have hcond : ∀ j, j ≠ i → R.cond (s.calls j).label (s.calls j).wait s.shared d :=
      fun j hj => hc j (by simpa using Ne.symm hj)
    have hseq : seq s.shared ≤ seq d := by
      rcases hch with rfl | rfl | hg
      · rfl
      · rw [seq_bump]; omega
      · exact hR.guar _ _ _ _ _ hg
    refine ⟨fun j => ?_, fun j j' hjj k hk hk' => ?_, fun j j' hjj n hj hj' => ?_,
      fun j n hn' => ?_⟩
    · by_cases hj : j = i
      · subst hj; simpa using hok
      · simp only [Function.update_of_ne hj]
        have hd : ∀ k ∈ (s.calls i).locks, k ∉ (s.calls j).locks := h.locks i j (Ne.symm hj)
        rcases hch with rfl | rfl | hg
        · exact h.calls j
        · exact (h.calls j).others .bump
        · exact (h.calls j).others (.guar i _ _ hd (h.ids i j (Ne.symm hj)) (h.below i) hg
            (hcond j hj))
    · simp only [Function.update_apply] at hk hk'
      split_ifs at hk hk' with h₁ h₂ h₂
      · exact hjj (h₁.trans h₂.symm)
      · -- A lock that `i` took in this step was free.
        rcases hlocks k hk with hk | hk
        · exact h.locks i j' (h₁ ▸ hjj) k hk hk'
        · exact hfree k hk j' h₂ hk'
      · rcases hlocks k hk' with hk' | hk'
        · exact h.locks j i h₁ k hk hk'
        · exact hfree k hk' j h₁ hk
      · exact h.locks j j' hjj k hk hk'
    · simp only [Function.update_apply] at hj hj'
      split_ifs at hj hj' with h₁ h₂ h₂
      · exact hjj (h₁.trans h₂.symm)
      · -- A row id that `i` drew in this step is above all others.
        rcases hids n hj with hj | ⟨rfl, -⟩
        · exact h.ids i j' (h₁ ▸ hjj) n hj hj'
        · exact absurd (h.below j' _ hj') (lt_irrefl _)
      · rcases hids n hj' with hj' | ⟨rfl, -⟩
        · exact h.ids j i h₁ n hj hj'
        · exact absurd (h.below j _ hj) (lt_irrefl _)
      · exact h.ids j j' hjj n hj hj'
    · simp only [Function.update_apply] at hn'
      split_ifs at hn' with h₁
      · rcases hids n hn' with hn' | ⟨rfl, rfl⟩
        · exact (h.below i n hn').trans_le hseq
        · simp [seq_bump]
      · exact (h.below j n hn').trans_le hseq
  | crash i =>
    obtain ⟨p, loc, w, hi, rfl⟩ := hst
    refine ⟨fun j => ?_, fun j j' hjj k hk hk' => ?_, fun j j' hjj n hj hj' => ?_,
      fun j n hn' => ?_⟩
    · by_cases hj : j = i
      · subst hj; simp [CallOk]
      · simpa only [Function.update_of_ne hj] using h.calls j
    · simp only [Function.update_apply] at hk hk'
      split_ifs at hk hk' <;> simp_all [h.locks j j' hjj k]
    · simp only [Function.update_apply] at hj hj'
      split_ifs at hj hj' <;> simp_all [h.ids j j' hjj n]
    · simp only [Function.update_apply] at hn'
      split_ifs at hn'
      · simp at hn'
      · exact h.below j n hn'
  | env =>
    obtain ⟨d, he, rfl⟩ := hst
    exact ⟨fun j => (h.calls j).others (.env he (hc j (by simp))), h.locks, h.ids,
      fun j n hn => (h.below j n hn).trans_le (hR.env _ _ he)⟩

/-- **Soundness**: a system in order stays in order along every run whose steps meet the
condition. -/
theorem SysOk.reach (hR : R.SeqMono) {s s' : Sys ι D W K Λ E A} (h : SysOk R Q s)
    (hr : Reach (fun e s s' => Step R.env e s s' ∧ Meets R.cond e s s') s s') : SysOk R Q s' :=
  hr.invariant h fun _ _ _ _ hok hst => hok.step hR hst.1 hst.2

/-! ### Running alone -/

/-- A sequence of drawn ids and changes that the guarantee of `i` allows. -/
def Changes (R : Rules ι D K Λ) (i : ι) : D → D → Prop :=
  Relation.ReflTransGen fun d d' => d' = bump d ∨
    ∃ ℓ ids, (∀ n ∈ ids, n < seq d) ∧ R.guar i ℓ ids d d'

omit [Inhabited Λ] [DecidableEq ι] in
/-- A program that runs alone makes changes its guarantee allows, and its answer satisfies the
postcondition. -/
theorem changes_of_wp (hR : R.SeqMono) {Φ : A → Local D W K Λ → D → Prop}
    {Ψ : E → Local D W K Λ → D → Prop} {p : Prog D W K Λ E A} {loc : Local D W K Λ} {d : D}
    (h : wp R i Φ Ψ p loc d) (hids : ∀ n ∈ loc.ids, n < seq d) :
    Changes R i d (p.alone d loc.pending).2 ∧
      match (p.alone d loc.pending).1 with
      | .ok a => ∃ loc', Φ a loc' (p.alone d loc.pending).2
      | .error e => ∃ loc', Ψ e loc' (p.alone d loc.pending).2 := by
  induction p generalizing loc d with
  | ret a => exact ⟨.refl, loc, h⟩
  | fail e => exact ⟨.refl, loc, h⟩
  | fresh f ih =>
    obtain ⟨h₁, h₂⟩ := ih _ (h d (.refl d)).2 (by
      intro n hn
      rw [seq_bump]
      rcases List.mem_cons.1 hn with rfl | hn
      · omega
      · exact (hids n hn).trans (Nat.lt_succ_self _))
    exact ⟨.head (.inl rfl) h₁, h₂⟩
  | atomic u f ih =>
    obtain ⟨-, hg, hw⟩ := h d (.refl d)
    obtain ⟨h₁, h₂⟩ := ih _ hw fun n hn => (hids n hn).trans_le (hR.guar _ _ _ _ _ hg)
    exact ⟨.head (.inr ⟨_, _, hids, hg⟩) h₁, h₂⟩
  | query f ih => exact ih _ (h d (.refl d)).2 hids
  | read f ih => exact ih _ (h d (.refl d)).2 hids
  | write w p ih => exact @ih (loc.wrote w) _ h hids
  | lock k f ih =>
    exact @ih _ _ (loc.hold k) _ ((h d (.refl d)).2 d (.refl d)).2 hids
  | commit p ih =>
    obtain ⟨-, hg, hw⟩ := h d (.refl d)
    obtain ⟨h₁, h₂⟩ := ih hw (by simp [Local.ended])
    exact ⟨.head (.inr ⟨_, _, hids, hg⟩) h₁, h₂⟩
  | rollback p ih => exact ih (h d (.refl d)).2 (by simp [Local.ended])
  | mark l p ih => exact @ih (loc.at' (l loc.label)) _ h hids

omit [Inhabited Λ] [DecidableEq ι] in
/-- A program ends, run alone. -/
theorem alone_of_wp (hR : R.SeqMono) {Φ : A → Local D W K Λ → D → Prop}
    {Ψ : E → Local D W K Λ → D → Prop} {p : Prog D W K Λ E A} {loc : Local D W K Λ} {d : D}
    (h : wp R i Φ Ψ p loc d) (hids : ∀ n ∈ loc.ids, n < seq d) :
    (∃ a d', p.alone d loc.pending = (.ok a, d') ∧ ∃ loc', Φ a loc' d') ∨
      ∃ e d', p.alone d loc.pending = (.error e, d') ∧ ∃ loc', Ψ e loc' d' := by
  obtain ⟨-, hm⟩ := changes_of_wp hR h hids
  rcases hp : p.alone d loc.pending with ⟨e | a, d'⟩ <;> rw [hp] at hm
  · exact .inr ⟨e, d', rfl, hm⟩
  · exact .inl ⟨a, d', rfl, hm⟩

end ReadCommitted
