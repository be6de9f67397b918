import Kimana.ReadCommitted.Writes

/-!
# Where a call stands

Assertions at the statements of a program, and invariants of a system that rest on them.

* `Prog.Points` : what holds at each statement of a program and of its answer, as long as the
  shared state it sees satisfies a fact, with its rules (`points_bind`, `points_mapError`,
  `points_of_adds`, `points_of_writes`).
* `points_of_reach` : it holds of where a call stands in every reachable state.
* `Preserves.reach` : a fact that the statements keep where they stand holds in every reachable
  state.
-/

namespace ReadCommitted

variable {ι D W K Λ E A B : Type} [Store D W]

/-- As long as `S` holds of the shared state where the call carries out a statement, `P` holds of
what is left of the program at each of its statements, with what the call has of its own there, and
`Q` of its answer. -/
def Prog.PointsAt (S : Λ → D → Prop) (P : Prog D W K Λ E A → Local D W K Λ → Prop)
    (Q : Except E A → Local D W K Λ → Prop) : Prog D W K Λ E A → Local D W K Λ → Prop
  | .ret a, loc => Q (.ok a) loc
  | .fail e, loc => Q (.error e) loc
  | .fresh f, loc => P (.fresh f) loc ∧ ∀ n, (f n).PointsAt S P Q (loc.draw n)
  | .atomic u f, loc => P (.atomic u f) loc ∧
      ∀ d, S loc.label d → (f d).PointsAt S P Q (loc.changed d (u d))
  | .query f, loc => P (.query f) loc ∧ ∀ d, S loc.label d → (f d).PointsAt S P Q loc
  | .read f, loc => P (.read f) loc ∧
      ∀ d, S loc.label d → (f (applyAll loc.pending d)).PointsAt S P Q loc
  | .write w p, loc => p.PointsAt S P Q (loc.wrote w)
  | .lock k f, loc => P (.lock k f) loc ∧ ∀ d d', S loc.label d → S loc.label d' →
      (f (applyAll loc.pending d) (applyAll loc.pending d')).PointsAt S P Q (loc.hold k)
  | .commit p, loc => P (.commit p) loc ∧
      ∀ d, S loc.label d → p.PointsAt S P Q (loc.ended.changed d (applyAll loc.pending d))
  | .rollback p, loc => P (.rollback p) loc ∧ p.PointsAt S P Q loc.ended
  | .mark l p, loc => p.PointsAt S P Q (loc.at' (l loc.label))

/-- `PointsAt` for a fact that does not depend on where the call stands. -/
abbrev Prog.Points (S : D → Prop) (P : Prog D W K Λ E A → Local D W K Λ → Prop)
    (Q : Except E A → Local D W K Λ → Prop) (p : Prog D W K Λ E A) (loc : Local D W K Λ) : Prop :=
  p.PointsAt (fun _ => S) P Q loc

section Points

variable {S : Λ → D → Prop} {P P' : Prog D W K Λ E A → Local D W K Λ → Prop}
  {Q Q' : Except E A → Local D W K Λ → Prop}

theorem points_mono (hP : ∀ p loc, P p loc → P' p loc) (hQ : ∀ r loc, Q r loc → Q' r loc)
    {p : Prog D W K Λ E A} {loc : Local D W K Λ} (h : p.PointsAt S P Q loc) :
    p.PointsAt S P' Q' loc := by
  induction p generalizing loc with
  | ret a => exact hQ _ loc h
  | fail e => exact hQ _ loc h
  | write w p ih | mark l p ih => exact ih h
  | rollback p ih => exact ⟨hP _ _ h.1, ih h.2⟩
  | fresh f ih => exact ⟨hP _ _ h.1, fun n => ih n (h.2 n)⟩
  | atomic u f ih | query f ih | read f ih => exact ⟨hP _ _ h.1, fun d hd => ih _ (h.2 d hd)⟩
  | lock k f ih => exact ⟨hP _ _ h.1, fun d d' hd hd' => ih _ _ (h.2 d d' hd hd')⟩
  | commit p ih => exact ⟨hP _ _ h.1, fun d hd => ih (h.2 d hd)⟩

/-- A statement: what a call stands before when it takes a step. -/
def Prog.IsStatement : Prog D W K Λ E A → Prop
  | .ret _ | .fail _ | .write _ _ | .mark _ _ => False
  | _ => True

theorem points_statement {p : Prog D W K Λ E A} {loc : Local D W K Λ} (h : p.PointsAt S P Q loc) :
    p.PointsAt S (fun p' loc' => p'.IsStatement ∧ P p' loc') Q loc := by
  induction p generalizing loc with
  | ret a | fail e => exact h
  | write w p ih | mark l p ih => exact ih h
  | rollback p ih => exact ⟨⟨trivial, h.1⟩, ih h.2⟩
  | fresh f ih => exact ⟨⟨trivial, h.1⟩, fun n => ih n (h.2 n)⟩
  | atomic u f ih | query f ih | read f ih =>
    exact ⟨⟨trivial, h.1⟩, fun d hd => ih _ (h.2 d hd)⟩
  | lock k f ih => exact ⟨⟨trivial, h.1⟩, fun d d' hd hd' => ih _ _ (h.2 d d' hd hd')⟩
  | commit p ih => exact ⟨⟨trivial, h.1⟩, fun d hd => ih (h.2 d hd)⟩

/-- What is asked of the answer of the first part of a program. -/
def Prog.Then (S : Λ → D → Prop) (P : Prog D W K Λ E A → Local D W K Λ → Prop)
    (Q : Except E A → Local D W K Λ → Prop) (g : B → Prog D W K Λ E A) :
    Except E B → Local D W K Λ → Prop
  | .ok b, loc => (g b).PointsAt S P Q loc
  | .error e, loc => Q (.error e) loc

theorem points_bind {p : Prog D W K Λ E B} {g : B → Prog D W K Λ E A} {loc : Local D W K Λ} :
    (p.bind g).PointsAt S P Q loc ↔ p.PointsAt S (fun p' => P (p'.bind g))
      (Prog.Then S P Q g) loc := by
  induction p generalizing loc with
  | ret b => exact Iff.rfl
  | fail e => exact Iff.rfl
  | write w p ih | mark l p ih => exact ih
  | rollback p ih => exact and_congr_right fun _ => ih
  | fresh f ih => exact and_congr_right fun _ => forall_congr' fun n => ih n
  | atomic u f ih | query f ih | read f ih =>
    exact and_congr_right fun _ => forall₂_congr fun d _ => ih _
  | lock k f ih =>
    exact and_congr_right fun _ => forall₂_congr fun d d' => forall₂_congr fun _ _ => ih _ _
  | commit p ih => exact and_congr_right fun _ => forall₂_congr fun _ _ => ih

/-- A program whose first part is known. -/
theorem points_bind_of {p : Prog D W K Λ E B} {g : B → Prog D W K Λ E A} {loc : Local D W K Λ}
    {P₁ : Prog D W K Λ E B → Local D W K Λ → Prop} {Q₁ : Except E B → Local D W K Λ → Prop}
    (hp : p.PointsAt S P₁ Q₁ loc) (hP : ∀ p' loc, P₁ p' loc → P (p'.bind g) loc)
    (hok : ∀ b loc, Q₁ (.ok b) loc → (g b).PointsAt S P Q loc)
    (herr : ∀ e loc, Q₁ (.error e) loc → Q (.error e) loc) : (p.bind g).PointsAt S P Q loc :=
  points_bind.2 (points_mono hP (fun r loc h => match r with
    | .ok b => hok b loc h
    | .error e => herr e loc h) hp)

theorem points_mapError {E' : Type} {h : E → E'} {P : Prog D W K Λ E' A → Local D W K Λ → Prop}
    {Q : Except E' A → Local D W K Λ → Prop} {p : Prog D W K Λ E A} {loc : Local D W K Λ} :
    (p.mapError h).PointsAt S P Q loc ↔
      p.PointsAt S (fun p' => P (p'.mapError h)) (fun r => Q (r.mapError h)) loc := by
  induction p generalizing loc with
  | ret a => exact Iff.rfl
  | fail e => exact Iff.rfl
  | write w p ih | mark l p ih => exact ih
  | rollback p ih => exact and_congr_right fun _ => ih
  | fresh f ih => exact and_congr_right fun _ => forall_congr' fun n => ih n
  | atomic u f ih | query f ih | read f ih =>
    exact and_congr_right fun _ => forall₂_congr fun d _ => ih _
  | lock k f ih =>
    exact and_congr_right fun _ => forall₂_congr fun d d' => forall₂_congr fun _ _ => ih _ _
  | commit p ih => exact and_congr_right fun _ => forall₂_congr fun _ _ => ih

/-- Labelling what a query sees, where nothing is asked of queries. -/
theorem points_noting {S : D → Prop} {note : D → Λ → Λ} (hP : ∀ f loc, P (.query f) loc)
    {p : Prog D W K Λ E A} {loc : Local D W K Λ} (h : ∀ l, p.Points S P Q (loc.at' l)) :
    (p.noting note).Points S P Q loc := by
  cases p with
  | query f => exact ⟨hP _ _, fun d hd => (h (note d loc.label)).2 d hd⟩
  | _ => exact h loc.label

end Points

/-! ### Programs known by their writes -/

section Writes

variable {S : Λ → D → Prop} {P P' : Prog D W K Λ E A → Local D W K Λ → Prop}
  {Q Q' : Except E A → Local D W K Λ → Prop}

/-- A piece of a transaction: its writes satisfy `V`, and it ends no transaction, changes nothing
at once and sets no label. -/
def Prog.Adds (V : W → Prop) : Prog D W K Λ E A → Prop
  | .ret _ | .fail _ => True
  | .fresh f => ∀ n, (f n).Adds V
  | .query f | .read f => ∀ d, (f d).Adds V
  | .lock _ f => ∀ d d', (f d d').Adds V
  | .write w p => V w ∧ p.Adds V
  | .atomic _ _ | .commit _ | .rollback _ | .mark _ _ => False

omit [Store D W] in
theorem Prog.Adds.ret {V : W → Prop} (a : A) : (.ret a : Prog D W K Λ E A).Adds V := trivial

omit [Store D W] in
theorem Prog.Adds.bind {V : W → Prop} {p : Prog D W K Λ E B} {g : B → Prog D W K Λ E A}
    (hp : p.Adds V) (hg : ∀ b, (g b).Adds V) : (p.bind g).Adds V := by
  induction p with
  | ret b => exact hg b
  | fail e => trivial
  | fresh f ih | query f ih | read f ih => exact fun d => ih d (hp d)
  | lock k f ih => exact fun d d' => ih d d' (hp d d')
  | write w p ih => exact ⟨hp.1, ih hp.2⟩
  | atomic | commit | rollback | mark => exact hp.elim

/-- What a piece of a transaction that adds writes of kind `V` leaves. -/
structure Added (V : W → Prop) (loc loc' : Local D W K Λ) : Prop where
  label : loc'.label = loc.label
  made : loc'.made = loc.made
  pending : ∃ ws, loc'.pending = loc.pending ++ ws ∧ ∀ w ∈ ws, V w

omit [Store D W] in
theorem Added.refl {V : W → Prop} (loc : Local D W K Λ) : Added V loc loc :=
  ⟨rfl, rfl, [], (List.append_nil _).symm, by simp⟩

omit [Store D W] in
theorem Added.trans {V : W → Prop} {loc loc' loc'' : Local D W K Λ} (h : Added V loc loc')
    (h' : Added V loc' loc'') : Added V loc loc'' := by
  obtain ⟨ws, hws, hV⟩ := h.pending
  obtain ⟨vs, hvs, hV'⟩ := h'.pending
  refine ⟨h'.label.trans h.label, h'.made.trans h.made, ws ++ vs, ?_, fun w hw => ?_⟩
  · rw [hvs, hws, List.append_assoc]
  · exact (List.mem_append.1 hw).elim (hV w) (hV' w)

/-- A statement that changes nothing. -/
def Prog.Looks : Prog D W K Λ E A → Prop
  | .fresh _ | .query _ | .read _ | .lock _ _ => True
  | _ => False

omit [Store D W] in
theorem Prog.Looks.bind {p : Prog D W K Λ E B} {g : B → Prog D W K Λ E A} (h : p.Looks) :
    (p.bind g).Looks := by
  cases p with
  | fresh | query | read | lock => trivial
  | _ => exact h.elim

/-- A piece of a transaction adds writes of its kind, and does no more. -/
theorem points_of_adds {V : W → Prop} {p : Prog D W K Λ E A} (hp : p.Adds V)
    {loc₀ loc : Local D W K Λ} (h : Added V loc₀ loc) :
    p.PointsAt S (fun p' loc' => Added V loc₀ loc' ∧ p'.Looks) (fun _ loc' => Added V loc₀ loc')
      loc := by
  induction p generalizing loc with
  | ret a => exact h
  | fail e => exact h
  | write w p ih =>
    obtain ⟨ws, hws, hV⟩ := h.pending
    refine @ih hp.2 (loc.wrote w) ⟨h.label, h.made, ws ++ [w], ?_, fun v hv => ?_⟩
    · rw [Local.wrote_pending, hws, List.append_assoc]
    · exact (List.mem_append.1 hv).elim (hV v) fun hv => List.mem_singleton.1 hv ▸ hp.1
  | fresh f ih =>
    exact ⟨⟨h, trivial⟩, fun n => @ih n (hp n) (loc.draw n) ⟨h.label, h.made, h.pending⟩⟩
  | query f ih | read f ih => exact ⟨⟨h, trivial⟩, fun d _ => ih _ (hp _) h⟩
  | lock k f ih =>
    exact ⟨⟨h, trivial⟩, fun d d' _ _ =>
      @ih _ _ (hp _ _) (loc.hold k) ⟨h.label, h.made, h.pending⟩⟩
  | atomic | commit | rollback | mark => exact hp.elim

/-- The program sets no label, and gives up with errors of kind `V` only. -/
def Prog.Fails (V : E → Prop) : Prog D W K Λ E A → Prop
  | .ret _ => True
  | .fail e => V e
  | .fresh f => ∀ n, (f n).Fails V
  | .atomic _ f | .query f | .read f => ∀ d, (f d).Fails V
  | .lock _ f => ∀ d d', (f d d').Fails V
  | .write _ p | .commit p | .rollback p => p.Fails V
  | .mark _ _ => False

omit [Store D W] in
theorem Prog.Fails.bind {V : E → Prop} {p : Prog D W K Λ E B} {g : B → Prog D W K Λ E A}
    (hp : p.Fails V) (hg : ∀ b, (g b).Fails V) : (p.bind g).Fails V := by
  induction p with
  | ret b => exact hg b
  | fail e => exact hp
  | fresh f ih | atomic u f ih | query f ih | read f ih => exact fun d => ih d (hp d)
  | lock k f ih => exact fun d d' => ih d d' (hp d d')
  | write w p ih | commit p ih | rollback p ih => exact ih hp
  | mark => exact hp.elim

/-- A program gives up with errors of its kind, and leaves the label. -/
theorem points_of_fails {V : E → Prop} {p : Prog D W K Λ E A} (hp : p.Fails V)
    {loc : Local D W K Λ} {l : Λ} (h : loc.label = l) :
    p.PointsAt S (fun _ loc' => loc'.label = l)
      (fun r loc' => loc'.label = l ∧ ∀ e, r = .error e → V e) loc := by
  induction p generalizing loc with
  | ret a => exact ⟨h, nofun⟩
  | fail e => exact ⟨h, fun _ he => by cases he; exact hp⟩
  | write w p ih => exact @ih hp (loc.wrote w) h
  | fresh f ih => exact ⟨h, fun n => @ih n (hp n) (loc.draw n) h⟩
  | atomic u f ih => exact ⟨h, fun d _ => @ih d (hp d) (loc.changed d (u d)) h⟩
  | query f ih | read f ih => exact ⟨h, fun d _ => ih _ (hp _) h⟩
  | lock k f ih => exact ⟨h, fun d d' _ _ => @ih _ _ (hp _ _) (loc.hold k) h⟩
  | commit p ih => exact ⟨h, fun d _ => @ih hp (loc.ended.changed d _) h⟩
  | rollback p ih => exact ⟨h, @ih hp loc.ended h⟩
  | mark => exact hp.elim

/-- A program whose writes are of kind `V`, whose changes at once are of kind `U`, and whose labels
stay among those of a kind. -/
theorem points_of_writes {V : W → Prop} {U : (D → D) → Prop} {L : (Λ → Λ) → Prop}
    {G : Λ → Prop} (hL : ∀ f l, L f → G l → G (f l)) {p : Prog D W K Λ E A}
    (hp : p.Writes V U L) {loc : Local D W K Λ} (hl : G loc.label) (hV : ∀ w ∈ loc.pending, V w) :
    p.PointsAt S (fun p' loc' => G loc'.label ∧ (∀ w ∈ loc'.pending, V w) ∧
        ∀ u f, p' = .atomic u f → U u)
      (fun _ loc' => G loc'.label ∧ ∀ w ∈ loc'.pending, V w) loc := by
  induction p generalizing loc with
  | ret a => exact ⟨hl, hV⟩
  | fail e => exact ⟨hl, hV⟩
  | mark l p ih => exact @ih hp.2 (loc.at' (l loc.label)) (hL l _ hp.1 hl) hV
  | write w p ih =>
    refine @ih hp.2 (loc.wrote w) hl fun v hv => ?_
    rcases List.mem_append.1 hv with hv | hv
    · exact hV v hv
    · exact List.mem_singleton.1 hv ▸ hp.1
  | rollback p ih => exact ⟨⟨hl, hV, by simp⟩, @ih hp loc.ended hl (by simp)⟩
  | fresh f ih => exact ⟨⟨hl, hV, by simp⟩, fun n => @ih n (hp n) (loc.draw n) hl hV⟩
  | query f ih | read f ih => exact ⟨⟨hl, hV, by simp⟩, fun d _ => ih _ (hp _) hl hV⟩
  | atomic u f ih =>
    refine ⟨⟨hl, hV, fun u' f' he => ?_⟩, fun d _ => @ih d (hp.2 d) (loc.changed d (u d)) hl hV⟩
    cases he
    exact hp.1
  | lock k f ih => exact ⟨⟨hl, hV, by simp⟩, fun d d' _ _ => @ih _ _ (hp _ _) (loc.hold k) hl hV⟩
  | commit p ih =>
    exact ⟨⟨hl, hV, by simp⟩, fun d _ => @ih hp (loc.ended.changed d _) hl (by simp)⟩

end Writes

/-! ### Calls -/

/-- The call stands where `P` holds, and so it will, as long as `S` holds; an answer satisfies
`Q`. -/
def Call.PointsAt (S : Λ → D → Prop) (P : Prog D W K Λ E A → Local D W K Λ → Prop)
    (Q : Except E A → Local D W K Λ → Prop) : Call D W K Λ E A → Prop
  | run p loc wait => P p loc ∧ p.PointsAt S P Q loc ∧
      ∀ snap, wait = some snap → ∃ d, S loc.label d ∧ snap = applyAll loc.pending d
  | done r made => ∃ loc, loc.made = made ∧ Q r loc
  | crashed _ => True

/-- `PointsAt` for a fact that does not depend on where the call stands. -/
abbrev Call.Points (S : D → Prop) (P : Prog D W K Λ E A → Local D W K Λ → Prop)
    (Q : Except E A → Local D W K Λ → Prop) (c : Call D W K Λ E A) : Prop :=
  c.PointsAt (fun _ => S) P Q

section Calls

variable {S : Λ → D → Prop} {P : Prog D W K Λ E A → Local D W K Λ → Prop}
  {Q : Except E A → Local D W K Λ → Prop}

theorem Call.points_settle {p : Prog D W K Λ E A} {loc : Local D W K Λ}
    (h : p.PointsAt S P Q loc) : (Call.settle p loc).PointsAt S P Q := by
  induction p generalizing loc with
  | ret a => exact ⟨loc, rfl, h⟩
  | fail e => exact ⟨loc, rfl, h⟩
  | write w p ih => exact @ih (loc.wrote w) h
  | mark l p ih => exact @ih (loc.at' (l loc.label)) h
  | _ => exact ⟨h.1, h, by simp⟩

theorem Call.points_next [Inhabited Λ] {free : K → Bool} {c c' : Call D W K Λ E A} {d d' : D}
    (h : c.PointsAt S P Q) (hs : S c.label d) (hn : c.next free d = some (d', c')) :
    c'.PointsAt S P Q := by
  match c with
  | done r made => cases hn
  | crashed made => cases hn
  | run p loc w =>
    obtain ⟨hP, h, hw⟩ := h
    cases p with
    | ret | fail | write | mark => cases w <;> cases hn
    | rollback => cases w <;> cases hn <;> exact points_settle h.2
    | fresh => cases w <;> cases hn <;> exact points_settle (h.2 _)
    | query | read | atomic | commit => cases w <;> cases hn <;> exact points_settle (h.2 _ hs)
    | lock k f =>
      cases w with
      | none =>
        cases hn
        exact ⟨hP, h, fun snap he => ⟨d, hs, (Option.some.inj he).symm⟩⟩
      | some snap =>
        simp only [next] at hn
        split at hn <;> cases hn
        obtain ⟨d₀, hs₀, rfl⟩ := hw snap rfl
        exact points_settle (h.2 _ _ hs₀ hs)

/-- What a step of a call does to the shared state. -/
theorem Call.points_cases {free : K → Bool} {c c' : Call D W K Λ E A} {d d' : D}
    (h : c.PointsAt S P Q) (hn : c.next free d = some (d', c')) :
    c'.made = c.made ∧ (d' = d ∨ d' = bump d) ∨
    ∃ p loc w, c = run p loc w ∧ c'.made = (d, d') :: loc.made ∧ P p loc ∧
      ((∃ q, p = .commit q ∧ d' = applyAll loc.pending d) ∨ ∃ u f, p = .atomic u f ∧ d' = u d) := by
  match c with
  | done r made => cases hn
  | crashed made => cases hn
  | run p loc w =>
    cases p with
    | ret | fail | write | mark => cases w <;> cases hn
    | rollback | query | read => cases w <;> cases hn <;> exact .inl ⟨made_settle .., .inl rfl⟩
    | fresh => cases w <;> cases hn <;> exact .inl ⟨made_settle .., .inr rfl⟩
    | commit q =>
      cases w <;> cases hn <;>
        exact .inr ⟨_, loc, _, rfl, made_settle .., h.1, .inl ⟨q, rfl, rfl⟩⟩
    | atomic u f =>
      cases w <;> cases hn <;>
        exact .inr ⟨_, loc, _, rfl, made_settle .., h.1, .inr ⟨u, f, rfl, rfl⟩⟩
    | lock k f =>
      cases w with
      | none => cases hn; exact .inl ⟨rfl, .inl rfl⟩
      | some snap =>
        simp only [next] at hn
        split at hn <;> cases hn
        exact .inl ⟨made_settle .., .inl rfl⟩

variable [DecidableEq ι] [Inhabited Λ] {env : D → D → Prop}

theorem points_of_step {e : Event ι} {s s' : Sys ι D W K Λ E A} {i : ι}
    (h : (s.calls i).PointsAt S P Q) (hs : e = .go i → S (s.calls i).label s.shared)
    (hst : Step env e s s') : (s'.calls i).PointsAt S P Q := by
  cases e with
  | env =>
    obtain ⟨d, -, rfl⟩ := hst
    exact h
  | crash j =>
    obtain ⟨p, loc, w, hj, rfl⟩ := hst
    by_cases hij : i = j
    · subst hij; simp [Call.PointsAt]
    · simpa only [Function.update_of_ne hij] using h
  | go j =>
    obtain ⟨free, -, d, c, hn, rfl⟩ := hst
    by_cases hij : i = j
    · subst hij
      simpa using Call.points_next h (hs rfl) hn
    · simpa only [Function.update_of_ne hij] using h

/-- What holds of where a call stands goes on to hold, as long as the fact does. -/
theorem points_of_reach {S : D → Prop} {s s' : Sys ι D W K Λ E A} {i : ι}
    (hs : S s.shared) (hS : ∀ s₁ e s₂, Reach (Step env) s s₁ → Step env e s₁ s₂ → S s₁.shared →
      S s₂.shared)
    (h : (s.calls i).Points S P Q) (hr : Reach (Step env) s s') :
    S s'.shared ∧ (s'.calls i).Points S P Q :=
  hr.invariant (I := fun s => S s.shared ∧ (s.calls i).Points S P Q) ⟨hs, h⟩
    fun s₁ e s₂ hr₁ hi hst => ⟨hS s₁ e s₂ hr₁ hst hi.1, points_of_step hi.2 (fun _ => hi.1) hst⟩

end Calls

/-! ### Invariants -/

section Invariants

variable {S : D → Prop}

/-- The statements keep the fact where they stand. -/
structure Preserves (S : D → Prop) (P : Prog D W K Λ E A → Local D W K Λ → Prop) : Prop where
  commit : ∀ p loc d, P (.commit p) loc → S d → S (applyAll loc.pending d)
  atomic : ∀ u f loc d, P (.atomic u f) loc → S d → S (u d)
  bump : ∀ d, S d → S (bump d)

theorem Preserves.next {P : Prog D W K Λ E A → Local D W K Λ → Prop}
    {Q : Except E A → Local D W K Λ → Prop} (hP : Preserves S P) {free : K → Bool}
    {c c' : Call D W K Λ E A}
    {d d' : D} (h : c.Points S P Q) (hs : S d) (hn : c.next free d = some (d', c')) : S d' := by
  match c with
  | .done r made => cases hn
  | .crashed made => cases hn
  | .run p loc w =>
    cases p with
    | ret | fail | write | mark => cases w <;> cases hn
    | rollback | query | read => cases w <;> cases hn <;> exact hs
    | fresh => cases w <;> cases hn <;> exact hP.bump _ hs
    | commit => cases w <;> cases hn <;> exact hP.commit _ _ _ h.1 hs
    | atomic => cases w <;> cases hn <;> exact hP.atomic _ _ _ _ h.1 hs
    | lock k f =>
      cases w with
      | none => cases hn; exact hs
      | some snap =>
        simp only [Call.next] at hn
        split at hn <;> cases hn
        exact hs

variable [DecidableEq ι] {P : ι → Prog D W K Λ E A → Local D W K Λ → Prop}
  {Q : ι → Except E A → Local D W K Λ → Prop} {env : D → D → Prop}

/-- One step keeps the fact, and where the calls stand. -/
theorem Preserves.step [Inhabited Λ] (hP : ∀ i, Preserves S (P i))
    (henv : ∀ d d', S d → env d d' → S d')
    {e : Event ι} {s s' : Sys ι D W K Λ E A} (hs : S s.shared)
    (h : ∀ i, (s.calls i).Points S (P i) (Q i)) (hst : Step env e s s') :
    S s'.shared ∧ ∀ i, (s'.calls i).Points S (P i) (Q i) := by
  refine ⟨?_, fun i => points_of_step (h i) (fun _ => hs) hst⟩
  cases e with
  | env =>
    obtain ⟨d, he, rfl⟩ := hst
    exact henv _ _ hs he
  | crash j =>
    obtain ⟨p, loc, w, hj, rfl⟩ := hst
    exact hs
  | go j =>
    obtain ⟨free, -, d, c, hn, rfl⟩ := hst
    exact (hP j).next (h j) hs hn

/-- A fact that the statements keep where they stand holds in every reachable state. -/
theorem Preserves.reach [Inhabited Λ] (hP : ∀ i, Preserves S (P i))
    (henv : ∀ d d', S d → env d d' → S d') {progs : ι → Prog D W K Λ E A} {d : D} (hd : S d)
    (h : ∀ i, (progs i).Points S (P i) (Q i) { label := default }) {s : Sys ι D W K Λ E A}
    (hr : Reach (Step env) ⟨d, fun i => .start (progs i)⟩ s) :
    S s.shared ∧ ∀ i, (s.calls i).Points S (P i) (Q i) :=
  hr.invariant (I := fun s => S s.shared ∧ ∀ i, (s.calls i).Points S (P i) (Q i))
    ⟨hd, fun i => Call.points_settle (h i)⟩ fun _ _ _ _ hi hst => step hP henv hi.1 hi.2 hst

/-! ### Statements that keep a fact -/

/-- The statement keeps the fact. -/
def Prog.Stands (S : D → Prop) : Prog D W K Λ E A → Local D W K Λ → Prop
  | .commit _, loc => MayCommit (fun _ => S) S loc.pending
  | .atomic u _, _ => ∀ d, S d → S (u d)
  | .fresh _, _ | .query _, _ | .read _, _ | .lock _ _, _ | .rollback _, _ => True
  | .ret _, _ | .fail _, _ | .write _ _, _ | .mark _ _, _ => False

theorem preserves_stands (hbump : ∀ d, S d → S (bump d)) :
    Preserves S (Prog.Stands (K := K) (Λ := Λ) (E := E) (A := A) S) where
  commit _ _ d h hs := h d hs
  atomic _ _ _ d h hs := h d hs
  bump := hbump

theorem Prog.Stands.bind {p : Prog D W K Λ E B} {g : B → Prog D W K Λ E A} {loc : Local D W K Λ}
    (h : p.Stands S loc) : (p.bind g).Stands S loc := by
  cases p with
  | ret | fail | write | mark => exact h.elim
  | _ => exact h

/-- One more write that keeps the fact. -/
theorem MayCommit.keep {ws : List W} (hws : MayCommit (fun _ => S) S ws) {w : W}
    (hw : ∀ d, S d → S (Store.apply w d)) : MayCommit (fun _ => S) S (ws ++ [w]) := by
  intro d hs
  rw [applyAll_append]
  exact hw _ (hws d hs)

/-- A program whose every write keeps the fact. -/
theorem stands_of_writes {V : W → Prop} {U : (D → D) → Prop} {L : (Λ → Λ) → Prop}
    (hV : ∀ w d, V w → S d → S (Store.apply w d)) (hU : ∀ u d, U u → S d → S (u d))
    {p : Prog D W K Λ E A} (hp : p.Writes V U L) {loc : Local D W K Λ}
    (hpend : MayCommit (fun _ => S) S loc.pending) :
    p.Points S (Prog.Stands S) (fun _ loc' => MayCommit (fun _ => S) S loc'.pending) loc := by
  induction p generalizing loc with
  | ret a => exact hpend
  | fail e => exact hpend
  | mark l p ih => exact @ih hp.2 (loc.at' (l loc.label)) hpend
  | write w p ih =>
    exact @ih hp.2 (loc.wrote w) (hpend.keep fun d => hV w d hp.1)
  | fresh f ih => exact ⟨trivial, fun n => @ih n (hp n) (loc.draw n) hpend⟩
  | atomic u f ih =>
    exact ⟨fun d => hU u d hp.1, fun d _ => @ih d (hp.2 d) (loc.changed d (u d)) hpend⟩
  | query f ih | read f ih => exact ⟨trivial, fun d _ => ih _ (hp _) hpend⟩
  | lock k f ih => exact ⟨trivial, fun d d' _ _ => @ih _ _ (hp _ _) (loc.hold k) hpend⟩
  | commit p ih => exact ⟨hpend, fun d _ => @ih hp (loc.ended.changed d _) fun _ hs => hs⟩
  | rollback p ih => exact ⟨trivial, @ih hp loc.ended fun _ hs => hs⟩

end Invariants

end ReadCommitted
