import Kimana.ReadCommitted.Writes

/-!
# Writes that no longer happen

A program looks at the shared state and decides what to write.  `Prog.Never S N` : as long as it
finds the state in `S`, it writes nothing of kind `N`.

* `never_of_writes` : so does a program that has no such write.
* `Call.never_next` : a call that takes a step goes on so, and has written nothing of the kind.
* `Call.Only.step`, `Call.Only.published` : a call all of whose writes are of a kind goes on so in
  every step of the system, and changes the shared state by such writes only.
-/

namespace ReadCommitted

variable {D W K Λ E A B : Type}

/-- The program writes nothing of kind `N`, and changes nothing at once, while the state is in
`S`.  The snapshot of a statement that waits may be older. -/
def Prog.Never (S : D → Prop) (N : W → Prop) : Prog D W K Λ E A → Prop
  | ret _ | fail _ => True
  | fresh f => ∀ n, (f n).Never S N
  | atomic _ _ => False
  | query f | read f => ∀ d, S d → (f d).Never S N
  | lock _ f => ∀ snap d, S d → (f snap d).Never S N
  | write w p => ¬N w ∧ p.Never S N
  | commit p | rollback p | mark _ p => p.Never S N

section Never

variable {S : D → Prop} {N : W → Prop}

theorem Prog.Never.bind {p : Prog D W K Λ E B} {g : B → Prog D W K Λ E A} (hp : p.Never S N)
    (hg : ∀ b, (g b).Never S N) : (p.bind g).Never S N := by
  induction p with
  | ret b => exact hg b
  | fail e => trivial
  | fresh f ih => exact fun n => ih n (hp n)
  | atomic => exact hp.elim
  | query f ih | read f ih => exact fun d hd => ih d (hp d hd)
  | lock k f ih => exact fun snap d hd => ih snap d (hp snap d hd)
  | write w p ih => exact ⟨hp.1, ih hp.2⟩
  | commit p ih | rollback p ih | mark l p ih => exact ih hp

theorem Prog.Never.mapError {E' : Type} {h : E → E'} {p : Prog D W K Λ E A} (hp : p.Never S N) :
    (p.mapError h).Never S N := by
  induction p with
  | ret | fail => trivial
  | atomic => exact hp.elim
  | fresh f ih => exact fun n => ih n (hp n)
  | query f ih | read f ih => exact fun d hd => ih d (hp d hd)
  | lock k f ih => exact fun snap d hd => ih snap d (hp snap d hd)
  | write w p ih => exact ⟨hp.1, ih hp.2⟩
  | commit p ih | rollback p ih | mark l p ih => exact ih hp

/-- A program without such a write. -/
theorem never_of_writes {V : W → Prop} {L : (Λ → Λ) → Prop} (hV : ∀ w, V w → ¬N w)
    {p : Prog D W K Λ E A} (hp : p.Writes V (fun _ => False) L) : p.Never S N := by
  induction p with
  | ret | fail => trivial
  | fresh f ih => exact fun n => ih n (hp n)
  | atomic => exact hp.1.elim
  | query f ih | read f ih => exact fun d _ => ih d (hp d)
  | lock k f ih => exact fun snap d _ => ih snap d (hp snap d)
  | write w p ih => exact ⟨hV w hp.1, ih hp.2⟩
  | mark l p ih => exact ih hp.2
  | commit p ih | rollback p ih => exact ih hp

/-- A call goes on to write nothing of kind `N` while the state is in `S`. -/
def Call.Never (S : D → Prop) (N : W → Prop) : Call D W K Λ E A → Prop
  | run p _ _ => p.Never S N
  | done _ _ | crashed _ => True

/-- What a call has written and not yet published. -/
def Call.pending : Call D W K Λ E A → List W
  | run _ loc _ => loc.pending
  | done _ _ | crashed _ => []

/-- The call is about to commit. -/
def Call.commits : Call D W K Λ E A → Bool
  | run (.commit _) _ _ => true
  | _ => false

/-- The call is about to roll back. -/
def Call.rollsBack : Call D W K Λ E A → Bool
  | run (.rollback _) _ _ => true
  | _ => false

theorem Call.never_settle {p : Prog D W K Λ E A} {loc : Local D W K Λ} (h : p.Never S N) :
    (settle p loc).Never S N ∧ ∀ w ∈ (settle p loc).pending, N w → w ∈ loc.pending := by
  induction p generalizing loc with
  | ret a => exact ⟨trivial, nofun⟩
  | fail e => exact ⟨trivial, nofun⟩
  | mark l p ih => exact @ih (loc.at' (l loc.label)) h
  | write w p ih =>
    obtain ⟨hnever, hpend⟩ := @ih (loc.wrote w) h.2
    refine ⟨hnever, fun x hx hN => ?_⟩
    rcases List.mem_append.1 (hpend x hx hN) with hx | hx
    · exact hx
    · exact absurd (List.mem_singleton.1 hx ▸ hN) h.1
  | _ => exact ⟨h, fun _ hx _ => hx⟩

variable [Store D W]

/-- A call that takes a step writes nothing of kind `N`, and goes on so. -/
theorem Call.never_next (hS : ∀ ws d, S d → S (applyAll ws d)) {free : K → Bool}
    {c c' : Call D W K Λ E A} {d d' : D} (h : c.Never S N) (hs : S d)
    (hn : c.next free d = some (d', c')) :
    c'.Never S N ∧ ∀ w ∈ c'.pending, N w → w ∈ c.pending := by
  match c with
  | done r made => cases hn
  | crashed made => cases hn
  | run p loc w =>
    cases p with
    | ret | fail | write | mark => cases w <;> cases hn
    | atomic => exact h.elim
    | fresh f => cases w <;> cases hn <;> exact never_settle (h _)
    | query f => cases w <;> cases hn <;> exact never_settle (h _ hs)
    | read f => cases w <;> cases hn <;> exact never_settle (h _ (hS _ _ hs))
    | commit p | rollback p =>
      cases w <;> cases hn <;>
        exact (never_settle (show p.Never S N from h)).imp id fun hw x hx hN =>
          absurd (hw x hx hN) List.not_mem_nil
    | lock k f =>
      cases w with
      | none => cases hn; exact ⟨h, fun _ hx _ => hx⟩
      | some snap =>
        simp only [next] at hn
        split at hn <;> cases hn
        exact never_settle (h _ _ (hS _ _ hs))

omit [Store D W] in
/-- What was pending is pending, unless the call has ended. -/
theorem Call.pending_settle {p : Prog D W K Λ E A} {loc : Local D W K Λ} {v : W}
    (hv : v ∈ loc.pending) : v ∈ (settle p loc).pending ∨ (settle p loc).ended = true := by
  induction p generalizing loc with
  | ret a | fail e => exact .inr rfl
  | mark l p ih => exact @ih (loc.at' (l loc.label)) hv
  | write w p ih => exact @ih (loc.wrote w) (List.mem_append_left _ hv)
  | _ => exact .inl hv

/-- A pending write stays so until the call commits it, rolls back or ends. -/
theorem Call.pending_next {free : K → Bool} {c c' : Call D W K Λ E A} {d d' : D} {v : W}
    (hv : v ∈ c.pending) (hn : c.next free d = some (d', c')) :
    v ∈ c'.pending ∨ c.rollsBack = true ∨ c.commits = true ∧ d' = applyAll c.pending d ∨
      c.commits = false ∧ c'.ended = true := by
  match c with
  | done r made => cases hn
  | crashed made => cases hn
  | run p loc w =>
    cases p with
    | ret | fail | write | mark => cases w <;> cases hn
    | fresh | query | read | atomic =>
      cases w <;> cases hn <;>
        exact Or.imp id (fun h => .inr (.inr ⟨rfl, h⟩)) (pending_settle (by exact hv))
    | rollback => exact .inr (.inl rfl)
    | commit => cases w <;> cases hn <;> exact .inr (.inr (.inl ⟨rfl, rfl⟩))
    | lock k f =>
      cases w with
      | none => cases hn; exact .inl hv
      | some snap =>
        simp only [next] at hn
        split at hn <;> cases hn
        exact Or.imp id (fun h => .inr (.inr ⟨rfl, h⟩)) (pending_settle (by exact hv))

/-- What a step of a call does to the shared state. -/
theorem Call.shared_next {free : K → Bool} {c c' : Call D W K Λ E A} {d d' : D}
    (hn : c.next free d = some (d', c')) :
    d' = d ∨ d' = bump d ∨ (∃ ws : List W, d' = applyAll ws d) ∨
      ∃ u f loc w, c = run (.atomic u f) loc w := by
  match c with
  | done r made => cases hn
  | crashed made => cases hn
  | run p loc w =>
    cases p with
    | ret | fail | write | mark => cases w <;> cases hn
    | rollback | query | read => cases w <;> cases hn <;> exact .inl rfl
    | fresh => cases w <;> cases hn <;> exact .inr (.inl rfl)
    | commit q => cases w <;> cases hn <;> exact .inr (.inr (.inl ⟨_, rfl⟩))
    | atomic u f => exact .inr (.inr (.inr ⟨u, f, loc, w, rfl⟩))
    | lock k f =>
      cases w with
      | none => cases hn; exact .inl rfl
      | some snap =>
        simp only [next] at hn
        split at hn <;> cases hn
        exact .inl rfl

end Never

/-! ### Calls all of whose writes are of one kind -/

section Only

variable {S : D → Prop} {V : W → Prop}

/-- What a call has written and, while the state is in `S`, goes on to write is of kind `V`. -/
structure Call.Only (S : D → Prop) (V : W → Prop) (c : Call D W K Λ E A) : Prop where
  never : c.Never S fun w => ¬V w
  pending : ∀ w ∈ c.pending, V w

theorem Call.only_start [Inhabited Λ] {p : Prog D W K Λ E A} (h : p.Never S fun w => ¬V w) :
    (start p).Only S V := by
  have hsettle : (start p).Never S (fun w => ¬V w) ∧ ∀ w ∈ (start p).pending, ¬V w → w ∈ [] :=
    never_settle h
  exact ⟨hsettle.1, fun w hw => by_contra fun hV => List.not_mem_nil (hsettle.2 w hw hV)⟩

variable [Store D W]

/-- A call publishes what is pending, all of it or none. -/
theorem Call.published_next {N : W → Prop} {free : K → Bool} {c c' : Call D W K Λ E A} {d d' : D}
    (h : c.Never S N) (hn : c.next free d = some (d', c')) :
    d' = d ∨ d' = bump d ∨ d' = applyAll c.pending d := by
  match c with
  | done r made => cases hn
  | crashed made => cases hn
  | run p loc w =>
    cases p with
    | ret | fail | write | mark => cases w <;> cases hn
    | atomic => exact h.elim
    | rollback | query | read => cases w <;> cases hn <;> exact .inl rfl
    | fresh => cases w <;> cases hn <;> exact .inr (.inl rfl)
    | commit => cases w <;> cases hn <;> exact .inr (.inr rfl)
    | lock k f =>
      cases w with
      | none => cases hn; exact .inl rfl
      | some snap =>
        simp only [next] at hn
        split at hn <;> cases hn
        exact .inl rfl

variable {ι : Type} [DecidableEq ι] {env : D → D → Prop} {e : Event ι} {s s' : Sys ι D W K Λ E A}
  {i : ι}

/-- A call stays so in every step of the system. -/
theorem Call.Only.step (h : (s.calls i).Only S V) (hS : ∀ ws d, S d → S (applyAll ws d))
    (hs : S s.shared) (hst : Step env e s s') : (s'.calls i).Only S V := by
  cases e with
  | env =>
    obtain ⟨d, -, rfl⟩ := hst
    exact h
  | crash j =>
    obtain ⟨p, loc, w, hj, rfl⟩ := hst
    by_cases hij : i = j
    · subst hij
      simp only [Function.update_self]
      exact ⟨trivial, fun _ hw => absurd hw List.not_mem_nil⟩
    · simpa only [Function.update_of_ne hij] using h
  | go j =>
    obtain ⟨free, -, d, c, hn, rfl⟩ := hst
    by_cases hij : i = j
    · subst hij
      simp only [Function.update_self]
      obtain ⟨hnever, hpend⟩ := never_next hS h.never hs hn
      exact ⟨hnever, fun w hw => by_contra fun hV => hV (h.pending w (hpend w hw hV))⟩
    · simpa only [Function.update_of_ne hij] using h

/-- What its step changes is of the kind. -/
theorem Call.Only.published (h : (s.calls i).Only S V) (hst : Step env (.go i) s s') :
    s'.shared = s.shared ∨ s'.shared = bump s.shared ∨
      ∃ ws, (∀ w ∈ ws, V w) ∧ s'.shared = applyAll ws s.shared := by
  obtain ⟨free, -, d, c, hn, rfl⟩ := hst
  rcases published_next h.never hn with hd | hd | hd
  · exact .inl hd
  · exact .inr (.inl hd)
  · exact .inr (.inr ⟨_, h.pending, hd⟩)

end Only

end ReadCommitted
