import Kimana.ReadCommitted.Prog
import Mathlib.Logic.Relation
import Mathlib.Tactic.Simps.Basic

/-!
# Concurrent calls at READ COMMITTED

`Sys` is any number of calls, each running a program of `ReadCommitted.Prog` over one shared
state.  One step lets one call carry out one statement; a locking statement first takes its
snapshot and waits, and goes on once no other call holds the lock.  A call can crash at any
point, and the environment can change the shared state.

* `Call.next` : the next statement of a call, executable.
* `Step` : one step of the system.
* `Meets` : the step satisfies a condition on where the other calls stand.
* `Reach` : reachability by a given step relation.
* `play` : run a schedule; `reach_of_play` turns it into reachability.
* `Serial` : calls run one after another; `reach_of_playTurns` builds such runs.
-/

namespace ReadCommitted

variable {D W K Λ E A : Type}

/-- What a running call has of its own. -/
structure Local (D W K Λ : Type) where
  /-- The uncommitted writes of the open transaction. -/
  pending : List W := []
  /-- The row locks of the open transaction. -/
  locks : List K := []
  /-- The row ids drawn in the open transaction. -/
  ids : List ℕ := []
  /-- Where the program stands. -/
  label : Λ
  /-- The changes this call has made to the shared state, latest first. -/
  made : List (D × D) := []

namespace Local

variable (loc : Local D W K Λ)

/-- What is left when the open transaction ends. -/
@[simps] def ended : Local D W K Λ := { label := loc.label, made := loc.made }

/-- A row lock was granted. -/
@[simps] def hold (k : K) : Local D W K Λ := { loc with locks := k :: loc.locks }

/-- A row id was drawn. -/
@[simps] def draw (n : ℕ) : Local D W K Λ := { loc with ids := n :: loc.ids }

/-- A write was carried out. -/
@[simps] def wrote (w : W) : Local D W K Λ := { loc with pending := loc.pending ++ [w] }

/-- The label was set. -/
@[simps] def at' (l : Λ) : Local D W K Λ := { loc with label := l }

/-- The shared state was changed. -/
@[simps] def changed (d d' : D) : Local D W K Λ := { loc with made := (d, d') :: loc.made }

end Local

/-- A call: before a statement (with the snapshot of the locking statement it waits in, if any),
answered, or gone without an answer. -/
inductive Call (D W K Λ E A : Type) : Type
  | run (p : Prog D W K Λ E A) (loc : Local D W K Λ) (wait : Option D)
  | done (r : Except E A) (made : List (D × D))
  | crashed (made : List (D × D))

namespace Call

/-- Go on to the next statement: answers, labels and uncommitted writes touch nothing shared. -/
def settle : Prog D W K Λ E A → Local D W K Λ → Call D W K Λ E A
  | .ret a, loc => done (.ok a) loc.made
  | .fail e, loc => done (.error e) loc.made
  | .write w p, loc => settle p (loc.wrote w)
  | .mark l p, loc => settle p (loc.at' (l loc.label))
  | p, loc => run p loc none

/-- A call that has not begun. -/
def start [Inhabited Λ] (p : Prog D W K Λ E A) : Call D W K Λ E A := settle p { label := default }

/-- The row locks a call holds. -/
def locks : Call D W K Λ E A → List K
  | run _ loc _ => loc.locks
  | _ => []

/-- The row ids a call has drawn and not yet published. -/
def ids : Call D W K Λ E A → List ℕ
  | run _ loc _ => loc.ids
  | _ => []

/-- Where a call stands. -/
def label [Inhabited Λ] : Call D W K Λ E A → Λ
  | run _ loc _ => loc.label
  | _ => default

/-- The snapshot a waiting call holds. -/
def wait : Call D W K Λ E A → Option D
  | run _ _ wait => wait
  | _ => none

/-- The changes a call has made. -/
def made : Call D W K Λ E A → List (D × D)
  | run _ loc _ => loc.made
  | done _ made => made
  | crashed made => made

@[simp] theorem locks_crashed (m : List (D × D)) :
    (crashed m : Call D W K Λ E A).locks = [] := rfl

@[simp] theorem ids_crashed (m : List (D × D)) :
    (crashed m : Call D W K Λ E A).ids = [] := rfl

/-- Going on to the next statement takes no lock. -/
theorem locks_settle {p : Prog D W K Λ E A} {loc : Local D W K Λ} {k : K}
    (h : k ∈ (settle p loc).locks) : k ∈ loc.locks := by
  induction p generalizing loc with
  | ret | fail => cases h
  | write w p ih => exact @ih (loc.wrote w) h
  | mark l p ih => exact @ih (loc.at' (l loc.label)) h
  | _ => exact h

/-- Going on to the next statement draws no id. -/
theorem ids_settle {p : Prog D W K Λ E A} {loc : Local D W K Λ} {n : ℕ}
    (h : n ∈ (settle p loc).ids) : n ∈ loc.ids := by
  induction p generalizing loc with
  | ret | fail => cases h
  | write w p ih => exact @ih (loc.wrote w) h
  | mark l p ih => exact @ih (loc.at' (l loc.label)) h
  | _ => exact h

/-- Going on to the next statement changes nothing. -/
theorem made_settle (p : Prog D W K Λ E A) (loc : Local D W K Λ) :
    (settle p loc).made = loc.made := by
  induction p generalizing loc with
  | write w p ih => exact ih (loc.wrote w)
  | mark l p ih => exact ih (loc.at' (l loc.label))
  | _ => rfl

variable [Store D W]

/-- The next statement of a call in shared state `d`, where `free k` tells whether no other
call holds `k`: the shared state and the call afterwards, or `none` when the call cannot move. -/
def next (free : K → Bool) (d : D) : Call D W K Λ E A → Option (D × Call D W K Λ E A)
  | run (.fresh f) loc _ =>
    some (bump d, settle (f (seq d)) (loc.draw (seq d)))
  | run (.atomic u f) loc _ => some (u d, settle (f d) (loc.changed d (u d)))
  | run (.query f) loc _ => some (d, settle (f d) loc)
  | run (.read f) loc _ => some (d, settle (f (applyAll loc.pending d)) loc)
  | run (.lock k f) loc none => some (d, run (.lock k f) loc (some (applyAll loc.pending d)))
  | run (.lock k f) loc (some snap) =>
    if free k then
      some (d, settle (f snap (applyAll loc.pending d)) (loc.hold k))
    else none
  | run (.commit p) loc _ =>
    let d' := applyAll loc.pending d
    some (d', settle p (loc.ended.changed d d'))
  | run (.rollback p) loc _ => some (d, settle p loc.ended)
  | _ => none

/-- A statement makes at most one change, that of the shared state. -/
theorem made_next {free : K → Bool} {c c' : Call D W K Λ E A} {d d' : D}
    (h : c.next free d = some (d', c')) : c'.made = c.made ∨ c'.made = (d, d') :: c.made := by
  match c with
  | done r made => cases h
  | crashed made => cases h
  | run p loc w =>
    cases p with
    | ret | fail | write | mark => cases w <;> cases h
    | fresh | query | read | rollback =>
      cases w <;> cases h <;> exact .inl (made_settle ..)
    | atomic | commit => cases w <;> cases h <;> exact .inr (made_settle ..)
    | lock k f =>
      cases w with
      | none => cases h; exact .inl rfl
      | some snap =>
        simp only [next] at h
        split at h <;> cases h
        exact .inl (made_settle ..)

omit [Store D W] in
theorem settle_ne_crashed (p : Prog D W K Λ E A) (loc : Local D W K Λ) (made : List (D × D)) :
    settle p loc ≠ crashed made := by
  induction p generalizing loc with
  | write w p ih => exact ih (loc.wrote w)
  | mark l p ih => exact ih (loc.at' (l loc.label))
  | _ => exact nofun

/-- A call that takes a step goes on. -/
theorem ne_crashed_of_next {free : K → Bool} {c c' : Call D W K Λ E A} {d d' : D}
    (h : c.next free d = some (d', c')) (made : List (D × D)) : c' ≠ crashed made := by
  match c with
  | done r made => cases h
  | crashed made => cases h
  | run p loc w =>
    cases p with
    | ret | fail | write | mark => cases w <;> cases h
    | fresh | query | read | rollback | atomic | commit =>
      cases w <;> cases h <;> exact settle_ne_crashed _ _ _
    | lock k f =>
      cases w with
      | none => cases h; exact nofun
      | some snap =>
        simp only [next] at h
        split at h <;> cases h
        exact settle_ne_crashed _ _ _

end Call

/-- The shared state and the calls over it. -/
structure Sys (ι D W K Λ E A : Type) where
  /-- The shared state: what is committed. -/
  shared : D
  /-- The calls. -/
  calls : ι → Call D W K Λ E A

/-- Who moves. -/
inductive Event (ι : Type)
  /-- Call `i` carries out a statement. -/
  | go (i : ι)
  /-- Call `i` crashes: its connection is dropped and its transaction rolled back. -/
  | crash (i : ι)
  /-- The environment changes the shared state. -/
  | env

variable {ι : Type}

/-- `s'` is reachable from `s` by steps of `step`. -/
def Reach (step : Event ι → Sys ι D W K Λ E A → Sys ι D W K Λ E A → Prop) :
    Sys ι D W K Λ E A → Sys ι D W K Λ E A → Prop :=
  Relation.ReflTransGen fun s s' => ∃ e, step e s s'

/-- What holds at the start and is kept by every step holds in every reachable state. -/
theorem Reach.invariant {step : Event ι → Sys ι D W K Λ E A → Sys ι D W K Λ E A → Prop}
    {I : Sys ι D W K Λ E A → Prop} {s₀ s : Sys ι D W K Λ E A} (h : Reach step s₀ s) (h₀ : I s₀)
    (hstep : ∀ s e s', Reach step s₀ s → I s → step e s s' → I s') : I s := by
  induction h with
  | refl => exact h₀
  | tail hs hst ih =>
    obtain ⟨e, he⟩ := hst
    exact hstep _ e _ hs ih he

theorem Reach.mono {step step' : Event ι → Sys ι D W K Λ E A → Sys ι D W K Λ E A → Prop}
    (hle : ∀ e s s', step e s s' → step' e s s') {s s' : Sys ι D W K Λ E A}
    (h : Reach step s s') : Reach step' s s' :=
  Relation.ReflTransGen.mono (fun _ _ ⟨e, he⟩ => ⟨e, hle e _ _ he⟩) _ _ h

/-- What held before each step if it holds after it held all along. -/
theorem Reach.all_of_last {step : Event ι → Sys ι D W K Λ E A → Sys ι D W K Λ E A → Prop}
    {I : Sys ι D W K Λ E A → Prop} (hback : ∀ e s s', step e s s' → I s' → I s)
    {s s' : Sys ι D W K Λ E A} (hr : Reach step s s') (h : I s') :
    Reach (fun e s s' => step e s s' ∧ I s') s s' := by
  induction hr with
  | refl => exact .refl
  | tail hr hst ih =>
    obtain ⟨e, he⟩ := hst
    exact (ih (hback e _ _ he h)).tail ⟨e, he, h⟩

/-- Condition `cond` holds of the step where every call that does not move stands:
`cond l w d d'` is about the change from `d` to `d'` while a call stands at label `l`, waiting
with snapshot `w` if it waits. -/
def Meets [Inhabited Λ] (cond : Λ → Option D → D → D → Prop) (e : Event ι)
    (s s' : Sys ι D W K Λ E A) : Prop :=
  ∀ j, e ≠ .go j → cond (s.calls j).label (s.calls j).wait s.shared s'.shared

variable [DecidableEq ι] [Store D W]

/-- One step of the system. -/
def Step (env : D → D → Prop) (e : Event ι) (s s' : Sys ι D W K Λ E A) : Prop :=
  match e with
  | .go i => ∃ free : K → Bool, (∀ k, free k = true → ∀ j, j ≠ i → k ∉ (s.calls j).locks) ∧
      ∃ d c, (s.calls i).next free s.shared = some (d, c) ∧
        s' = ⟨d, Function.update s.calls i c⟩
  | .crash i => ∃ p loc w, s.calls i = .run p loc w ∧
      s' = ⟨s.shared, Function.update s.calls i (.crashed loc.made)⟩
  | .env => ∃ d, env s.shared d ∧ s' = ⟨d, s.calls⟩

/-! ### Schedules -/

/-- One entry of a schedule. -/
inductive Move (ι D : Type)
  | go (i : ι)
  | crash (i : ι)
  | env (f : D → D)

variable [DecidableEq K]

/-- Carry out one move; `is` lists the calls. -/
def playMove (is : List ι) (s : Sys ι D W K Λ E A) : Move ι D → Option (Sys ι D W K Λ E A)
  | .go i =>
    let free := fun k => is.all fun j => decide (j = i) || !decide (k ∈ (s.calls j).locks)
    match (s.calls i).next free s.shared with
    | some (d, c) => some ⟨d, Function.update s.calls i c⟩
    | none => none
  | .crash i =>
    match s.calls i with
    | .run _ loc _ => some ⟨s.shared, Function.update s.calls i (.crashed loc.made)⟩
    | _ => none
  | .env f => some ⟨f s.shared, s.calls⟩

/-- Carry out a schedule. -/
def play (is : List ι) : List (Move ι D) → Sys ι D W K Λ E A → Option (Sys ι D W K Λ E A)
  | [], s => some s
  | m :: ms, s =>
    match playMove is s m with
    | some s' => play is ms s'
    | none => none

/-- The event of a move. -/
def Move.event : Move ι D → Event ι
  | go i => .go i
  | crash i => .crash i
  | env _ => .env

theorem step_of_playMove {env : D → D → Prop} {is : List ι} (his : ∀ i, i ∈ is)
    {m : Move ι D} (henv : ∀ f, m = .env f → ∀ d, env d (f d)) {s s' : Sys ι D W K Λ E A}
    (h : playMove is s m = some s') : Step env m.event s s' := by
  cases m with
  | go i =>
    simp only [playMove] at h
    split at h
    · rename_i d c hn
      refine ⟨_, ?_, d, c, hn, (Option.some.inj h).symm⟩
      intro k hk j hj
      simpa [hj] using List.all_eq_true.1 hk j (his j)
    · cases h
  | crash i =>
    simp only [playMove] at h
    split at h
    · rename_i p loc w hc
      exact ⟨p, loc, w, hc, (Option.some.inj h).symm⟩
    · cases h
  | env f => exact ⟨f s.shared, henv f rfl _, (Option.some.inj h).symm⟩

/-- A schedule that runs to its end witnesses reachability. -/
theorem reach_of_play {env : D → D → Prop} {is : List ι} (his : ∀ i, i ∈ is)
    {ms : List (Move ι D)} (henv : ∀ f, Move.env f ∈ ms → ∀ d, env d (f d))
    {s s' : Sys ι D W K Λ E A} (h : play is ms s = some s') : Reach (Step env) s s' := by
  induction ms generalizing s with
  | nil => cases h; exact .refl
  | cons m ms ih =>
    simp only [play] at h
    split at h
    · rename_i s₁ h₁
      have hst := step_of_playMove his (fun f hf => henv f (hf ▸ List.mem_cons_self)) h₁
      exact .head ⟨m.event, hst⟩ (ih (fun f hf => henv f (List.mem_cons_of_mem _ hf)) h)
    · cases h

/-- A schedule whose last state passes a test witnesses a reachable state that does. -/
theorem exists_reach_of_play (env : D → D → Prop) (is : List ι) (ms : List (Move ι D))
    (s : Sys ι D W K Λ E A) (P : Sys ι D W K Λ E A → Bool) (his : ∀ i, i ∈ is)
    (henv : ∀ f, Move.env f ∈ ms → ∀ d, env d (f d)) (h : (play is ms s).any P = true) :
    ∃ s', Reach (Step env) s s' ∧ P s' = true := by
  cases hs : play is ms s with
  | none => simp [hs] at h
  | some s' => exact ⟨s', reach_of_play his henv hs, by simpa [hs] using h⟩

/-- Calls one after another, each for so many statements. -/
def schedule (turns : List (ι × ℕ)) : List (Move ι D) :=
  turns.flatMap fun turn => List.replicate turn.2 (.go turn.1)

omit [DecidableEq ι] [Store D W] [DecidableEq K] in
theorem env_schedule {env : D → D → Prop} (turns : List (ι × ℕ)) (f : D → D)
    (hf : .env f ∈ schedule turns) (d : D) : env d (f d) := by
  simp [schedule, List.mem_flatMap, List.mem_replicate] at hf

/-- A schedule of turns that ends in a state with some property witnesses that it can be reached. -/
theorem exists_reach_of_turns (env : D → D → Prop) (is : List ι) (turns : List (ι × ℕ))
    (s : Sys ι D W K Λ E A) (P : Sys ι D W K Λ E A → Bool) (his : ∀ i, i ∈ is)
    (h : (play is (schedule turns) s).any P = true) : ∃ s', Reach (Step env) s s' ∧ P s' = true :=
  exists_reach_of_play env is _ s P his (env_schedule turns) h

/-! ### Schedules that meet a condition -/

/-- The call that moves. -/
def Move.mover : Move ι D → Option ι
  | go i => some i
  | _ => none

/-- Carry out a schedule whose every move meets the condition `c` where the other calls stand. -/
def playIf [Inhabited Λ] (c : Λ → Option D → D → D → Bool) (is : List ι) :
    List (Move ι D) → Sys ι D W K Λ E A → Option (Sys ι D W K Λ E A)
  | [], s => some s
  | m :: ms, s =>
    match playMove is s m with
    | some s' =>
      if is.all fun j => decide (m.mover = some j) ||
          c (s.calls j).label (s.calls j).wait s.shared s'.shared then playIf c is ms s'
      else none
    | none => none

/-- Such a schedule, if it ends in a state that passes a test, witnesses that one can be reached by
steps that meet the condition. -/
theorem exists_reach_of_playIf [Inhabited Λ] (env : D → D → Prop) (c : Λ → Option D → D → D → Bool)
    (is : List ι) (ms : List (Move ι D)) (s : Sys ι D W K Λ E A) (P : Sys ι D W K Λ E A → Bool)
    (his : ∀ i, i ∈ is) (henv : ∀ f, Move.env f ∈ ms → ∀ d, env d (f d))
    (h : (playIf c is ms s).any P = true) :
    ∃ s', Reach (fun e s s' => Step env e s s' ∧
      Meets (fun l w d d' => c l w d d' = true) e s s') s s' ∧ P s' = true := by
  induction ms generalizing s with
  | nil => exact ⟨s, .refl, by simpa [playIf] using h⟩
  | cons m ms ih =>
    simp only [playIf] at h
    split at h
    case h_2 => simp at h
    case h_1 s₁ h₁ =>
      split at h
      case isFalse => simp at h
      case isTrue hc =>
        obtain ⟨s', hr, hP⟩ := ih s₁ (fun f hf => henv f (List.mem_cons_of_mem _ hf)) h
        refine ⟨s', .head ⟨m.event, step_of_playMove his
          (fun f hf => henv f (hf ▸ List.mem_cons_self)) h₁, fun j hj => ?_⟩ hr, hP⟩
        have hj' : m.mover ≠ some j := by
          cases m with
          | go i => simpa [Move.event, Move.mover] using hj
          | crash i => simp [Move.mover]
          | env f => simp [Move.mover]
        simpa [hj'] using List.all_eq_true.1 hc j (his j)

/-- Carry out a schedule whose every move passes a check. -/
def playChecked (c : Event ι → Sys ι D W K Λ E A → Bool) (is : List ι) :
    List (Move ι D) → Sys ι D W K Λ E A → Option (Sys ι D W K Λ E A)
  | [], s => some s
  | m :: ms, s =>
    match playMove is s m with
    | some s' => if c m.event s then playChecked c is ms s' else none
    | none => none

/-- Such a schedule witnesses a run whose every step passes the check where it begins. -/
theorem reach_of_playChecked {env : D → D → Prop} {c : Event ι → Sys ι D W K Λ E A → Bool}
    {is : List ι} (his : ∀ i, i ∈ is) {ms : List (Move ι D)}
    (henv : ∀ f, Move.env f ∈ ms → ∀ d, env d (f d)) {s s' : Sys ι D W K Λ E A}
    (h : playChecked c is ms s = some s') :
    Reach (fun e s s' => Step env e s s' ∧ c e s = true) s s' := by
  induction ms generalizing s with
  | nil => cases h; exact .refl
  | cons m ms ih =>
    simp only [playChecked] at h
    split at h
    case h_2 => cases h
    case h_1 s₁ h₁ =>
      split at h
      case isFalse => cases h
      case isTrue hc =>
        have hst := step_of_playMove his (fun f hf => henv f (hf ▸ List.mem_cons_self)) h₁
        exact .head ⟨m.event, hst, hc⟩ (ih (fun f hf => henv f (List.mem_cons_of_mem _ hf)) h)

/-! ### One call after another -/

/-- A call of a program that has not begun or has ended. -/
def Call.Resting [Inhabited Λ] (p : Prog D W K Λ E A) (c : Call D W K Λ E A) : Prop :=
  c = .start p ∨ (∃ r made, c = .done r made) ∨ ∃ made, c = .crashed made

/-- A call moves only while the others have not begun or have ended. -/
def Serial [Inhabited Λ] (progs : ι → Prog D W K Λ E A) (e : Event ι)
    (s : Sys ι D W K Λ E A) : Prop :=
  ∀ i, e = .go i → ∀ j, j ≠ i → (s.calls j).Resting (progs j)

/-- A call has answered without an error. -/
def Call.succeeded : Call D W K Λ E A → Bool
  | done (.ok _) _ => true
  | _ => false

/-- The result of a call that has one. -/
def Call.result? : Call D W K Λ E A → Option (Except E A)
  | done r _ => some r
  | _ => none

omit [Store D W] [DecidableEq K] in
theorem Call.eq_done_of_result {c : Call D W K Λ E A} {r : Except E A} (h : c.result? = some r) :
    ∃ made, c = .done r made := by
  cases c with
  | done r' made =>
    obtain rfl := Option.some.inj h
    exact ⟨made, rfl⟩
  | run | crashed => cases h

/-- A call has ended. -/
def Call.ended : Call D W K Λ E A → Bool
  | run .. => false
  | _ => true

omit [DecidableEq K] in
/-- A call that has ended does not move. -/
theorem calls_of_ended {env : D → D → Prop} {e : Event ι} {s s' : Sys ι D W K Λ E A}
    (hst : Step env e s s') {i : ι} (h : (s.calls i).ended = true) : s'.calls i = s.calls i := by
  cases e with
  | env =>
    obtain ⟨d, -, rfl⟩ := hst
    rfl
  | crash j =>
    obtain ⟨p, loc, w, hj, rfl⟩ := hst
    refine Function.update_of_ne (fun hij => ?_) ..
    subst hij
    rw [hj] at h
    cases h
  | go j =>
    obtain ⟨free, -, d, c, hn, rfl⟩ := hst
    refine Function.update_of_ne (fun hij => ?_) ..
    subst hij
    cases hc : s.calls i with
    | run p loc w => rw [hc] at h; cases h
    | done r made | crashed made => rw [hc] at hn; cases hn

/-- Let one call carry out so many statements, each of which changes the shared state as `c`
says. -/
def playTurn (c : D → D → Bool) (is : List ι) (i : ι) :
    ℕ → Sys ι D W K Λ E A → Option (Sys ι D W K Λ E A)
  | 0, s => some s
  | n + 1, s =>
    match playMove is s (.go i) with
    | some s' => if c s.shared s'.shared then playTurn c is i n s' else none
    | none => none

/-- Let calls run to their ends one after another. -/
def playTurns (c : D → D → Bool) (is : List ι) :
    List (ι × ℕ) → Sys ι D W K Λ E A → Option (Sys ι D W K Λ E A)
  | [], s => some s
  | (i, n) :: turns, s =>
    match playTurn c is i n s with
    | some s' => if (s'.calls i).ended then playTurns c is turns s' else none
    | none => none

section Serial

variable [Inhabited Λ] {progs : ι → Prog D W K Λ E A} {env : D → D → Prop} {c : D → D → Bool}
  {is : List ι}

omit [Store D W] [DecidableEq K] in
theorem Call.resting_of_ended {p : Prog D W K Λ E A} {x : Call D W K Λ E A} (h : x.ended = true) :
    x.Resting p := by
  cases x with
  | run => cases h
  | done r made => exact .inr (.inl ⟨r, made, rfl⟩)
  | crashed made => exact .inr (.inr ⟨made, rfl⟩)

/-- The turn of one call leaves the others where they are. -/
theorem reach_of_playTurn (his : ∀ i, i ∈ is) {i : ι} {n : ℕ} {s s' : Sys ι D W K Λ E A}
    (hrest : ∀ j, j ≠ i → (s.calls j).Resting (progs j)) (h : playTurn c is i n s = some s') :
    Reach (fun e s s' => Step env e s s' ∧ Serial progs e s ∧ c s.shared s'.shared = true) s s' ∧
      ∀ j, j ≠ i → (s'.calls j).Resting (progs j) := by
  induction n generalizing s with
  | zero => cases h; exact ⟨.refl, hrest⟩
  | succ n ih =>
    simp only [playTurn] at h
    split at h
    case h_2 => cases h
    case h_1 s₁ h₁ =>
      split at h
      case isFalse => cases h
      case isTrue hc =>
        have hcalls : ∀ j, j ≠ i → s₁.calls j = s.calls j := by
          simp only [playMove] at h₁
          split at h₁ <;> cases h₁
          exact fun j hj => Function.update_of_ne hj ..
        obtain ⟨hr, hrest'⟩ := ih (fun j hj => hcalls j hj ▸ hrest j hj) h
        refine ⟨.head ⟨.go i, step_of_playMove his (by simp) h₁, ?_, hc⟩ hr, hrest'⟩
        rintro _ ⟨⟩
        exact hrest

/-- Calls that run to their ends one after another make a serial run. -/
theorem reach_of_playTurns (his : ∀ i, i ∈ is) {turns : List (ι × ℕ)} {s s' : Sys ι D W K Λ E A}
    (hrest : ∀ j, (s.calls j).Resting (progs j)) (h : playTurns c is turns s = some s') :
    Reach (fun e s s' => Step env e s s' ∧ Serial progs e s ∧
      c s.shared s'.shared = true) s s' := by
  induction turns generalizing s with
  | nil => cases h; exact .refl
  | cons turn turns ih =>
    obtain ⟨i, n⟩ := turn
    simp only [playTurns] at h
    split at h
    case h_2 => cases h
    case h_1 s₁ h₁ =>
      split at h
      case isFalse => cases h
      case isTrue hend =>
        obtain ⟨hr, hrest'⟩ := reach_of_playTurn his (fun j _ => hrest j) h₁
        refine hr.trans (ih (fun j => ?_) h)
        by_cases hj : j = i
        · exact hj ▸ Call.resting_of_ended hend
        · exact hrest' j hj

end Serial

end ReadCommitted
