import Mathlib.Data.List.Basic
import Mathlib.Logic.Function.Basic

/-!
# Database programs

A client of a transactional database is a tree of statements, `Prog`.  Its continuation after a
statement depends on what the statement saw.  The tree separates what a statement sees and when
its effect becomes visible to others:

* `query` looks at the committed state (a statement on a connection of its own), `read` at the
  committed state with the program's own uncommitted writes on top (a statement of the open
  transaction);
* `write` adds to the uncommitted writes, which `commit` publishes and `rollback` drops;
* `lock k` waits for the row lock `k` and sees two states: the one its snapshot was taken from
  and the one in which the lock was granted;
* `atomic` changes the shared state at once, outside any transaction (an autocommitted
  statement, a call to another service);
* `fresh` draws a generated row id, which is never drawn twice.

`Prog.alone` is the meaning of a program that nothing interferes with.
-/

namespace ReadCommitted

/-- A shared state `D`: what a write `W` does to it, and its generator of row ids. -/
class Store (D : Type) (W : outParam Type) where
  /-- Carry out one write. -/
  apply : W → D → D
  /-- The next row id. -/
  seq : D → ℕ
  /-- Draw a row id. -/
  bump : D → D
  seq_apply : ∀ w d, seq (apply w d) = seq d
  seq_bump : ∀ d, seq (bump d) = seq d + 1

export Store (seq bump seq_bump)

section Writes

variable {D W : Type} [Store D W]

/-- Carry out writes in order. -/
def applyAll (ws : List W) (d : D) : D := ws.foldl (fun d w => Store.apply w d) d

@[simp] theorem applyAll_nil (d : D) : applyAll ([] : List W) d = d := rfl

@[simp] theorem applyAll_cons (w : W) (ws : List W) (d : D) :
    applyAll (w :: ws) d = applyAll ws (Store.apply w d) := rfl

theorem applyAll_append (ws vs : List W) (d : D) :
    applyAll (ws ++ vs) d = applyAll vs (applyAll ws d) := by
  simp [applyAll, List.foldl_append]

@[simp] theorem seq_applyAll (ws : List W) (d : D) : seq (applyAll ws d) = seq d := by
  induction ws generalizing d with
  | nil => rfl
  | cons w ws ih => rw [applyAll_cons, ih, Store.seq_apply]

end Writes

/-- A program over the shared state `D` with writes `W`, row locks `K`, labels `Λ`, errors `E` and
answers `A`. -/
inductive Prog (D W K Λ E A : Type) : Type
  /-- Answer `a`. -/
  | ret (a : A)
  /-- Give up with an error; an open transaction is dropped. -/
  | fail (e : E)
  /-- Draw a row id. -/
  | fresh (f : ℕ → Prog D W K Λ E A)
  /-- Change the shared state at once and go on from the state before. -/
  | atomic (u : D → D) (f : D → Prog D W K Λ E A)
  /-- Look at the committed state. -/
  | query (f : D → Prog D W K Λ E A)
  /-- Look at the state as the open transaction sees it. -/
  | read (f : D → Prog D W K Λ E A)
  /-- Write in the open transaction. -/
  | write (w : W) (p : Prog D W K Λ E A)
  /-- Wait for a row lock; `f` gets the statement's snapshot and the state at the grant. -/
  | lock (k : K) (f : D → D → Prog D W K Λ E A)
  /-- Publish the writes and release the locks. -/
  | commit (p : Prog D W K Λ E A)
  /-- Drop the writes and release the locks. -/
  | rollback (p : Prog D W K Λ E A)
  /-- Update the label that says where the program stands, for statements about runs. -/
  | mark (l : Λ → Λ) (p : Prog D W K Λ E A)

namespace Prog

variable {D W K Λ E A B C : Type}

/-- Sequential composition. -/
def bind : Prog D W K Λ E A → (A → Prog D W K Λ E B) → Prog D W K Λ E B
  | ret a, g => g a
  | fail e, _ => fail e
  | fresh f, g => fresh fun n => (f n).bind g
  | atomic u f, g => atomic u fun d => (f d).bind g
  | query f, g => query fun d => (f d).bind g
  | read f, g => read fun d => (f d).bind g
  | write w p, g => write w (p.bind g)
  | lock k f, g => lock k fun d d' => (f d d').bind g
  | commit p, g => commit (p.bind g)
  | rollback p, g => rollback (p.bind g)
  | mark l p, g => mark l (p.bind g)

instance : Monad (Prog D W K Λ E) where
  pure := ret
  bind := bind

/-- Run `h` on an error of `p`, whose open transaction is dropped first. -/
def tryCatch : Prog D W K Λ E A → (E → Prog D W K Λ E A) → Prog D W K Λ E A
  | ret a, _ => ret a
  | fail e, h => rollback (h e)
  | fresh f, h => fresh fun n => (f n).tryCatch h
  | atomic u f, h => atomic u fun d => (f d).tryCatch h
  | query f, h => query fun d => (f d).tryCatch h
  | read f, h => read fun d => (f d).tryCatch h
  | write w p, h => write w (p.tryCatch h)
  | lock k f, h => lock k fun d d' => (f d d').tryCatch h
  | commit p, h => commit (p.tryCatch h)
  | rollback p, h => rollback (p.tryCatch h)
  | mark l p, h => mark l (p.tryCatch h)

/-- Turn the errors of a program into another kind of error. -/
def mapError {E' : Type} (h : E → E') : Prog D W K Λ E A → Prog D W K Λ E' A
  | ret a => ret a
  | fail e => fail (h e)
  | fresh f => fresh fun n => (f n).mapError h
  | atomic u f => atomic u fun d => (f d).mapError h
  | query f => query fun d => (f d).mapError h
  | read f => read fun d => (f d).mapError h
  | write w p => write w (p.mapError h)
  | lock k f => lock k fun d d' => (f d d').mapError h
  | commit p => commit (p.mapError h)
  | rollback p => rollback (p.mapError h)
  | mark l p => mark l (p.mapError h)

/-- Label what the first statement of a program sees, if it is a query. -/
def noting (note : D → Λ → Λ) : Prog D W K Λ E A → Prog D W K Λ E A
  | query f => query fun d => mark (note d) (f d)
  | p => p

@[simp] theorem pure_eq (a : A) : (pure a : Prog D W K Λ E A) = ret a := rfl

@[simp] theorem bind_eq (p : Prog D W K Λ E A) (g : A → Prog D W K Λ E B) :
    p >>= g = p.bind g := rfl

@[simp] theorem map_eq (p : Prog D W K Λ E A) (g : A → B) :
    g <$> p = p.bind fun a => ret (g a) := rfl

theorem bind_ret (p : Prog D W K Λ E A) : p.bind ret = p := by
  induction p <;> simp_all [bind]

theorem bind_assoc (p : Prog D W K Λ E A) (g : A → Prog D W K Λ E B)
    (h : B → Prog D W K Λ E C) : (p.bind g).bind h = p.bind fun a => (g a).bind h := by
  induction p <;> simp_all [bind]

/-! ### Running alone -/

section Alone

variable [Store D W]

/-- The answer of a program that runs from shared state `d` with uncommitted writes `ws` while
nobody else does anything, and the shared state it leaves. -/
def alone : Prog D W K Λ E A → D → List W → Except E A × D
  | ret a, d, _ => (.ok a, d)
  | fail e, d, _ => (.error e, d)
  | fresh f, d, ws => (f (seq d)).alone (bump d) ws
  | atomic u f, d, ws => (f d).alone (u d) ws
  | query f, d, ws => (f d).alone d ws
  | read f, d, ws => (f (applyAll ws d)).alone d ws
  | write w p, d, ws => p.alone d (ws ++ [w])
  | lock _ f, d, ws => (f (applyAll ws d) (applyAll ws d)).alone d ws
  | commit p, d, ws => p.alone (applyAll ws d) []
  | rollback p, d, _ => p.alone d []
  | mark _ p, d, ws => p.alone d ws

theorem alone_bind_ret (p : Prog D W K Λ E A) (f : A → B) (d : D) (ws : List W) :
    (p.bind fun a => ret (f a)).alone d ws = ((p.alone d ws).1.map f, (p.alone d ws).2) := by
  induction p generalizing d ws <;> simp_all [bind, alone, Except.map]

end Alone

end Prog

/-! ### Statements as programs -/

namespace Tx

variable {D W K Λ E : Type}

/-- A statement on a connection of its own. -/
abbrev query : Prog D W K Λ E D := Prog.query .ret

/-- A statement that reads in the open transaction. -/
abbrev read : Prog D W K Λ E D := Prog.read .ret

/-- A statement that writes. -/
abbrev write (w : W) : Prog D W K Λ E Unit := Prog.write w (.ret ())

/-- A statement that waits for a row lock and reads nothing under it. -/
abbrev lock (k : K) : Prog D W K Λ E Unit := Prog.lock k fun _ _ => .ret ()

/-- Draw a row id. -/
abbrev fresh : Prog D W K Λ E ℕ := Prog.fresh .ret

/-- Publish the writes. -/
abbrev commit : Prog D W K Λ E Unit := Prog.commit (.ret ())

/-- Drop the writes. -/
abbrev rollback : Prog D W K Λ E Unit := Prog.rollback (.ret ())

/-- Update the label. -/
abbrev mark (l : Λ → Λ) : Prog D W K Λ E Unit := Prog.mark l (.ret ())

end Tx

end ReadCommitted
