import Kimana.Contract
import Mathlib.Logic.Relation
import Mathlib.Tactic.Common

/-!
# Transfer state machine

The transition table.  Every status change goes through `assertTransition`.

* `rank_lt` : every transition goes up in `rank`, so a transfer never returns to a status it left.
* `forwardStep_mem` : a forward step is a transition.
* `LeadsTo` : one or more transitions lead from a status to another.
-/

namespace Kimana

namespace TransferStatus

/-- The statuses a transfer can move to. -/
def allowed : TransferStatus → List TransferStatus
  | created => [quoted, expired]
  | quoted => [screened, expired]
  | screened => [awaitingFunds, rejected, expired]
  | awaitingFunds => [funded, rejected, expired]
  | funded => [settling, rejected]
  | settling => [settled, rejected]
  -- A failed payout comes back on-chain from either.
  | settled => [payingOut, reversing]
  | payingOut => [completed, reversing]
  | completed => [reversing]
  | rejected => []
  | expired => []
  | reversing => [reversed]
  | reversed => []

/-- The single forward step, or `none` at a waypoint. -/
def forwardStep : TransferStatus → Option TransferStatus
  | created => some quoted
  | quoted => some screened
  | screened => some awaitingFunds
  | awaitingFunds => some funded
  | funded => some settling
  | settling => some settled
  | settled => some payingOut
  | payingOut => some completed
  | _ => none

/-- Refuse a move that is no transition. -/
def assertTransition (source target : TransferStatus) : Except ApiError Unit :=
  if target ∈ source.allowed then .ok ()
  else .error (.conflict
    ("Transfer cannot move from " ++ source.asStr ++ " to " ++ target.asStr ++ "."))

/-- A height that every transition increases. -/
def rank : TransferStatus → ℕ
  | created => 0
  | quoted => 1
  | screened => 2
  | awaitingFunds => 3
  | funded => 4
  | settling => 5
  | settled => 6
  | payingOut => 7
  | completed => 8
  | reversing => 9
  | reversed => 10
  | rejected => 11
  | expired => 11

theorem rank_lt {s t : TransferStatus} (h : t ∈ s.allowed) : s.rank < t.rank := by
  cases s <;> simp only [allowed, List.mem_cons, List.not_mem_nil, or_false] at h <;>
    rcases h with rfl | rfl | rfl <;> decide

theorem forwardStep_mem {s t : TransferStatus} (h : s.forwardStep = some t) : t ∈ s.allowed := by
  cases s <;> simp only [forwardStep, Option.some.injEq, reduceCtorEq] at h <;> subst h <;> decide

theorem rank_le_eleven (s : TransferStatus) : s.rank ≤ 11 := by
  cases s <;> decide

/-! ### Along the table -/

/-- A transition of the table. -/
def Goes (s t : TransferStatus) : Prop := t ∈ s.allowed

/-- One or more transitions lead from a status to another. -/
def LeadsTo : TransferStatus → TransferStatus → Prop := Relation.TransGen Goes

theorem LeadsTo.rank_lt {s t : TransferStatus} (h : LeadsTo s t) : s.rank < t.rank := by
  induction h with
  | single hst => exact TransferStatus.rank_lt hst
  | tail _ hut ih => exact Nat.lt_trans ih (TransferStatus.rank_lt hut)

theorem rank_le_of_goes {s t : TransferStatus} (h : Relation.ReflTransGen Goes s t) :
    s.rank ≤ t.rank := by
  rcases Relation.reflTransGen_iff_eq_or_transGen.1 h with rfl | h
  · exact Nat.le_refl _
  · exact Nat.le_of_lt (LeadsTo.rank_lt h)

/-- A search along at most `n` transitions. -/
def leadsWithin : ℕ → TransferStatus → TransferStatus → Bool
  | 0, _, _ => false
  | n + 1, s, t => s.allowed.any fun u => u = t || leadsWithin n u t

theorem leadsTo_of_leadsWithin {n : ℕ} {s t : TransferStatus} (h : leadsWithin n s t = true) :
    LeadsTo s t := by
  induction n generalizing s with
  | zero => cases h
  | succ n ih =>
    simp only [leadsWithin, List.any_eq_true, Bool.or_eq_true, decide_eq_true_eq] at h
    obtain ⟨u, hu, rfl | h⟩ := h
    · exact .single hu
    · exact .head hu (ih h)

theorem LeadsTo.leadsWithin {n : ℕ} {s t : TransferStatus} (h : LeadsTo s t)
    (hn : t.rank ≤ s.rank + n) : leadsWithin n s t = true := by
  induction h using Relation.TransGen.head_induction_on generalizing n with
  | single hst =>
    have := TransferStatus.rank_lt hst
    obtain ⟨m, rfl⟩ : ∃ m, n = m + 1 := ⟨n - 1, by omega⟩
    exact List.any_eq_true.2 ⟨t, hst, by simp⟩
  | @head s u hsu hut ih =>
    have := TransferStatus.rank_lt hsu
    have := LeadsTo.rank_lt hut
    obtain ⟨m, rfl⟩ : ∃ m, n = m + 1 := ⟨n - 1, by omega⟩
    have hm := ih (show t.rank ≤ u.rank + m by omega)
    exact List.any_eq_true.2 ⟨u, hsu, by simp [hm]⟩

instance (s t : TransferStatus) : Decidable (LeadsTo s t) :=
  decidable_of_iff (leadsWithin 11 s t = true)
    ⟨leadsTo_of_leadsWithin, fun h => h.leadsWithin
      (Nat.le_trans (rank_le_eleven t) (Nat.le_add_left _ _))⟩

end TransferStatus

end Kimana
