import Kimana.Auth
import Mathlib.Data.List.Nodup
import Mathlib.Data.List.Infix

/-!
# The tables of users and sessions

What the schema guarantees (`Wf`), what statements do to the unique keys and row ids, and what lasts
from one state to a later one (`Later`).
-/

namespace Kimana.Auth

open ReadCommitted Table

variable {lib : Library} {d d' d'' : Directory}

/-! ### Keys and ids -/

/-- The unique key of a user with an email. -/
def UserRow.key (lib : Library) (u : UserRow) : Option Key :=
  u.email.map fun e => .email (lib.lower e)

/-- The unique keys in use. -/
def Directory.keys (lib : Library) (d : Directory) : List Key :=
  d.users.filterMap (UserRow.key lib) ++
    d.customers.map (fun c => .accountNumber c.accountNumber) ++
    d.sessions.map fun s => .tokenHash s.tokenHash

/-- The row ids in use. -/
def Directory.ids (d : Directory) : List ℕ :=
  d.users.map (·.id) ++ d.customers.map (·.id) ++ d.applications.map (·.id) ++
    d.sessions.map (·.id)

/-- The unique keys of a new row. -/
def Write.keys (lib : Library) : Write → List Key
  | insertUser row => [row].filterMap (UserRow.key lib)
  | insertCustomer row => [.accountNumber row.accountNumber]
  | insertSession row => [.tokenHash row.tokenHash]
  | _ => []

/-- The id of a new row. -/
def Write.ids : Write → List ℕ
  | insertUser row => [row.id]
  | insertCustomer row => [row.id]
  | insertApplication row => [row.id]
  | insertSession row => [row.id]
  | insertAudit _ => []

/-- The row a new row refers to is there. -/
def Write.Refers : Write → Directory → Prop
  | insertCustomer row, d => ∃ u ∈ d.users, u.id = row.primaryUserId
  | insertSession row, d => ∃ u ∈ d.users, u.id = row.userId
  | _, _ => True

theorem keys_apply (w : Write) (d : Directory) :
    ((w.apply d).keys lib).Perm (d.keys lib ++ w.keys lib) := by
  cases w with
  | insertUser row =>
    simp only [Write.apply, Directory.keys, Write.keys, List.filterMap_append, List.append_assoc]
    refine .append_left _ (List.perm_append_comm.trans (.of_eq ?_))
    simp only [List.append_assoc]
  | insertCustomer row =>
    simp only [Write.apply, Directory.keys, Write.keys, List.map_append, List.append_assoc]
    exact .append_left _ (.append_left _ List.perm_append_comm)
  | insertSession row =>
    simp only [Write.apply, Directory.keys, Write.keys, List.map_append, List.append_assoc]
    exact .refl _
  | insertApplication row | insertAudit row => exact .of_eq (List.append_nil _).symm

theorem ids_apply (w : Write) (d : Directory) : (w.apply d).ids.Perm (d.ids ++ w.ids) := by
  cases w with
  | insertUser row =>
    simp only [Write.apply, Directory.ids, Write.ids, List.map_append, List.append_assoc]
    refine .append_left _ (List.perm_append_comm.trans (.of_eq ?_))
    simp only [List.append_assoc, List.map_cons, List.map_nil]
  | insertCustomer row =>
    simp only [Write.apply, Directory.ids, Write.ids, List.map_append, List.append_assoc]
    refine .append_left _ (.append_left _ (List.perm_append_comm.trans (.of_eq ?_)))
    simp only [List.append_assoc, List.map_cons, List.map_nil]
  | insertApplication row =>
    simp only [Write.apply, Directory.ids, Write.ids, List.map_append, List.append_assoc]
    exact .append_left _ (.append_left _ (.append_left _ List.perm_append_comm))
  | insertSession row =>
    simp only [Write.apply, Directory.ids, Write.ids, List.map_append, List.append_assoc]
    exact .refl _
  | insertAudit row => exact .of_eq (List.append_nil _).symm

theorem mem_keys_apply {k : Key} {w : Write} :
    k ∈ (w.apply d).keys lib ↔ k ∈ d.keys lib ∨ k ∈ w.keys lib := by
  rw [(keys_apply w d).mem_iff, List.mem_append]

theorem mem_ids_apply {n : ℕ} {w : Write} : n ∈ (w.apply d).ids ↔ n ∈ d.ids ∨ n ∈ w.ids := by
  rw [(ids_apply w d).mem_iff, List.mem_append]

/-- Revoking a session changes no key and no id. -/
theorem keys_revokeSession (h : String) (d : Directory) :
    (d.revokeSession h).keys lib = d.keys lib := by
  simp only [Directory.keys, Directory.revokeSession, updateWhere, List.map_map]
  congr 1
  refine List.map_congr_left fun s _ => ?_
  simp only [Function.comp_apply]
  split <;> rfl

theorem ids_revokeSession (h : String) (d : Directory) : (d.revokeSession h).ids = d.ids := by
  simp only [Directory.ids, Directory.revokeSession, updateWhere, List.map_map]
  congr 1
  refine List.map_congr_left fun s _ => ?_
  simp only [Function.comp_apply]
  split <;> rfl

/-! ### The schema -/

/-- What the schema guarantees. -/
structure Wf (lib : Library) (d : Directory) : Prop where
  keys : (d.keys lib).Nodup
  ids : d.ids.Nodup
  below : ∀ n ∈ d.ids, n < d.nextId
  owners : ∀ c ∈ d.customers, ∃ u ∈ d.users, u.id = c.primaryUserId
  holders : ∀ s ∈ d.sessions, ∃ u ∈ d.users, u.id = s.userId

/-- The statement may be carried out by a call that holds the locks and has drawn the ids. -/
structure Write.Valid (lib : Library) (ℓ : List Key) (ids : List ℕ) (d : Directory) (w : Write) :
    Prop where
  keys : ∀ k ∈ w.keys lib, k ∈ ℓ ∧ k ∉ d.keys lib
  ids : ∀ n ∈ w.ids, n ∈ ids ∧ n ∉ d.ids ∧ n < d.nextId
  refers : w.Refers d

/-- So may statements one after another. -/
def Valid (lib : Library) (ℓ : List Key) (ids : List ℕ) : Directory → List Write → Prop
  | _, [] => True
  | d, w :: ws => w.Valid lib ℓ ids d ∧ Valid lib ℓ ids (w.apply d) ws

theorem nextId_apply (w : Write) (d : Directory) : (w.apply d).nextId = d.nextId := by
  cases w <;> rfl

theorem clock_apply (w : Write) (d : Directory) : (w.apply d).clock = d.clock := by cases w <;> rfl

theorem nodup_writeKeys (w : Write) : (w.keys lib).Nodup := by
  cases w with
  | insertUser row =>
    cases h : row.key lib <;> simp [Write.keys, h]
  | _ => simp [Write.keys]

theorem nodup_writeIds (w : Write) : w.ids.Nodup := by
  cases w <;> simp [Write.ids]

theorem Wf.apply {ℓ : List Key} {ids : List ℕ} {w : Write} (h : Wf lib d)
    (hw : w.Valid lib ℓ ids d) : Wf lib (w.apply d) where
  keys := by
    rw [(keys_apply w d).nodup_iff, List.nodup_append]
    refine ⟨h.keys, nodup_writeKeys w, fun k hk k' hk' he => ?_⟩
    exact (hw.keys k' hk').2 (he ▸ hk)
  ids := by
    rw [(ids_apply w d).nodup_iff, List.nodup_append]
    refine ⟨h.ids, nodup_writeIds w, fun n hn n' hn' he => ?_⟩
    exact (hw.ids n' hn').2.1 (he ▸ hn)
  below n hn := by
    rw [nextId_apply]
    rcases mem_ids_apply.1 hn with hn | hn
    · exact h.below n hn
    · exact (hw.ids n hn).2.2
  owners c hc := by
    have hold : ∀ u ∈ d.users, u ∈ (w.apply d).users := fun u hu => by
      cases w <;> simp [Write.apply, hu]
    have hc' : c ∈ d.customers ∨ w = .insertCustomer c := by
      cases w with
      | insertCustomer row =>
        rcases List.mem_append.1 hc with hc | hc
        · exact .inl hc
        · exact .inr (List.mem_singleton.1 hc ▸ rfl)
      | _ => exact .inl hc
    rcases hc' with hc' | rfl
    · obtain ⟨u, hu, he⟩ := h.owners c hc'
      exact ⟨u, hold u hu, he⟩
    · exact hw.refers
  holders s hs := by
    have hold : ∀ u ∈ d.users, u ∈ (w.apply d).users := fun u hu => by
      cases w <;> simp [Write.apply, hu]
    have hs' : s ∈ d.sessions ∨ w = .insertSession s := by
      cases w with
      | insertSession row =>
        rcases List.mem_append.1 hs with hs | hs
        · exact .inl hs
        · exact .inr (List.mem_singleton.1 hs ▸ rfl)
      | _ => exact .inl hs
    rcases hs' with hs' | rfl
    · obtain ⟨u, hu, he⟩ := h.holders s hs'
      exact ⟨u, hold u hu, he⟩
    · exact hw.refers

theorem Wf.applyAll {ℓ : List Key} {ids : List ℕ} {ws : List Write} (h : Wf lib d)
    (hv : Valid lib ℓ ids d ws) : Wf lib (applyAll ws d) := by
  induction ws generalizing d with
  | nil => exact h
  | cons w ws ih => exact ih (h.apply hv.1) hv.2

theorem mem_revokeSession {h : String} {s : SessionRow} (hs : s ∈ (d.revokeSession h).sessions) :
    ∃ s₀ ∈ d.sessions, s = s₀ ∨ s = s₀.revoke d.clock ∧ s₀.tokenHash = h := by
  obtain ⟨s₀, hs₀, rfl⟩ := List.mem_map.1 hs
  refine ⟨s₀, hs₀, ?_⟩
  split
  case isTrue hm =>
    simp only [Bool.and_eq_true, decide_eq_true_eq] at hm
    exact .inr ⟨rfl, hm.1⟩
  case isFalse => exact .inl rfl

theorem Wf.revokeSession (h : Wf lib d) (hash : String) : Wf lib (d.revokeSession hash) where
  keys := keys_revokeSession hash d ▸ h.keys
  ids := ids_revokeSession hash d ▸ h.ids
  below n hn := h.below n (ids_revokeSession hash d ▸ hn)
  owners := h.owners
  holders s hs := by
    obtain ⟨s₀, hs₀, rfl | ⟨rfl, -⟩⟩ := mem_revokeSession hs
    · exact h.holders s hs₀
    · exact h.holders s₀ hs₀

theorem Wf.bump (h : Wf lib d) : Wf lib (bump d) :=
  { h with below := fun n hn => Nat.lt_succ_of_lt (h.below n hn) }

/-! ### What lasts -/

/-- A session stays, but for its revocation. -/
structure SessionRow.Stays (s s' : SessionRow) : Prop where
  eq : s' = { s with revokedAt := s'.revokedAt }
  revoked : s.revokedAt.isSome → s'.revokedAt.isSome

theorem SessionRow.Stays.refl (s : SessionRow) : s.Stays s := ⟨rfl, fun h => h⟩

theorem SessionRow.Stays.trans {s₁ s₂ s₃ : SessionRow} (h : s₁.Stays s₂) (h' : s₂.Stays s₃) :
    s₁.Stays s₃ := by
  refine ⟨?_, fun hs => h'.revoked (h.revoked hs)⟩
  rw [h'.eq, h.eq]

/-- `d'` is a later state than `d`. -/
structure Later (d d' : Directory) : Prop where
  users : d.users <+: d'.users
  customers : d.customers <+: d'.customers
  sessions : ∀ s ∈ d.sessions, ∃ s' ∈ d'.sessions, s.Stays s'
  clock : d.clock ≤ d'.clock

theorem Later.refl (d : Directory) : Later d d :=
  ⟨List.prefix_refl _, List.prefix_refl _, fun s hs => ⟨s, hs, .refl s⟩, le_rfl⟩

theorem Later.trans (h : Later d d') (h' : Later d' d'') : Later d d'' where
  users := h.users.trans h'.users
  customers := h.customers.trans h'.customers
  sessions s hs := by
    obtain ⟨s', hs', hstays⟩ := h.sessions s hs
    obtain ⟨s'', hs'', hstays'⟩ := h'.sessions s' hs'
    exact ⟨s'', hs'', hstays.trans hstays'⟩
  clock := h.clock.trans h'.clock

theorem later_bump (d : Directory) : Later d (bump d) := { Later.refl d with }

theorem later_apply (w : Write) (d : Directory) : Later d (w.apply d) := by
  cases w with
  | insertUser row => exact { Later.refl d with users := List.prefix_append .. }
  | insertCustomer row => exact { Later.refl d with customers := List.prefix_append .. }
  | insertSession row =>
    exact { Later.refl d with sessions := fun s hs => ⟨s, List.mem_append_left _ hs, .refl s⟩ }
  | insertApplication row | insertAudit row => exact { Later.refl d with }

theorem later_applyAll (ws : List Write) (d : Directory) : Later d (applyAll ws d) := by
  induction ws generalizing d with
  | nil => exact .refl d
  | cons w ws ih => exact (later_apply w d).trans (ih _)

theorem later_revokeSession (h : String) (d : Directory) : Later d (d.revokeSession h) := by
  refine { Later.refl d with sessions := fun s hs => ⟨_, List.mem_map_of_mem hs, ?_⟩ }
  split
  · exact ⟨rfl, fun _ => rfl⟩
  · exact .refl s

/-- A user and its customer stay what they are. -/
theorem Later.context (h : Later d d') {id : Uuid} {x : UserRow × CustomerRow}
    (hx : d.context id = some x) : d'.context id = some x := by
  obtain ⟨u, hu, hmap⟩ := Option.bind_eq_some_iff.1 hx
  obtain ⟨c, hc, rfl⟩ := Option.map_eq_some_iff.1 hmap
  rw [Directory.context, h.users.find?_eq_some hu, Option.bind_some,
    h.customers.find?_eq_some hc]
  rfl

theorem Later.userByEmail (h : Later d d') {email : String} {u : UserRow}
    (hu : d.userByEmail lib email = some u) : d'.userByEmail lib email = some u :=
  h.users.find?_eq_some hu

end Kimana.Auth
