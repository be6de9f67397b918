import Kimana.Ledger.Running
import Kimana.Op.Piece
import Kimana.ReadCommitted.Never

/-!
# The first use of an account

`getOrCreateAccountByCode` reads, and inserts the account when the read found none.  The insert
waits for a transaction that has inserted the same account, and fails when that one commits.

* `Opens`, `opens_prog` : an operation inserts the account only where it has looked for it.
* `Placed`, `placed_of_reach` : what a call knows of the account where it stands.
* `found_of_step` : **every search for the account finds the one that ends up stored**, as long as
  no call commits its insert while another stands at its own.
* `insert_lost` : two payments, the second of which commits while the first stands there.
-/

namespace Kimana

open ReadCommitted Ledger

/-! ### The search as a program -/

section Search

variable {E E' A B : Type} (c : Uuid) (cur : LedgerCurrency)

/-- The insert goes through: a row id is drawn, and the row written. -/
def drawing (g : Uuid → Prog World Write Key Label E A) : Prog World Write Key Label E A :=
  .fresh fun n => .write (.insertAccount ⟨n, c, cur⟩) (g n)

/-- The insert looks whether the account is there; if so it fails, and `q` is what is left. -/
def checking (q : Prog World Write Key Label E A) (g : Uuid → Prog World Write Key Label E A) :
    Prog World Write Key Label E A :=
  .read fun d => if (d.accountOf c cur).isSome then q else drawing c cur g

/-- The insert waits for whoever has inserted the account. -/
def inserting (q : Prog World Write Key Label E A) (g : Uuid → Prog World Write Key Label E A) :
    Prog World Write Key Label E A :=
  .lock (.accountKey c cur) fun _ _ => checking c cur q g

/-- The search for an account, with what follows it. -/
def finding (q : Prog World Write Key Label E A) (g : Uuid → Prog World Write Key Label E A) :
    Prog World Write Key Label E A :=
  .read fun d =>
    match d.accountOf c cur with
    | some id => g id
    | none => inserting c cur q g

variable {c cur} {q : Prog World Write Key Label E B} {g : Uuid → Prog World Write Key Label E B}

theorem read_eq_finding {f : World → Prog World Write Key Label E B}
    (hsome : ∀ d id, d.accountOf c cur = some id → f d = g id)
    (hnone : ∀ d, d.accountOf c cur = none → f d = inserting c cur q g) :
    Prog.read f = finding c cur q g := by
  refine congrArg Prog.read (funext fun d => ?_)
  cases hd : d.accountOf c cur with
  | some id => exact hsome d id hd
  | none => exact hnone d hd

theorem lock_eq_inserting {f : World → Prog World Write Key Label E B}
    (hf : ∀ d, f d = if (d.accountOf c cur).isSome then q else drawing c cur g) :
    (Prog.lock (.accountKey c cur) fun _ _ => .read f) = inserting c cur q g :=
  congrArg (Prog.lock _) (funext fun _ => funext fun _ => congrArg Prog.read (funext hf))

theorem finding_bind (k : B → Prog World Write Key Label E A) :
    (finding c cur q g).bind k = finding c cur (q.bind k) fun id => (g id).bind k :=
  read_eq_finding (fun d id hd => by simp only [hd]) fun d hd => by
    simp only [hd]
    exact lock_eq_inserting fun d => apply_ite (Prog.bind · k) ..

theorem finding_mapError (e : E → E') :
    (finding c cur q g).mapError e = finding c cur (q.mapError e) fun id => (g id).mapError e :=
  read_eq_finding (fun d id hd => by simp only [hd]) fun d hd => by
    simp only [hd]
    exact lock_eq_inserting fun d => apply_ite (Prog.mapError e) ..

theorem finding_tryCatch (k : E → Prog World Write Key Label E B) :
    (finding c cur q g).tryCatch k = finding c cur (q.tryCatch k) fun id => (g id).tryCatch k :=
  read_eq_finding (fun d id hd => by simp only [hd]) fun d hd => by
    simp only [hd]
    exact lock_eq_inserting fun d => apply_ite (Prog.tryCatch · k) ..

theorem getOrCreateAccountByCode_eq :
    getOrCreateAccountByCode c cur = finding c cur (.fail .serverError) .ret := by
  simp only [getOrCreateAccountByCode, Tx.read, Prog.bind_eq, Prog.pure_eq, Prog.bind]
  refine read_eq_finding (fun d id hd => by simp only [hd]) fun d hd => ?_
  simp only [hd]
  exact lock_eq_inserting fun _ => rfl

end Search

/-! ### Operations -/

/-- The program inserts the account, and locks its key, only where it has looked for it and not
found it. -/
inductive Opens (c : Uuid) (cur : LedgerCurrency) {E A : Type} :
    Prog World Write Key Label E A → Prop
  | ret (a : A) : Opens c cur (.ret a)
  | fail (e : E) : Opens c cur (.fail e)
  | fresh {f : ℕ → Prog World Write Key Label E A} (h : ∀ n, Opens c cur (f n)) :
    Opens c cur (.fresh f)
  | query {f : World → Prog World Write Key Label E A} (h : ∀ d, Opens c cur (f d)) :
    Opens c cur (.query f)
  | read {f : World → Prog World Write Key Label E A} (h : ∀ d, Opens c cur (f d)) :
    Opens c cur (.read f)
  | write {w : Write} {p : Prog World Write Key Label E A}
    (hw : ∀ a, w.account = some a → ¬(a.customerId = c ∧ a.currency = cur)) (h : Opens c cur p) :
    Opens c cur (.write w p)
  | lock {k : Key} {f : World → World → Prog World Write Key Label E A}
    (hk : k ≠ .accountKey c cur) (h : ∀ d d', Opens c cur (f d d')) : Opens c cur (.lock k f)
  | commit {p : Prog World Write Key Label E A} (h : Opens c cur p) : Opens c cur (.commit p)
  | rollback {p : Prog World Write Key Label E A} (h : Opens c cur p) : Opens c cur (.rollback p)
  | mark {l : Label → Label} {p : Prog World Write Key Label E A} (h : Opens c cur p) :
    Opens c cur (.mark l p)
  | finding {q : Prog World Write Key Label E A} {g : Uuid → Prog World Write Key Label E A}
    (h : ∀ id, Opens c cur (g id)) : Opens c cur (finding c cur q g)

namespace Opens

variable {c : Uuid} {cur : LedgerCurrency} {E E' A B : Type}

theorem bind {p : Prog World Write Key Label E B} {g : B → Prog World Write Key Label E A}
    (hp : Opens c cur p) (hg : ∀ b, Opens c cur (g b)) : Opens c cur (p.bind g) := by
  induction hp with
  | ret b => exact hg b
  | fail e => exact .fail e
  | fresh _ ih => exact .fresh ih
  | query _ ih => exact .query ih
  | read _ ih => exact .read ih
  | write hw _ ih => exact .write hw ih
  | lock hk _ ih => exact .lock hk ih
  | commit _ ih => exact .commit ih
  | rollback _ ih => exact .rollback ih
  | mark _ ih => exact .mark ih
  | finding _ ih =>
    rw [finding_bind]
    exact .finding ih

theorem mapError {e : E → E'} {p : Prog World Write Key Label E A} (hp : Opens c cur p) :
    Opens c cur (p.mapError e) := by
  induction hp with
  | ret a => exact .ret a
  | fail x => exact .fail _
  | fresh _ ih => exact .fresh ih
  | query _ ih => exact .query ih
  | read _ ih => exact .read ih
  | write hw _ ih => exact .write hw ih
  | lock hk _ ih => exact .lock hk ih
  | commit _ ih => exact .commit ih
  | rollback _ ih => exact .rollback ih
  | mark _ ih => exact .mark ih
  | finding _ ih =>
    rw [finding_mapError]
    exact .finding ih

theorem tryCatch {p : Prog World Write Key Label E A} {g : E → Prog World Write Key Label E A}
    (hp : Opens c cur p) (hg : ∀ e, Opens c cur (g e)) : Opens c cur (p.tryCatch g) := by
  induction hp with
  | ret a => exact .ret a
  | fail e => exact .rollback (hg e)
  | fresh _ ih => exact .fresh ih
  | query _ ih => exact .query ih
  | read _ ih => exact .read ih
  | write hw _ ih => exact .write hw ih
  | lock hk _ ih => exact .lock hk ih
  | commit _ ih => exact .commit ih
  | rollback _ ih => exact .rollback ih
  | mark _ ih => exact .mark ih
  | finding _ ih =>
    rw [finding_tryCatch]
    exact .finding ih

/-- The search for another account. -/
theorem other {c' : Uuid} {cur' : LedgerCurrency} (hne : ¬(c' = c ∧ cur' = cur)) :
    Opens c cur (getOrCreateAccountByCode c' cur') := by
  refine .read fun d => ?_
  simp only [Prog.bind]
  split
  · exact .ret _
  · refine .lock (fun h => ?_) fun _ _ => .read fun d => ?_
    · cases h
      exact hne ⟨rfl, rfl⟩
    · simp only [Prog.bind]
      split
      · exact .fail _
      · exact .fresh fun n => .write (fun a ha => by cases ha; exact hne) (.ret n)

end Opens

/-- So does every operation. -/
theorem opens_prog (c : Uuid) (cur : LedgerCurrency) (op : Op) : Opens c cur op.prog :=
  Pieces.prog (G := fun _ _ p => Opens c cur p)
    { ret := .ret
      fail := .fail
      fresh := .fresh
      query := .query
      read := .read
      write := fun hw => .write fun a ha => by rw [hw] at ha; cases ha
      lock := fun hk => .lock fun h => by rw [h] at hk; cases hk
      commit := .commit
      rollback := .rollback
      mark := .mark
      bind := .bind
      mapError := .mapError
      tryCatch := .tryCatch
      account := fun c' cur' => by
        by_cases h : c' = c ∧ cur' = cur
        · obtain ⟨rfl, rfl⟩ := h
          rw [getOrCreateAccountByCode_eq]
          exact .finding .ret
        · exact .other h } op

/-! ### Where a call stands -/

section Calls

variable (c : Uuid) (cur : LedgerCurrency)

/-- The accounts of the customer in the currency. -/
def accountsOf (d : World) : List AccountRow :=
  d.accounts.filter fun a => a.customerId = c && a.currency = cur

/-- Those that writes insert. -/
def inserted (ws : List Write) : List AccountRow :=
  (ws.filterMap Write.account).filter fun a => a.customerId = c && a.currency = cur

/-- A call stands at the insert of the account, which it has not found. -/
def awaits {E A : Type} : Call World Write Key Label E A → Bool
  | .run (.lock k _) _ _ => k = .accountKey c cur
  | _ => false

/-- A call is about to commit its insert of the account. -/
def publishes {E A : Type} : Call World Write Key Label E A → Bool
  | .run (.commit _) loc _ => inserted c cur loc.pending ≠ []
  | _ => false

/-- What a call has of the account: it has the key if it has inserted it, and then nobody else
has. -/
structure Own (d : World) (loc : Loc) : Prop where
  locked : inserted c cur loc.pending ≠ [] → .accountKey c cur ∈ loc.locks
  absent : .accountKey c cur ∈ loc.locks → accountsOf c cur d = []

/-- Where a call stands: apart from a search, or in one, where it knows that the account is
absent. -/
inductive At (d : World) {E A : Type} : Prog World Write Key Label E A → Loc → Prop
  | apart {p loc} (h : Opens c cur p) : At d p loc
  | inserts {q g loc} (hg : ∀ id, Opens c cur (g id)) (hd : accountsOf c cur d = [])
    (hp : inserted c cur loc.pending = []) : At d (inserting c cur q g) loc
  | checks {q g loc} (hg : ∀ id, Opens c cur (g id)) (hk : .accountKey c cur ∈ loc.locks)
    (hp : inserted c cur loc.pending = []) : At d (checking c cur q g) loc
  | draws {g loc} (hg : ∀ id, Opens c cur (g id)) (hk : .accountKey c cur ∈ loc.locks)
    (hp : inserted c cur loc.pending = []) : At d (drawing c cur g) loc

/-- A running call is where it should be. -/
def Placed (d : World) {E A : Type} : Call World Write Key Label E A → Prop
  | .run p loc _ => At c cur d p loc ∧ Own c cur d loc
  | _ => True

/-- What is left of a search that goes on with `g`. -/
inductive Seeks {E A : Type} (g : Uuid → Prog World Write Key Label E A) :
    Prog World Write Key Label E A → Prop
  | finds (q : Prog World Write Key Label E A) : Seeks g (finding c cur q g)
  | inserts (q : Prog World Write Key Label E A) : Seeks g (inserting c cur q g)
  | checks (q : Prog World Write Key Label E A) : Seeks g (checking c cur q g)
  | draws : Seeks g (drawing c cur g)

/-- A call is in a search that goes on with `g`. -/
def Seeking {E A : Type} (g : Uuid → Prog World Write Key Label E A)
    (x : Call World Write Key Label E A) : Prop :=
  ∃ p loc w, x = .run p loc w ∧ Seeks c cur g p

variable {c cur} {d : World} {E A : Type}

theorem accountOf_eq_none : d.accountOf c cur = none ↔ accountsOf c cur d = [] := by
  rw [World.accountOf, Option.map_eq_none_iff, List.find?_eq_none, accountsOf,
    List.filter_eq_nil_iff]

theorem accountsOf_applyAll (ws : List Write) :
    accountsOf c cur (applyAll ws d) = accountsOf c cur d ++ inserted c cur ws := by
  rw [accountsOf, accounts_applyAll, List.filter_append]
  rfl

theorem mem_accountsOf {a : AccountRow} :
    a ∈ accountsOf c cur d ↔ a ∈ d.accounts ∧ a.customerId = c ∧ a.currency = cur := by
  simp [accountsOf]

theorem inserted_append (ws vs : List Write) :
    inserted c cur (ws ++ vs) = inserted c cur ws ++ inserted c cur vs := by
  rw [inserted, List.filterMap_append, List.filter_append]
  rfl

/-- A write of something else. -/
theorem inserted_of_other {w : Write}
    (hw : ∀ a, w.account = some a → ¬(a.customerId = c ∧ a.currency = cur)) :
    inserted c cur [w] = [] := by
  cases ha : w.account with
  | none => simp [inserted, ha]
  | some a =>
    simpa [inserted, ha] using hw a ha

variable {p : Prog World Write Key Label E A} {loc : Loc}

theorem Own.other (h : Own c cur d loc) {w : Write}
    (hw : ∀ a, w.account = some a → ¬(a.customerId = c ∧ a.currency = cur)) :
    Own c cur d (loc.wrote w) := by
  refine ⟨fun hne => h.locked ?_, h.absent⟩
  rwa [Local.wrote_pending, inserted_append, inserted_of_other hw, List.append_nil] at hne

theorem Own.ended : Own c cur d loc.ended := ⟨fun h => absurd rfl h, fun h => by cases h⟩

theorem Own.hold (h : Own c cur d loc) {k : Key} (hk : k ≠ .accountKey c cur) :
    Own c cur d (loc.hold k) := by
  refine ⟨fun hne => List.mem_cons_of_mem _ (h.locked hne), fun hm => h.absent ?_⟩
  rcases List.mem_cons.1 hm with hm | hm
  · exact absurd hm.symm hk
  · exact hm

theorem placed_settle (hp : Opens c cur p) (h : Own c cur d loc) :
    Placed c cur d (Call.settle p loc) := by
  induction p generalizing loc with
  | ret a | fail e => trivial
  | mark l p ih =>
    cases hp with
    | mark hp => exact @ih (loc.at' (l loc.label)) hp ⟨h.locked, h.absent⟩
  | write w p ih =>
    cases hp with
    | write hw hp => exact @ih (loc.wrote w) hp (h.other hw)
  | _ => exact ⟨.apart hp, h⟩

theorem accountOf_view (h : Own c cur d loc) (hk : .accountKey c cur ∈ loc.locks)
    (hp : inserted c cur loc.pending = []) : (applyAll loc.pending d).accountOf c cur = none := by
  rw [accountOf_eq_none, accountsOf_applyAll, h.absent hk, hp]
  rfl

/-- A call that takes a step is where it should be, and brings no account unless it publishes its
insert, under the key. -/
theorem placed_next {free : Key → Bool} {x x' : Call World Write Key Label E A} {d' : World}
    (h : Placed c cur d x) (hn : x.next free d = some (d', x')) :
    Placed c cur d' x' ∧ (accountsOf c cur d' = accountsOf c cur d ∨
      publishes c cur x = true ∧ .accountKey c cur ∈ x.locks) := by
  match x with
  | .done r made => cases hn
  | .crashed made => cases hn
  | .run p loc w =>
    obtain ⟨hat, hown⟩ := h
    cases hat with
    | apart hp =>
      cases hp with
      | ret | fail | write | mark => cases w <;> cases hn
      | fresh hp =>
        cases w <;> cases hn <;>
          exact ⟨placed_settle (hp _) ⟨hown.locked, hown.absent⟩, .inl rfl⟩
      | query hp | read hp => cases w <;> cases hn <;> exact ⟨placed_settle (hp _) hown, .inl rfl⟩
      | rollback hp => cases w <;> cases hn <;> exact ⟨placed_settle hp .ended, .inl rfl⟩
      | commit hp =>
        -- The commit brings an account exactly when an insert of one is pending.
        have hd : accountsOf c cur (applyAll loc.pending d) = accountsOf c cur d ∨
            inserted c cur loc.pending ≠ [] := by
          rw [accountsOf_applyAll]
          by_cases hi : inserted c cur loc.pending = []
          · exact .inl (by rw [hi, List.append_nil])
          · exact .inr hi
        cases w <;> cases hn <;>
          exact ⟨placed_settle hp ⟨fun h => absurd rfl h, fun h => by cases h⟩,
            hd.imp id fun hi => ⟨decide_eq_true hi, hown.locked hi⟩⟩
      | lock hk hp =>
        cases w with
        | none => cases hn; exact ⟨⟨.apart (.lock hk hp), hown⟩, .inl rfl⟩
        | some snap =>
          simp only [Call.next] at hn
          split at hn <;> cases hn
          exact ⟨placed_settle (hp _ _) (hown.hold hk), .inl rfl⟩
      | @finding q g hp =>
        -- An account was found and is used, or none was and the insert begins.
        have hnext : Placed c cur d (.settle (match (applyAll loc.pending d).accountOf c cur with
            | some id => g id
            | none => inserting c cur q g) loc) := by
          cases hacc : (applyAll loc.pending d).accountOf c cur with
          | some id => exact placed_settle (hp id) hown
          | none =>
            rw [accountOf_eq_none, accountsOf_applyAll, List.append_eq_nil_iff] at hacc
            exact ⟨.inserts hp hacc.1 hacc.2, hown⟩
        cases w <;> cases hn <;> exact ⟨hnext, .inl rfl⟩
    | inserts hg hd hp =>
      cases w with
      | none => cases hn; exact ⟨⟨.inserts hg hd hp, hown⟩, .inl rfl⟩
      | some snap =>
        simp only [inserting, Call.next] at hn
        split at hn <;> cases hn
        exact ⟨⟨.checks hg List.mem_cons_self hp, fun _ => List.mem_cons_self, fun _ => hd⟩,
          .inl rfl⟩
    | @checks q g _ hg hk hp =>
      have hnext : Placed c cur d
        (.settle (if ((applyAll loc.pending d).accountOf c cur).isSome then q
          else drawing c cur g) loc) := by
        -- Under the key nobody else has brought one, so the second look finds none.
        rw [accountOf_view hown hk hp]
        exact ⟨.draws hg hk hp, hown⟩
      cases w <;> cases hn <;> exact ⟨hnext, .inl rfl⟩
    | @draws g _ hg hk hp =>
      have hnext : Placed c cur (bump d) (.settle (g (seq d))
          ((loc.draw (seq d)).wrote (.insertAccount ⟨seq d, c, cur⟩))) :=
        placed_settle (hg _) ⟨fun _ => hk, hown.absent⟩
      cases w <;> cases hn <;> exact ⟨hnext, .inl rfl⟩

/-- A call stays where it should be if the others bring no account, or it neither has the key nor
stands at the insert. -/
theorem Placed.others {x : Call World Write Key Label E A} (h : Placed c cur d x) {d' : World}
    (hd : accountsOf c cur d' = accountsOf c cur d ∨
      .accountKey c cur ∉ x.locks ∧ awaits c cur x = false) : Placed c cur d' x := by
  match x with
  | .done r made => trivial
  | .crashed made => trivial
  | .run p loc w =>
    obtain ⟨hat, hown⟩ := h
    rcases hd with he | ⟨hk, ha⟩
    · refine ⟨?_, hown.locked, fun hk => he ▸ hown.absent hk⟩
      cases hat with
      | apart hp => exact .apart hp
      | inserts hg hd hp => exact .inserts hg (he ▸ hd) hp
      | checks hg hk hp => exact .checks hg hk hp
      | draws hg hk hp => exact .draws hg hk hp
    · refine ⟨?_, hown.locked, fun h => absurd h hk⟩
      cases hat with
      | apart hp => exact .apart hp
      | inserts hg hd hp => simp [awaits, inserting] at ha
      | checks hg h hp => exact absurd h hk
      | draws hg h hp => exact absurd h hk

/-- A call that stands at the check of its insert has the key. -/
theorem At.of_checking {q : Prog World Write Key Label E A}
    {g : Uuid → Prog World Write Key Label E A} (h : At c cur d (checking c cur q g) loc) :
    .accountKey c cur ∈ loc.locks ∧ inserted c cur loc.pending = [] := by
  generalize hp : checking c cur q g = p at h
  cases h with
  | checks hg hk hpend => exact ⟨hk, hpend⟩
  | inserts | draws => cases hp
  | apart h =>
    -- With no account there the check goes on to the insert, which is no other statement.
    have hempty : checking c cur q g = .read fun d =>
      if (d.accountOf c cur).isSome then q else drawing c cur g := rfl
    cases h with
    | read h =>
      obtain rfl := Prog.read.inj hp
      cases h {} with
      | fresh h =>
        cases h 0 with
        | write hw => exact absurd ⟨rfl, rfl⟩ (hw _ rfl)
    | finding h => cases congrFun (Prog.read.inj hp) {}
    | _ => cases hp

/-- A search goes on, or finds an account that is stored or that the call has inserted. -/
theorem seeks_next {g : Uuid → Prog World Write Key Label E A} {free : Key → Bool}
    {w : Option World} {x' : Call World Write Key Label E A} {d' : World} (h : Placed c cur d (.run p loc w))
    (hs : Seeks c cur g p) (hn : (Call.run p loc w).next free d = some (d', x')) :
    Seeking c cur g x' ∨ ∃ id loc', x' = .settle (g id) loc' ∧
      (⟨id, c, cur⟩ ∈ d'.accounts ∨ .insertAccount ⟨id, c, cur⟩ ∈ loc'.pending) := by
  cases hs with
  | finds q =>
    have hnext : Seeking c cur g (.settle (match (applyAll loc.pending d).accountOf c cur with
        | some id => g id
        | none => inserting c cur q g) loc) ∨
        ∃ id loc', Call.settle (match (applyAll loc.pending d).accountOf c cur with
          | some id => g id
          | none => inserting c cur q g) loc = .settle (g id) loc' ∧
          (⟨id, c, cur⟩ ∈ d.accounts ∨ .insertAccount ⟨id, c, cur⟩ ∈ loc'.pending) := by
      cases hacc : (applyAll loc.pending d).accountOf c cur with
      | none => exact .inl ⟨_, loc, none, rfl, .inserts q⟩
      | some id =>
        -- What the transaction sees is stored, or among its own writes.
        refine .inr ⟨id, loc, rfl, ?_⟩
        have hm := World.accountOf_mem hacc
        rw [accounts_applyAll, List.mem_append, List.mem_filterMap] at hm
        refine hm.imp (fun hm => hm) fun hm => ?_
        obtain ⟨v, hv, ha⟩ := hm
        cases v <;> cases ha
        exact hv
    cases w <;> cases hn <;> exact hnext
  | inserts q =>
    cases w with
    | none => cases hn; exact .inl ⟨_, loc, _, rfl, .inserts q⟩
    | some snap =>
      simp only [inserting, Call.next] at hn
      split at hn <;> cases hn
      exact .inl ⟨_, _, none, rfl, .checks q⟩
  | checks q =>
    obtain ⟨hk, hp⟩ := h.1.of_checking
    have hnext : Seeking c cur g
      (.settle (if ((applyAll loc.pending d).accountOf c cur).isSome then q
        else drawing c cur g) loc) := by
      rw [accountOf_view h.2 hk hp]
      exact ⟨_, loc, none, rfl, .draws⟩
    cases w <;> cases hn <;> exact .inl hnext
  | draws =>
    cases w <;> cases hn <;>
      exact .inr ⟨_, _, rfl, .inr (List.mem_append_right _ List.mem_cons_self)⟩

end Calls

/-! ### Runs -/

section Runs

variable {ι : Type} [DecidableEq ι] (c : Uuid) (cur : LedgerCurrency)

/-- No call publishes its insert of the account while another one stands at its own. -/
def Unraced (e : Event ι) (s : Sys ι World Write Key Label Failure Answer) : Prop :=
  match e with
  | .go i => publishes c cur (s.calls i) = true → ∀ j, j ≠ i → awaits c cur (s.calls j) = false
  | _ => True

instance {n : ℕ} (e : Event (Fin n)) (s : Sys (Fin n) World Write Key Label Failure Answer) :
    Decidable (Unraced c cur e s) :=
  match e with
  | .go _ => inferInstanceAs (Decidable (_ → _))
  | .crash _ | .env => inferInstanceAs (Decidable True)

/-- A step that is not raced. -/
def Careful (e : Event ι) (s s' : Sys ι World Write Key Label Failure Answer) : Prop :=
  Step Env e s s' ∧ Unraced c cur e s

/-- In this step call `i` gives up its transaction: it crashes, rolls back or ends without a
commit. -/
def Drops (i : ι) (e : Event ι) (s s' : Sys ι World Write Key Label Failure Answer) : Prop :=
  e = .crash i ∨ e = .go i ∧
    ((s.calls i).rollsBack = true ∨ (s.calls i).commits = false ∧ (s'.calls i).ended = true)

/-- The account is the one that ends up stored: it is stored, or else call `i` has inserted it in
its open transaction, and no other is stored. -/
structure EndsStored (i : ι) (id : Uuid)
    (s : Sys ι World Write Key Label Failure Answer) : Prop where
  row : ⟨id, c, cur⟩ ∈ s.shared.accounts ∨ .insertAccount ⟨id, c, cur⟩ ∈ (s.calls i).pending
  only : ∀ a ∈ s.shared.accounts, a.customerId = c → a.currency = cur → a.id = id

variable {c cur} {ops : ι → Op} {d₀ : World} {s s' : Sys ι World Write Key Label Failure Answer}

theorem placed_of_reach (hwf : Wf d₀) (hr : Reach (Careful c cur) (system ops d₀) s) (i : ι) :
    Placed c cur s.shared (s.calls i) := by
  refine hr.invariant (I := fun s => ∀ i, Placed c cur s.shared (s.calls i))
    (fun i => placed_settle (opens_prog c cur (ops i))
      ⟨fun h => absurd rfl h, fun h => by cases h⟩) ?_ i
  rintro s e s' hs hi ⟨hst, hun⟩
  have hlocks := (sysOk_of_reach lax_anyChange granted_noAssumption hwf
    (hs.mono fun _ _ _ h => stepIf_of_step h.1)).locks
  cases e with
  | env =>
    obtain ⟨d, he, rfl⟩ := hst
    exact fun i => (hi i).others (.inl (by cases he <;> rfl))
  | crash j =>
    obtain ⟨p, loc, w, hj, rfl⟩ := hst
    intro i
    by_cases hij : i = j
    · subst hij
      simp [Placed]
    · simpa only [Function.update_of_ne hij] using hi i
  | go j =>
    obtain ⟨free, -, d, x, hn, rfl⟩ := hst
    obtain ⟨hx, hd⟩ := placed_next (hi j) hn
    intro i
    by_cases hij : i = j
    · subst hij
      simpa using hx
    · simp only [Function.update_of_ne hij]
      exact (hi i).others (hd.imp id fun h =>
        ⟨hlocks j i (Ne.symm hij) _ h.2, hun h.1 i hij⟩)

omit [DecidableEq ι] in
/-- The one account of a customer in a currency. -/
theorem EndsStored.of_row (hwf : Wf s.shared) {i : ι} {id : Uuid}
    (hplaced : Placed c cur s.shared (s.calls i))
    (h : ⟨id, c, cur⟩ ∈ s.shared.accounts ∨ .insertAccount ⟨id, c, cur⟩ ∈ (s.calls i).pending) :
    EndsStored c cur i id s := by
  refine ⟨h, fun a ha hc hcur => ?_⟩
  rcases h with h | h
  · exact congrArg AccountRow.id (of_nodup_map hwf.accountKeys ha h (Prod.ext hc hcur))
  · -- The call has inserted the account, so it has the key, and no other is there.
    exfalso
    cases hcall : s.calls i with
    | done | crashed => rw [hcall] at h; cases h
    | run p loc w =>
      rw [hcall] at h hplaced
      have hmem : (⟨id, c, cur⟩ : AccountRow) ∈ inserted c cur loc.pending := by
        simpa [inserted] using ⟨_, h, rfl⟩
      have hno := hplaced.2.absent (hplaced.2.locked (List.ne_nil_of_mem hmem))
      have hin := mem_accountsOf.2 ⟨ha, hc, hcur⟩
      rw [hno] at hin
      cases hin

/-- An account that is stored, or that the call has inserted, is so after a step that does not drop
it. -/
theorem row_of_step (hwf : Wf d₀) (hr : Reach (Step Env) (system ops d₀) s) {e : Event ι}
    (hst : Step Env e s s') {i : ι} {row : AccountRow}
    (hdrop : Drops i e s s' → row ∈ s.shared.accounts)
    (h : row ∈ s.shared.accounts ∨ .insertAccount row ∈ (s.calls i).pending) :
    row ∈ s'.shared.accounts ∨ .insertAccount row ∈ (s'.calls i).pending := by
  by_cases hrow : row ∈ s.shared.accounts
  · left
    have hm := moved_of_reach hwf hr hst
    generalize s'.shared = d' at hm
    cases hm with
    | go i d hbelow hch =>
      rcases hch with rfl | rfl | ⟨ws, rfl, -, -⟩
      · exact hrow
      · exact hrow
      · rw [accounts_applyAll]
        exact List.mem_append_left _ hrow
    | crash i => exact hrow
    | env d he => cases he <;> exact hrow
  · have hpend := h.resolve_left hrow
    have hkeep : ¬Drops i e s s' := fun hd => hrow (hdrop hd)
    cases e with
    | env =>
      obtain ⟨d, -, rfl⟩ := hst
      exact .inr hpend
    | crash j =>
      have hij : i ≠ j := fun hij => hkeep (hij ▸ .inl rfl)
      obtain ⟨p, loc, w, hj, rfl⟩ := hst
      exact .inr (by simpa only [Function.update_of_ne hij] using hpend)
    | go j =>
      have hst' := hst
      obtain ⟨free, -, d, x, hn, rfl⟩ := hst
      by_cases hij : i = j
      · subst hij
        rcases Call.pending_next hpend hn with hp | hb | ⟨-, rfl⟩ | ⟨hc, hend⟩
        · exact .inr (by simpa only [Function.update_self] using hp)
        · exact absurd (.inr ⟨rfl, .inl hb⟩) hkeep
        · refine .inl ?_
          rw [accounts_applyAll]
          exact List.mem_append_right _ (List.mem_filterMap.2 ⟨_, hpend, rfl⟩)
        · exact absurd (.inr ⟨rfl, .inr ⟨hc, by simpa only [Function.update_self] using hend⟩⟩)
            hkeep
      · exact .inr (by simpa only [Function.update_of_ne hij] using hpend)

/-- **Every search for the account finds the one that ends up stored**, in a run without races: a
call in a search goes on with it, and never fails, or goes on with the id of the account that is
stored from then on, unless the call's transaction is dropped. -/
theorem found_of_step (hwf : Wf d₀) (hr : Reach (Careful c cur) (system ops d₀) s) {i : ι}
    {g : Uuid → OpProg} (hi : Seeking c cur g (s.calls i)) (hst : Careful c cur (.go i) s s') :
    Seeking c cur g (s'.calls i) ∨ ∃ id loc, s'.calls i = .settle (g id) loc ∧
      ((s'.calls i).ended = false → ∀ s₂, Reach (fun e s s' => Careful c cur e s s' ∧
        (Drops i e s s' → ⟨id, c, cur⟩ ∈ s.shared.accounts)) s' s₂ → EndsStored c cur i id s₂) := by
  have hr' : Reach (Careful c cur) (system ops d₀) s' := hr.tail ⟨_, hst⟩
  obtain ⟨⟨free, -, d, x, hn, rfl⟩, -⟩ := hst
  obtain ⟨p, loc, w, hcall, hseeks⟩ := hi
  have hplaced := placed_of_reach hwf hr i
  rw [hcall] at hplaced hn
  simp only [Function.update_self]
  rcases seeks_next hplaced hseeks hn with hgo | ⟨id, loc', rfl, hrow⟩
  · exact .inl hgo
  refine .inr ⟨id, loc', rfl, fun hend s₂ hr₂ => ?_⟩
  have hrow' : ⟨id, c, cur⟩ ∈ d.accounts ∨
      .insertAccount ⟨id, c, cur⟩ ∈ (Call.settle (g id) loc').pending :=
    hrow.imp (fun h => h) fun h => (Call.pending_settle h).resolve_right (by simp [hend])
  -- The row stays where it is, from the step that found it on.
  obtain ⟨hr₂, hrow₂⟩ := hr₂.invariant
    (I := fun s => Reach (Careful c cur) (system ops d₀) s ∧
      (⟨id, c, cur⟩ ∈ s.shared.accounts ∨ .insertAccount ⟨id, c, cur⟩ ∈ (s.calls i).pending))
    ⟨hr', by simpa only [Function.update_self] using hrow'⟩ fun s e s' _ hi hst =>
      ⟨hi.1.tail ⟨e, hst.1⟩, row_of_step hwf (hi.1.mono fun _ _ _ h => h.1) hst.1.1 hst.2 hi.2⟩
  exact .of_row (wf_of_reach hwf (hr₂.mono fun _ _ _ h => h.1)) (placed_of_reach hwf hr₂ i) hrow₂

/-- A call that stands at the insert is in a search. -/
theorem seeking_of_awaits (hwf : Wf d₀) (hr : Reach (Careful c cur) (system ops d₀) s) {i : ι}
    (h : awaits c cur (s.calls i) = true) : ∃ g, Seeking c cur g (s.calls i) := by
  have hplaced := placed_of_reach hwf hr i
  cases hcall : s.calls i with
  | done | crashed => rw [hcall] at h; cases h
  | run p loc w =>
    rw [hcall] at h hplaced
    obtain ⟨hat, -⟩ := hplaced
    cases hat with
    | inserts hg hd hp => exact ⟨_, _, loc, w, rfl, .inserts _⟩
    | checks | draws => cases h
    | apart hp =>
      cases hp with
      | lock hk hp => exact absurd (of_decide_eq_true h) hk
      | _ => cases h

end Runs

/-! ### Two payments -/

/-- Two payments to a new account, one of which stands at the insert. -/
abbrev PaymentSys := Sys (Fin 2) World Write Key Label Failure Answer

/-- The first of two payments stands at the insert when the second commits the account. -/
theorem insert_lost : ∃ s₁ s₂ s₃,
    Reach (Step Env) (system (paymentOps 100 20) (sampleWorld "NG")) s₁ ∧
      awaits 1 (.fiat .usd) (s₁.calls 0) = true ∧
      Reach (Step Env) s₁ s₂ ∧ (s₂.calls 1).succeeded = true ∧
      (accountsOf 1 (.fiat .usd) s₂.shared).length = 1 ∧
      Reach (Step Env) s₂ s₃ ∧ (s₃.calls 0).result? = some (.error (.api .serverError)) := by
  obtain ⟨s₁, hr₁, h₁⟩ := exists_reach (paymentOps 100 20) (sampleWorld "NG") [0, 1] [(0, 6)]
    (fun s₁ : PaymentSys => awaits 1 (.fiat .usd) (s₁.calls 0) &&
      (play [0, 1] (schedule [(1, 15)]) s₁).any fun s₂ : PaymentSys => (s₂.calls 1).succeeded &&
        decide ((accountsOf 1 (.fiat .usd) s₂.shared).length = 1) &&
        (play [0, 1] (schedule [(0, 3)]) s₂).any fun s₃ : PaymentSys =>
          decide ((s₃.calls 0).result? = some (.error (.api .serverError))))
    (by decide) (by decide +kernel)
  simp only [Bool.and_eq_true] at h₁
  obtain ⟨ha, h₁⟩ := h₁
  obtain ⟨s₂, hs₂, h₂⟩ := (Option.any_eq_true ..).1 h₁
  simp only [Bool.and_eq_true, decide_eq_true_eq] at h₂
  obtain ⟨⟨hok, hone⟩, h₂⟩ := h₂
  obtain ⟨s₃, hs₃, h₃⟩ := (Option.any_eq_true ..).1 h₂
  exact ⟨s₁, s₂, s₃, hr₁, ha, reach_of_play (by decide) (env_schedule _) hs₂, hok, hone,
    reach_of_play (by decide) (env_schedule _) hs₃, of_decide_eq_true h₃⟩

/-- A payment that stands at the insert alone goes on. -/
theorem found_payment : ∃ s s' g, Seeking 1 (.fiat .usd) g (s.calls 0) ∧
    Careful 1 (.fiat .usd) (.go 0) s s' ∧ (Seeking 1 (.fiat .usd) g (s'.calls 0) ∨
      ∃ id loc, s'.calls 0 = .settle (g id) loc ∧ ((s'.calls 0).ended = false →
        ∀ s₂ : PaymentSys, Reach (fun e s s' => Careful 1 (.fiat .usd) e s s' ∧
          (Drops 0 e s s' → ⟨id, 1, .fiat .usd⟩ ∈ s.shared.accounts)) s' s₂ →
            EndsStored 1 (.fiat .usd) 0 id s₂)) := by
  have h : ((playChecked (fun e s => decide (Unraced 1 (.fiat .usd) e s)) [0, 1] (schedule [(0, 6)])
      (system (paymentOps 100 20) (sampleWorld "NG"))).any fun s =>
        awaits 1 (.fiat .usd) (s.calls 0) && decide (Unraced 1 (.fiat .usd) (.go 0) s) &&
          (playMove [0, 1] s (.go 0)).isSome) = true := by
    decide +kernel
  obtain ⟨s, hs, h⟩ := (Option.any_eq_true ..).1 h
  simp only [Bool.and_eq_true, decide_eq_true_eq, Option.isSome_iff_exists] at h
  obtain ⟨⟨ha, hun⟩, s', hs'⟩ := h
  have hr := (reach_of_playChecked (by decide) (env_schedule _) hs).mono
    fun e s s' h => (⟨h.1, of_decide_eq_true h.2⟩ : Careful 1 (.fiat .usd) e s s')
  have hst : Careful 1 (.fiat .usd) (.go 0) s s' :=
    ⟨step_of_playMove (by decide) (by simp) hs', hun⟩
  obtain ⟨g, hg⟩ := seeking_of_awaits (wf_sampleWorld "NG") hr ha
  exact ⟨s, s', g, hg, hst, found_of_step (wf_sampleWorld "NG") hr hg hst⟩

end Kimana
