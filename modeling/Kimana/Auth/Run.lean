import Kimana.Auth.Directory
import Kimana.ReadCommitted.Keyed
import Kimana.ReadCommitted.Order

/-!
# Runs of registrations, logins and requests

Any number of requests, each of which stops at any point.

* `Does` : what a request may change.
* `runs_prog` : each request changes that and no more, and answers accordingly.
* `moved_of_reach`, `post_of_reach` : so it is in every run.
* `ordered_of_reach` : the changes of a run lie in order.
-/

namespace Kimana.Auth

open ReadCommitted Table

/-! ### What a request may change -/

/-- The rows of a registration. -/
structure Registration where
  user : UserRow
  customer : CustomerRow
  application : ApplicationRow
  audit : AuditRow
  session : SessionRow

/-- The statements that store them. -/
def Registration.writes (r : Registration) : List Write :=
  [.insertUser r.user, .insertCustomer r.customer, .insertApplication r.application,
    .insertAudit r.audit, .insertSession r.session]

/-- The rows are those of a request to register. -/
structure Registers (lib : Library) (input : RegisterInput) (random : Randomness) (now : Time)
    (r : Registration) : Prop where
  valid : validateRegister input.email input.password input.displayName input.legalName = .ok ()
  user : ∃ hash, lib.hashPassword random.salt input.password = some hash ∧
    r.user = ⟨r.user.id, "customer", input.displayName, [], some input.email, some hash⟩
  customer : ∃ draw ∈ random.draws,
    r.customer = ⟨r.customer.id, input.legalName, r.user.id, draw.candidate⟩
  application : r.application = ⟨r.application.id, r.customer.id, "draft"⟩
  audit : r.audit = registeredAudit r.user.id input r.customer.accountNumber
  session : ∃ t ≤ now, r.session =
    ⟨r.session.id, r.user.id, lib.hashToken random.rawToken, t + sessionTtl, none⟩

/-- The session is that of a login. -/
structure Admits (lib : Library) (email password rawToken : String) (d : Directory)
    (row : SessionRow) : Prop where
  user : ∃ u hash, d.userByEmail lib email = some u ∧ u.id = row.userId ∧
    u.passwordHash = some hash ∧ lib.verifyPassword password hash = true
  row : ∃ t ≤ d.clock, row =
    ⟨row.id, row.userId, lib.hashToken rawToken, t + sessionTtl, none⟩

/-- What a request does to the tables at once, with the locks it holds and the ids it has drawn. -/
inductive Does (lib : Library) (ℓ : List Key) (ids : List ℕ) :
    Op → Directory → Directory → Prop
  | register {input : RegisterInput} {random : Randomness} {d : Directory} {r : Registration} :
      Registers lib input random d.clock r → Valid lib ℓ ids d r.writes →
      Does lib ℓ ids (.register input random) d (applyAll r.writes d)
  | login {email password rawToken : String} {d : Directory} {row : SessionRow} :
      Admits lib email password rawToken d row → Valid lib ℓ ids d [.insertSession row] →
      Does lib ℓ ids (.login email password rawToken) d (applyAll [.insertSession row] d)
  | logout {token : String} {d : Directory} :
      Does lib ℓ ids (.logout (some token)) d (d.revokeSession (lib.hashToken token))

/-- Besides the requests, time passes. -/
inductive Env : Directory → Directory → Prop
  | tick {d : Directory} (now : Time) : d.clock ≤ now → Env d { d with clock := now }

/-- The rules of requests. -/
def rules {ι : Type} (lib : Library) (ops : ι → Op) : Rules ι Directory Key Unit where
  guar i ℓ ids d d' := Does lib ℓ ids (ops i) d d'
  env := Env

variable {lib : Library} {d d' : Directory} {ι : Type} {ops : ι → Op}

theorem Does.later {ℓ : List Key} {ids : List ℕ} {op : Op} (h : Does lib ℓ ids op d d') :
    Later d d' := by
  cases h with
  | register | login => exact later_applyAll _ _
  | logout => exact later_revokeSession _ _

theorem Does.wf {ℓ : List Key} {ids : List ℕ} {op : Op} (h : Does lib ℓ ids op d d')
    (hwf : Wf lib d) : Wf lib d' := by
  cases h with
  | register _ hv | login _ hv => exact hwf.applyAll hv
  | logout => exact hwf.revokeSession _

theorem nextId_applyAll (ws : List Write) (d : Directory) : (applyAll ws d).nextId = d.nextId := by
  induction ws generalizing d with
  | nil => rfl
  | cons w ws ih => rw [applyAll_cons, ih]; exact nextId_apply w d

theorem clock_applyAll (ws : List Write) (d : Directory) : (applyAll ws d).clock = d.clock := by
  induction ws generalizing d with
  | nil => rfl
  | cons w ws ih => rw [applyAll_cons, ih]; exact clock_apply w d

theorem Does.nextId {ℓ : List Key} {ids : List ℕ} {op : Op} (h : Does lib ℓ ids op d d') :
    d'.nextId = d.nextId := by
  cases h with
  | register | login => exact nextId_applyAll _ _
  | logout => rfl

/-- A request takes no key that it has not locked, and no id that it has not drawn. -/
theorem Valid.keys {ℓ : List Key} {ids : List ℕ} {ws : List Write} (h : Valid lib ℓ ids d ws)
    {k : Key} (hk : k ∈ (applyAll ws d).keys lib) : k ∈ d.keys lib ∨ k ∈ ℓ := by
  induction ws generalizing d with
  | nil => exact .inl hk
  | cons w ws ih =>
    rcases ih h.2 hk with hk | hk
    · exact (mem_keys_apply.1 hk).imp_right fun hk => (h.1.keys k hk).1
    · exact .inr hk

/-- The keys it takes are new. -/
theorem Valid.new {ℓ : List Key} {ids : List ℕ} {ws : List Write} (h : Valid lib ℓ ids d ws)
    {w : Write} (hw : w ∈ ws) {k : Key} (hk : k ∈ w.keys lib) : k ∉ d.keys lib := by
  induction ws generalizing d with
  | nil => cases hw
  | cons w' ws ih =>
    rcases List.mem_cons.1 hw with rfl | hw
    · exact (h.1.keys k hk).2
    · exact fun hd => ih h.2 hw (mem_keys_apply.2 (.inl hd))

theorem Valid.ids {ℓ : List Key} {ids : List ℕ} {ws : List Write} (h : Valid lib ℓ ids d ws)
    {n : ℕ} (hn : n ∈ (applyAll ws d).ids) : n ∈ d.ids ∨ n ∈ ids := by
  induction ws generalizing d with
  | nil => exact .inl hn
  | cons w ws ih =>
    rcases ih h.2 hn with hn | hn
    · exact (mem_ids_apply.1 hn).imp_right fun hn => (h.1.ids n hn).1
    · exact .inr hn

theorem Does.keys {ℓ : List Key} {ids : List ℕ} {op : Op} (h : Does lib ℓ ids op d d') {k : Key}
    (hk : k ∈ d'.keys lib) : k ∈ d.keys lib ∨ k ∈ ℓ := by
  cases h with
  | register _ hv | login _ hv => exact hv.keys hk
  | logout => exact .inl (keys_revokeSession _ d ▸ hk)

theorem Does.ids {ℓ : List Key} {ids : List ℕ} {op : Op} (h : Does lib ℓ ids op d d') {n : ℕ}
    (hn : n ∈ d'.ids) : n ∈ d.ids ∨ n ∈ ids := by
  cases h with
  | register _ hv | login _ hv => exact hv.ids hn
  | logout => exact .inl (ids_revokeSession _ d ▸ hn)

/-! ### What a request knows -/

/-- What a request that has changed nothing yet knows: the keys it has locked and found free are
free, and so are the ids it has drawn. -/
structure Knows (lib : Library) (ks : List Key) (loc : Local Directory Write Key Unit)
    (d : Directory) : Prop where
  wf : Wf lib d
  made : loc.made = []
  locks : ∀ k ∈ ks, k ∈ loc.locks
  free : ∀ k ∈ ks, k ∉ d.keys lib
  ids : ∀ n ∈ loc.ids, n ∉ d.ids ∧ n < d.nextId
  nodup : loc.ids.Nodup

variable {loc : Local Directory Write Key Unit} {ks : List Key} {i : ι} {w : Option Directory}

/-- Time goes on while a request stands still. -/
theorem later_of_rely (h : (rules lib ops).Rely loc w d d') : Later d d' := by
  refine h.invariant (P := Later d) (.refl d) fun d₁ d₂ h₁ ho => h₁.trans ?_
  cases ho with
  | bump => exact later_bump _
  | guar _ _ _ _ _ _ hg _ => exact hg.later
  | env he _ =>
    cases he with
    | tick now hle => exact { Later.refl d₁ with clock := hle }

/-- The tables, with their unique columns and their ids. -/
def tables (lib : Library) : Keyed Directory Key := ⟨Directory.keys lib, Directory.ids⟩

theorem Wf.distinct (h : Wf lib d) : Distinct (tables lib) d := ⟨h.keys, h.ids, h.below⟩

theorem Does.takes {ℓ : List Key} {ids : List ℕ} {op : Op} (h : Does lib ℓ ids op d d') :
    Takes (tables lib) ℓ ids d d' :=
  ⟨fun _ hk => h.keys hk, fun _ hn => h.ids hn, h.nextId.symm.le⟩

theorem fair_rules : Fair (tables lib) (rules lib ops) where
  guar _ _ _ _ _ h := Does.takes h
  env _ _ h := by cases h; exact ⟨fun _ h => .inl h, fun _ h => .inl h, le_rfl⟩
  bump _ := ⟨fun _ h => .inl h, fun _ h => .inl h, Nat.le_succ _⟩

theorem Knows.holds (h : Knows lib ks loc d) : Holds (tables lib) ks loc d :=
  ⟨h.locks, h.free, h.ids⟩

theorem wf_of_rely (h : (rules lib ops).Rely loc w d d') (hwf : Wf lib d) : Wf lib d' := by
  refine h.invariant hwf fun d₁ d₂ h₁ ho => ?_
  cases ho with
  | bump => exact h₁.bump
  | guar _ _ _ _ _ _ hg _ => exact hg.wf h₁
  | env he _ => cases he; exact { h₁ with }

/-- What a request has locked and drawn nobody else takes. -/
theorem Knows.rely (h : Knows lib ks loc d) (hr : (rules lib ops).Rely loc w d d') :
    Knows lib ks loc d' := by
  have hheld := h.holds.rely fair_rules hr
  exact ⟨wf_of_rely hr h.wf, h.made, h.locks, hheld.free, hheld.ids, h.nodup⟩

/-- A drawn id is new. -/
theorem Knows.draw (h : Knows lib ks loc d) : Knows lib ks (loc.draw (seq d)) (bump d) := by
  have hheld := h.holds.draw h.wf.distinct
    ⟨fun _ h => .inl h, fun _ h => .inl h, Nat.le_succ _⟩
  exact ⟨h.wf.bump, h.made, h.locks, h.free, hheld.ids,
    List.nodup_cons.2 ⟨fun hmem => (h.ids _ hmem).2.false, h.nodup⟩⟩

/-- A key that is locked and found free. -/
theorem Knows.lock (h : Knows lib ks loc d) {k : Key} (hk : k ∈ loc.locks)
    (hfree : k ∉ d.keys lib) : Knows lib (k :: ks) loc d :=
  { h with
    locks := List.forall_mem_cons.2 ⟨hk, h.locks⟩
    free := List.forall_mem_cons.2 ⟨hfree, h.free⟩ }

/-! ### Statements -/

/-- A request that fails has changed nothing. -/
def Failed (_ : ApiError) (loc : Local Directory Write Key Unit) (_ : Directory) : Prop :=
  loc.made = []

/-- The request stands where it stood, with more keys taken and more to publish. -/
structure Goes (lib : Library) (ks : List Key) (ids : List ℕ) (pending : List Write)
    (d₀ : Directory) (loc : Local Directory Write Key Unit) (d : Directory) : Prop where
  knows : Knows lib ks loc d
  ids : loc.ids = ids
  pending : loc.pending = pending
  later : Later d₀ d

variable {ids : List ℕ} {pending : List Write} {d₀ : Directory}

theorem Goes.rely (h : Goes lib ks ids pending d₀ loc d)
    (hr : (rules lib ops).Rely loc w d d') : Goes lib ks ids pending d₀ loc d' :=
  ⟨h.knows.rely hr, h.ids, h.pending, h.later.trans (later_of_rely hr)⟩

theorem Goes.lock (h : Goes lib ks ids pending d₀ loc d) {k : Key} (hk : k ∈ loc.locks)
    (hfree : k ∉ d.keys lib) : Goes lib (k :: ks) ids pending d₀ loc d :=
  ⟨h.knows.lock hk hfree, h.ids, h.pending, h.later⟩

theorem Goes.hold (h : Goes lib ks ids pending d₀ loc d) (k : Key) :
    Goes lib ks ids pending d₀ (loc.hold k) d :=
  ⟨{ h.knows with locks := fun k' hk' => List.mem_cons_of_mem _ (h.knows.locks k' hk') }, h.ids,
    h.pending, h.later⟩

theorem Goes.wrote (h : Goes lib ks ids pending d₀ loc d) (w : Write) :
    Goes lib ks ids (pending ++ [w]) d₀ (loc.wrote w) d :=
  ⟨{ h.knows with }, h.ids, by rw [Local.wrote_pending, h.pending], h.later⟩

theorem Goes.draw (h : Goes lib ks ids pending d₀ loc d) :
    Goes lib ks (seq d :: ids) pending d₀ (loc.draw (seq d)) (bump d) :=
  ⟨h.knows.draw, by rw [Local.draw, h.ids], h.pending, h.later.trans (later_bump d)⟩

/-- What a transaction with unpublished rows does not see, nobody has. -/
theorem not_mem_keys_of_view {k : Key} {ws : List Write} (h : k ∉ (applyAll ws d).keys lib) :
    k ∉ d.keys lib := by
  induction ws generalizing d with
  | nil => exact h
  | cons w ws ih => exact fun hk => ih h (mem_keys_apply.2 (.inl hk))

theorem userByEmail_eq_none {email : String} (h : d.userByEmail lib email = none) :
    Key.email (lib.lower email) ∉ d.keys lib := by
  intro hk
  simp only [Directory.keys, List.mem_append, List.mem_filterMap, List.mem_map, reduceCtorEq,
    and_false, exists_false, or_false] at hk
  obtain ⟨u, hu, hkey⟩ := hk
  obtain ⟨e, he, hlower⟩ := Option.map_eq_some_iff.1 hkey
  have := List.find?_eq_none.1 h u hu
  rw [he] at this
  exact this (by simpa using Key.email.inj hlower)

theorem not_mem_keys_of_numberTaken {number : String} (h : d.numberTaken number = false) :
    Key.accountNumber number ∉ d.keys lib := by
  intro hk
  simp only [Directory.keys, List.mem_append, List.mem_filterMap, List.mem_map, reduceCtorEq,
    and_false, exists_false, or_false, UserRow.key, Option.map_eq_some_iff, false_or,
    Key.accountNumber.injEq] at hk
  obtain ⟨c, hc, rfl⟩ := hk
  simpa using List.any_eq_false.1 h c hc

theorem not_mem_keys_of_any {hash : String}
    (h : (d.sessions.any fun s => s.tokenHash = hash) = false) :
    Key.tokenHash hash ∉ d.keys lib := by
  intro hk
  simp only [Directory.keys, List.mem_append, List.mem_filterMap, List.mem_map, reduceCtorEq,
    and_false, exists_false, or_false, UserRow.key, Option.map_eq_some_iff, false_or,
    Key.tokenHash.injEq] at hk
  obtain ⟨s, hs, rfl⟩ := hk
  simpa using List.any_eq_false.1 h s hs

theorem findUserByEmail_spec (h : Goes lib ks ids pending d₀ loc d) (email : String) :
    wp (rules lib ops) i (fun r loc' d' => Goes lib ks ids pending d₀ loc' d' ∧
      r = d'.userByEmail lib email) Failed (findUserByEmail lib email) loc d := by
  unfold findUserByEmail
  split
  case isTrue => exact h.knows.made
  case isFalse => exact fun d' hr => ⟨trivial, h.rely hr, rfl⟩

theorem insertUser_spec (h : Goes lib ks ids pending d₀ loc d)
    (id : Uuid) (displayName email passwordHash : String) :
    wp (rules lib ops) i (fun _ loc' d' => Goes lib (.email (lib.lower email) :: ks) ids
        (pending ++ [.insertUser ⟨id, "customer", displayName, [], some email, some passwordHash⟩])
        d₀ loc' d') Failed
      (insertUser lib id displayName email passwordHash) loc d := by
  simp only [insertUser, Prog.bind_eq, Prog.bind]
  split
  case isTrue => exact h.knows.made
  case isFalse =>
  intro d₁ hr₁
  refine ⟨trivial, fun d₂ hr₂ => ⟨trivial, fun d₃ hr₃ => ⟨trivial, ?_⟩⟩⟩
  have h₃ := (((h.rely hr₁).rely hr₂).hold (.email (lib.lower email))).rely hr₃
  dsimp only
  split
  case isTrue => exact h₃.knows.made
  case isFalse hnone =>
    rw [Option.not_isSome_iff_eq_none] at hnone
    exact (h₃.lock List.mem_cons_self
      (not_mem_keys_of_view (userByEmail_eq_none hnone))).wrote _

theorem generateAccountNumber_spec (h : Goes lib ks ids pending d₀ loc d) (draws : List Draw) :
    wp (rules lib ops) i (fun number loc' d' => Goes lib ks ids pending d₀ loc' d' ∧
      ∃ draw ∈ draws, number = draw.candidate) Failed (generateAccountNumber draws) loc d := by
  induction draws generalizing d with
  | nil => exact h.knows.made
  | cons draw draws ih =>
    simp only [generateAccountNumber, Prog.bind_eq, Prog.pure_eq, Prog.bind]
    intro d' hr
    refine ⟨trivial, ?_⟩
    dsimp only
    split
    case isTrue =>
      refine wp_mono (fun _ _ _ hn => ⟨hn.1, ?_⟩) (fun _ _ _ he => he) (ih (h.rely hr))
      obtain ⟨draw', hmem, he⟩ := hn.2
      exact ⟨draw', List.mem_cons_of_mem _ hmem, he⟩
    case isFalse => exact ⟨h.rely hr, draw, List.mem_cons_self, rfl⟩

theorem insertCustomer_spec (h : Goes lib ks ids pending d₀ loc d) (id : Uuid) (legalName : String)
    (primaryUserId : Uuid) (draws : List Draw) :
    wp (rules lib ops) i (fun number loc' d' => Goes lib (.accountNumber number :: ks) ids
        (pending ++ [.insertCustomer ⟨id, legalName, primaryUserId, number⟩]) d₀ loc' d' ∧
        ∃ draw ∈ draws, number = draw.candidate) Failed
      (insertCustomer id legalName primaryUserId draws) loc d := by
  simp only [insertCustomer, Prog.bind_eq, Prog.pure_eq, Prog.bind]
  split
  case isTrue => exact h.knows.made
  case isFalse =>
  refine wp_bind_of (generateAccountNumber_spec h draws) (fun _ _ _ he => he) ?_
  rintro number loc₁ d₁ ⟨h₁, hdraw⟩ d₂ hr₂
  refine ⟨trivial, fun d₃ hr₃ => ⟨trivial, fun d₄ hr₄ => ⟨trivial, ?_⟩⟩⟩
  have h₄ := (((h₁.rely hr₂).rely hr₃).hold (.accountNumber number)).rely hr₄
  dsimp only
  split
  case isTrue => exact h₄.knows.made
  case isFalse hfree =>
    simp only [Bool.or_eq_true, not_or, Bool.not_eq_true, Bool.not_eq_true'] at hfree
    exact ⟨(h₄.lock List.mem_cons_self
      (not_mem_keys_of_view (not_mem_keys_of_numberTaken hfree.1))).wrote _, hdraw⟩

theorem insertSession_spec (h : Goes lib ks ids pending d₀ loc d) (id userId : Uuid) (hash : String)
    (expiresAt : Time) :
    wp (rules lib ops) i (fun _ loc' d' => Goes lib (.tokenHash hash :: ks) ids
        (pending ++ [.insertSession ⟨id, userId, hash, expiresAt, none⟩]) d₀ loc' d') Failed
      (insertSession id userId hash expiresAt) loc d := by
  simp only [insertSession, Prog.bind_eq, Prog.bind]
  intro d₁ hr₁
  refine ⟨trivial, fun d₂ hr₂ => ⟨trivial, fun d₃ hr₃ => ⟨trivial, ?_⟩⟩⟩
  have h₃ := (((h.rely hr₁).rely hr₂).hold (.tokenHash hash)).rely hr₃
  dsimp only
  split
  case isTrue => exact h₃.knows.made
  case isFalse hfree =>
    rw [Bool.not_eq_true] at hfree
    exact (h₃.lock List.mem_cons_self (not_mem_keys_of_view (not_mem_keys_of_any hfree))).wrote _

/-! ### Requests -/

/-- What a request has done when it answers, and what it says. -/
def Op.Post (lib : Library) (op : Op) (r : Except ApiError Answer)
    (made : List (Directory × Directory)) : Prop :=
  match op, r with
  | _, .error _ => made = []
  | .register input random, .ok a => ∃ d ℓ ids, ∃ r : Registration, Wf lib d ∧
      made = [(d, applyAll r.writes d)] ∧ Registers lib input random d.clock r ∧
      Valid lib ℓ ids d r.writes ∧
      a = .authenticated ⟨sessionOf r.user r.customer, random.rawToken⟩
  | .login email password rawToken, .ok a => ∃ d ℓ ids row x, Wf lib d ∧
      made = [(d, applyAll [.insertSession row] d)] ∧ Admits lib email password rawToken d row ∧
      Valid lib ℓ ids d [.insertSession row] ∧ d.context row.userId = some x ∧
      a = .authenticated ⟨sessionOf x.1 x.2, rawToken⟩
  | .logout (some token), .ok _ => ∃ d, made = [(d, d.revokeSession (lib.hashToken token))]
  | .logout none, .ok _ => made = []
  | .request _, .ok _ => made = []

/-- The rows that new rows refer to are there when they are stored. -/
def Refer : Directory → List Write → Prop
  | _, [] => True
  | d, w :: ws => w.Refers d ∧ Refer (w.apply d) ws

/-- Rows whose keys and ids are free and differ may be stored one after another. -/
theorem valid_of_nodup {ℓ : List Key} {ids : List ℕ} {ws : List Write}
    (hkeys : (ws.flatMap (Write.keys lib)).Nodup) (hids : (ws.flatMap Write.ids).Nodup)
    (hk : ∀ k ∈ ws.flatMap (Write.keys lib), k ∈ ℓ ∧ k ∉ d.keys lib)
    (hn : ∀ n ∈ ws.flatMap Write.ids, n ∈ ids ∧ n ∉ d.ids ∧ n < d.nextId)
    (hrefer : Refer d ws) : Valid lib ℓ ids d ws := by
  induction ws generalizing d with
  | nil => trivial
  | cons w ws ih =>
    rw [List.flatMap_cons] at hkeys hids hk hn
    obtain ⟨-, hkeys', hdisj⟩ := List.nodup_append.1 hkeys
    obtain ⟨-, hids', hdisj'⟩ := List.nodup_append.1 hids
    refine ⟨⟨fun k h => hk k (List.mem_append_left _ h), fun n h => hn n (List.mem_append_left _ h),
      hrefer.1⟩, ih hkeys' hids' (fun k h => ?_) (fun n h => ?_) hrefer.2⟩
    · obtain ⟨hl, hfree⟩ := hk k (List.mem_append_right _ h)
      refine ⟨hl, fun hmem => ?_⟩
      rcases mem_keys_apply.1 hmem with hmem | hmem
      · exact hfree hmem
      · exact hdisj k hmem k h rfl
    · obtain ⟨hdrawn, hfree, hlt⟩ := hn n (List.mem_append_right _ h)
      refine ⟨hdrawn, fun hmem => ?_, (nextId_apply w d).symm ▸ hlt⟩
      rcases mem_ids_apply.1 hmem with hmem | hmem
      · exact hfree hmem
      · exact hdisj' n hmem n h rfl

/-- A registration may be published. -/
theorem valid_registration {r : Registration} {email : String} (hemail : r.user.email = some email)
    (hcustomer : r.customer.primaryUserId = r.user.id) (hsession : r.session.userId = r.user.id)
    (hids : loc.ids = [r.session.id, r.application.id, r.customer.id, r.user.id])
    (h : Knows lib [.tokenHash r.session.tokenHash, .accountNumber r.customer.accountNumber,
      .email (lib.lower email)] loc d) : Valid lib loc.locks loc.ids d r.writes := by
  have hkeys : r.writes.flatMap (Write.keys lib) = [.email (lib.lower email),
      .accountNumber r.customer.accountNumber, .tokenHash r.session.tokenHash] := by
    simp [Registration.writes, Write.keys, UserRow.key, hemail]
  have hrows : r.writes.flatMap Write.ids = loc.ids.reverse := by
    rw [hids]
    rfl
  have hmem : r.user ∈ d.users ++ [r.user] := List.mem_append_right _ (List.mem_singleton_self _)
  refine valid_of_nodup ?_ (hrows ▸ List.nodup_reverse.2 h.nodup) (fun k hk => ?_) (fun n hn => ?_)
    ⟨trivial, ⟨r.user, hmem, hcustomer.symm⟩, trivial, trivial, ⟨r.user, hmem, hsession.symm⟩,
      trivial⟩
  · rw [hkeys]
    simp
  · have hk' : k ∈ [Key.tokenHash r.session.tokenHash, .accountNumber r.customer.accountNumber,
        .email (lib.lower email)] := by
      rw [hkeys] at hk
      exact List.mem_reverse.1 hk
    exact ⟨h.locks k hk', h.free k hk'⟩
  · have hn' : n ∈ loc.ids := by
      rw [hrows] at hn
      exact List.mem_reverse.1 hn
    exact ⟨hn', h.ids n hn'⟩

/-- A request that has not begun. -/
theorem goes_start (hwf : Wf lib d) : Goes lib [] [] [] d { label := default } d :=
  ⟨⟨hwf, rfl, fun _ hk => absurd hk List.not_mem_nil, fun _ hk => absurd hk List.not_mem_nil,
    fun _ hn => absurd hn List.not_mem_nil, List.nodup_nil⟩, rfl, rfl, .refl d⟩

/-- A registration stores all its rows at once. -/
theorem register_spec {input : RegisterInput} {random : Randomness}
    (hop : ops i = .register input random) (h : Goes lib [] [] [] d₀ loc d) :
    wp (rules lib ops) i (fun a loc' _ =>
        (Op.register input random).Post lib (.ok (.authenticated a)) loc'.made) Failed
      (register lib input random) loc d := by
  simp only [register, Prog.bind_eq, Prog.pure_eq, Prog.bind]
  split
  case h_1 => exact h.knows.made
  case h_2 hvalid =>
  refine wp_bind_of (findUserByEmail_spec h _) (fun _ _ _ he => he) ?_
  rintro found loc₁ d₁ ⟨h₁, -⟩
  split
  case isTrue => exact h₁.knows.made
  case isFalse =>
  split
  case h_1 => exact h₁.knows.made
  case h_2 passwordHash hhash =>
  -- The ids of the user, the customer and the application.
  intro d₂ hr₂
  refine ⟨trivial, fun d₃ hr₃ => ⟨trivial, fun d₄ hr₄ => ⟨trivial, ?_⟩⟩⟩
  have h₄ := (((((h₁.rely hr₂).draw).rely hr₃).draw).rely hr₄).draw
  refine wp_bind_of (insertUser_spec h₄ _ _ _ _) (fun _ _ _ he => he) fun _ loc₅ d₅ h₅ => ?_
  refine wp_bind_of (insertCustomer_spec h₅ _ _ _ _) (fun _ _ _ he => he) ?_
  rintro number loc₆ d₆ ⟨h₆, draw, hdraw, rfl⟩
  simp only [insertDraftApplication, Prog.bind]
  intro d₇ hr₇
  refine ⟨trivial, fun d₈ hr₈ => ⟨trivial, ?_⟩⟩
  have h₇ := ((((h₆.wrote _).wrote _).rely hr₇).draw).rely hr₈
  have h₈ : Goes lib _ _ _ d₈ _ d₈ := ⟨h₇.knows, h₇.ids, h₇.pending, .refl d₈⟩
  simp only [clock_applyAll]
  refine wp_bind_of (insertSession_spec h₈ _ _ _ _) (fun _ _ _ he => he) fun _ loc₉ d₉ h₉ d hr => ?_
  have hd := h₉.rely hr
  refine ⟨trivial, ?_⟩
  generalize hr : Registration.mk
    ⟨seq d₂, "customer", input.displayName, [], some input.email, some passwordHash⟩
    ⟨seq d₃, input.legalName, seq d₂, draw.candidate⟩ ⟨seq d₄, seq d₃, "draft"⟩
    (registeredAudit (seq d₂) input draw.candidate)
    ⟨seq d₇, seq d₂, lib.hashToken random.rawToken, d₈.clock + sessionTtl, none⟩ = r
  have hpending : loc₉.pending = r.writes := by rw [← hr]; exact hd.pending
  have hreg : Registers lib input random d.clock r := by
    subst hr
    exact ⟨hvalid, ⟨passwordHash, hhash, rfl⟩, ⟨draw, hdraw, rfl⟩, rfl, rfl,
      ⟨_, hd.later.clock, rfl⟩⟩
  have hv : Valid lib loc₉.locks loc₉.ids d r.writes := by
    subst hr
    exact valid_registration rfl rfl rfl hd.ids hd.knows
  rw [hpending]
  refine ⟨?_, d, _, _, r, hd.knows.wf, ?_, hreg, hv, ?_⟩
  · show Does lib _ _ (ops i) _ _
    rw [hop]
    exact .register hreg hv
  · exact congrArg (_ :: ·) hd.knows.made
  · subst hr
    rfl

/-- A login stores a session of the user with the email. -/
theorem login_spec {email password rawToken : String}
    (hop : ops i = .login email password rawToken) (h : Goes lib [] [] [] d₀ loc d) :
    wp (rules lib ops) i (fun a loc' _ =>
        (Op.login email password rawToken).Post lib (.ok (.authenticated a)) loc'.made) Failed
      (login lib email password rawToken) loc d := by
  simp only [login, Prog.bind_eq, Prog.pure_eq, Prog.bind]
  refine wp_bind_of (findUserByEmail_spec h _) (fun _ _ _ he => he) ?_
  rintro found loc₁ d₁ ⟨h₁, hfound⟩
  split
  case h_1 => exact h₁.knows.made
  case h_2 user =>
  split
  case h_1 => exact h₁.knows.made
  case h_2 hash hhash =>
  split
  case isTrue => exact h₁.knows.made
  case isFalse hverify =>
  intro d₂ hr₂
  refine ⟨trivial, ?_⟩
  dsimp only
  split
  case h_1 => exact (h₁.rely hr₂).knows.made
  case h_2 u c hcontext =>
  intro d₃ hr₃
  refine ⟨trivial, fun d₄ hr₄ => ⟨trivial, ?_⟩⟩
  -- The user's row and its customer's may be older than the session: neither changes.
  have h₁' : Goes lib _ _ _ d₁ _ d₁ := ⟨h₁.knows, h₁.ids, h₁.pending, .refl d₁⟩
  have h₄ := (((h₁'.rely hr₂).rely hr₃).draw).rely hr₄
  have hlater : Later d₂ d₄ :=
    ((later_of_rely hr₃).trans (later_bump d₃)).trans (later_of_rely hr₄)
  have h₄' : Goes lib _ _ _ d₄ _ d₄ := ⟨h₄.knows, h₄.ids, h₄.pending, .refl d₄⟩
  simp only [clock_applyAll]
  refine wp_bind_of (insertSession_spec h₄' _ _ _ _) (fun _ _ _ he => he)
    fun _ loc₅ d₅ h₅ d hr => ?_
  have hd := h₅.rely hr
  have hmade := hd.knows.made
  obtain ⟨u', hu', hc⟩ := Option.bind_eq_some_iff.1 hcontext
  obtain ⟨c', -, he⟩ := Option.map_eq_some_iff.1 hc
  obtain ⟨rfl, rfl⟩ := Prod.mk.inj he
  have hid : u'.id = user.id := by simpa using List.find?_some hu'
  have hadmits : Admits lib email password rawToken d
      ⟨seq d₃, user.id, lib.hashToken rawToken, d₄.clock + sessionTtl, none⟩ :=
    ⟨⟨user, hash, ((h₄.later.trans hd.later).userByEmail hfound.symm), rfl, hhash,
      by simpa using hverify⟩, _, hd.later.clock, rfl⟩
  have huser : user ∈ d.users :=
    List.mem_of_find?_eq_some ((h₄.later.trans hd.later).userByEmail hfound.symm)
  have hv : Valid lib loc₅.locks loc₅.ids d
      [.insertSession ⟨seq d₃, user.id, lib.hashToken rawToken, d₄.clock + sessionTtl, none⟩] := by
    refine ⟨⟨fun k hk => ⟨hd.knows.locks k hk, hd.knows.free k hk⟩, fun n hn => ?_,
      ⟨user, huser, rfl⟩⟩, trivial⟩
    have hn' : n ∈ loc₅.ids := hd.ids ▸ hn
    exact ⟨hn', hd.knows.ids n hn'⟩
  refine ⟨trivial, ?_⟩
  rw [hd.pending]
  refine ⟨?_, d, _, _, _, (u', c'), hd.knows.wf, ?_, hadmits, hv,
    (hlater.trans hd.later).context hcontext, ?_⟩
  · show Does lib _ _ (ops i) _ _
    rw [hop]
    exact .login hadmits hv
  · exact congrArg (_ :: ·) hmade
  · rw [sessionOf, hid]

/-- A logout revokes the session that its cookie names. -/
theorem logout_spec {cookie : Option String} (hop : ops i = .logout cookie) (h : loc.made = []) :
    wp (rules lib ops) i (fun _ loc' _ => (Op.logout cookie).Post lib (.ok .loggedOut) loc'.made)
      Failed (logout lib cookie) loc d := by
  cases cookie with
  | none => exact h
  | some token =>
    intro d' _
    refine ⟨trivial, ?_, d', congrArg (_ :: ·) h⟩
    show Does lib _ _ (ops i) _ _
    rw [hop]
    exact .logout

/-- A request changes nothing before it is known whom it is for. -/
theorem fromRequestParts_spec (cookie : Option String) (h : loc.made = []) :
    wp (rules lib ops) i (fun _ loc' _ => loc'.made = []) Failed (fromRequestParts lib cookie) loc
      d := by
  cases cookie with
  | none => exact h
  | some token =>
    simp only [fromRequestParts, Prog.bind_eq, Prog.pure_eq, Prog.bind]
    refine fun d' _ => ⟨trivial, ?_⟩
    dsimp only
    split <;> exact h

-- Unfolding a whole registration would evaluate the checks of its texts.
attribute [local irreducible] validateRegister

/-- The same of the whole request. -/
theorem prog_spec (i : ι) (hwf : Wf lib d) :
    wp (rules lib ops) i (fun a loc' _ => (ops i).Post lib (.ok a) loc'.made) Failed
      ((ops i).prog lib) { label := default } d := by
  have h := goes_start hwf
  cases hop : ops i with
  | register input random =>
    exact wp_bind_of (register_spec hop h) (fun _ _ _ he => he) fun a loc' d' ha => ha
  | login email password rawToken =>
    exact wp_bind_of (login_spec hop h) (fun _ _ _ he => he) fun a loc' d' ha => ha
  | logout cookie =>
    exact wp_bind_of (logout_spec hop rfl) (fun _ _ _ he => he) fun a loc' d' ha => ha
  | request cookie =>
    exact wp_bind_of (fromRequestParts_spec cookie rfl) (fun _ _ _ he => he) fun a loc' d' ha => ha

theorem post_error {op : Op} {e : ApiError} {made : List (Directory × Directory)} (h : made = []) :
    op.Post lib (.error e) made := by
  cases op <;> exact h

/-- **Each request changes what it may and no more**, and answers accordingly. -/
theorem runs_prog (i : ι) (hwf : Wf lib d) :
    Runs (rules lib ops) i (fun r made _ => (ops i).Post lib r made) ((ops i).prog lib)
      { label := default } d :=
  wp_mono (fun _ _ _ h _ _ => h) (fun _ _ _ h _ _ => post_error h) (prog_spec i hwf)

/-! ### Every run -/

/-- Any number of requests that have not begun. -/
def serving (lib : Library) (ops : ι → Op) (d : Directory) :
    Sys ι Directory Write Key Unit ApiError Answer :=
  ⟨d, fun i => .start ((ops i).prog lib)⟩

section Runs

variable [DecidableEq ι] {s s' : Sys ι Directory Write Key Unit ApiError Answer}

omit [DecidableEq ι] in
theorem seqMono_rules : (rules lib ops).SeqMono where
  guar _ _ _ _ _ h := h.nextId.symm.le
  env _ _ h := by cases h; exact le_rfl

theorem sysOk_of_reach (hwf : Wf lib d₀) (hr : Reach (Step Env) (serving lib ops d₀) s) :
    SysOk (rules lib ops) (fun i r made _ => (ops i).Post lib r made) s :=
  (SysOk.start fun i => runs_prog i hwf).reach seqMono_rules
    (hr.mono fun _ _ _ hst => ⟨hst, fun _ _ => trivial⟩)

/-- What a step of a run changes. -/
theorem moved_of_reach (hwf : Wf lib d₀) (hr : Reach (Step Env) (serving lib ops d₀) s)
    {e : Event ι} (hst : Step Env e s s') : Moved (rules lib ops) s e s'.shared :=
  (sysOk_of_reach hwf hr).moved hst

/-- What a request has done when it has answered. -/
theorem post_of_reach (hwf : Wf lib d₀) (hr : Reach (Step Env) (serving lib ops d₀) s) {i : ι}
    {r : Except ApiError Answer} {made : List (Directory × Directory)}
    (hi : s.calls i = .done r made) : (ops i).Post lib r made :=
  (sysOk_of_reach hwf hr).answer hi

theorem later_of_step (hwf : Wf lib d₀) (hr : Reach (Step Env) (serving lib ops d₀) s)
    {e : Event ι} (hst : Step Env e s s') : Later s.shared s'.shared := by
  have hm := moved_of_reach hwf hr hst
  generalize s'.shared = d' at hm
  cases hm with
  | go i d _ hch =>
    rcases hch with rfl | rfl | h
    · exact .refl _
    · exact later_bump _
    · exact h.later
  | crash i => exact .refl _
  | env d he =>
    cases he with
    | tick now hle => exact { Later.refl s.shared with clock := hle }

theorem wf_of_reach (hwf : Wf lib d₀) (hr : Reach (Step Env) (serving lib ops d₀) s) :
    Wf lib s.shared := by
  refine hr.invariant (I := fun s => Wf lib s.shared) hwf fun s e s' hs h hst => ?_
  have hm := moved_of_reach hwf hs hst
  generalize s'.shared = d' at hm
  cases hm with
  | go i d _ hch =>
    rcases hch with rfl | rfl | hd
    · exact h
    · exact h.bump
    · exact hd.wf h
  | crash i => exact h
  | env d he => cases he; exact { h with }

theorem ordered_of_reach (hwf : Wf lib d₀) (hr : Reach (Step Env) (serving lib ops d₀) s) :
    Ordered Later d₀ s :=
  .of_reach Later.refl Later.trans (fun _ _ _ hs hst => later_of_step hwf hs hst)
    (fun _ => Call.made_settle _ _) hr

end Runs

end Kimana.Auth
