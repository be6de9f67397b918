import Kimana.Auth.Identity
import Kimana.ReadCommitted.Point

/-!
# Whom requests are carried out for

* `vouched_of_request` : **no session without credentials**: a request is carried out for a user
  only with a token that a registration of the user, or a login with its password, was given.
* `refused_of_reach` : **a session that has ended has ended for good**, by logout or in time.
* `login_of_registered` : whoever has registered can log in.
-/

namespace Kimana.Auth

open ReadCommitted Table

variable {lib : Library} {ι : Type} {ops : ι → Op} {d₀ d d' : Directory}

/-! ### One request -/

/-- The answer to a request whose cookie names no session. -/
def signIn : ApiError := .unauthorized "Sign in to continue."

/-- The answer to a request. -/
def answerTo (found : Option Session) : Except ApiError Answer :=
  match found with
  | none => .error signIn
  | some session => .ok (.session session)

theorem start_request (token : String) : ((Op.request (some token)).prog lib) =
    .query fun d => match answerTo (d.resolve (lib.hashToken token)) with
      | .ok a => .ret a
      | .error e => .fail e := by
  simp only [Op.prog, fromRequestParts, Prog.bind_eq, Prog.pure_eq, Prog.bind]
  refine congrArg Prog.query (funext fun d => ?_)
  cases d.resolve (lib.hashToken token) <;> rfl

section Runs

variable [DecidableEq ι] {s s' : Sys ι Directory Write Key Unit ApiError Answer}

/-- A call that ends with its first statement has not begun, or it has ended. -/
theorem start_or_ended (hr : Reach (Step Env) (serving lib ops d₀) s) {i : ι}
    (hone : ∀ free d d' c, (Call.start ((ops i).prog lib)).next free d = some (d', c) →
      c.ended = true) : s.calls i = .start ((ops i).prog lib) ∨ (s.calls i).ended = true := by
  refine hr.invariant (I := fun s => s.calls i = .start ((ops i).prog lib) ∨
    (s.calls i).ended = true) (.inl rfl) fun s e s' _ h hst => ?_
  cases e with
  | env =>
    obtain ⟨d, -, rfl⟩ := hst
    exact h
  | crash j =>
    obtain ⟨p, loc, w, hj, rfl⟩ := hst
    by_cases hij : i = j
    · subst hij
      exact .inr (by simp [Call.ended])
    · simpa only [Function.update_of_ne hij] using h
  | go j =>
    obtain ⟨free, -, d, c, hn, rfl⟩ := hst
    by_cases hij : i = j
    · subst hij
      rcases h with h | h
      · rw [h] at hn
        exact .inr (by simpa only [Function.update_self] using hone _ _ _ _ hn)
      · cases hc : s.calls i <;> rw [hc] at h hn
        · cases h
        · cases hn
        · cases hn
    · simpa only [Function.update_of_ne hij] using h

/-- So it begins with the step it takes. -/
theorem start_of_step (hr : Reach (Step Env) (serving lib ops d₀) s) {i : ι}
    (hone : ∀ free d d' c, (Call.start ((ops i).prog lib)).next free d = some (d', c) →
      c.ended = true) (hst : Step Env (.go i) s s') :
    ∃ free d c, (Call.start ((ops i).prog lib)).next free s.shared = some (d, c) ∧
      s'.shared = d ∧ s'.calls i = c := by
  obtain ⟨free, -, d, c, hn, rfl⟩ := hst
  rcases start_or_ended hr hone with h | h
  · exact ⟨free, d, c, h ▸ hn, rfl, Function.update_self ..⟩
  · cases hc : s.calls i <;> rw [hc] at h hn
    · cases h
    · cases hn
    · cases hn

/-- **A request is answered by what the tables say at that moment.** -/
theorem answer_of_step (hr : Reach (Step Env) (serving lib ops d₀) s) {i : ι} {token : String}
    (hop : ops i = .request (some token)) (hst : Step Env (.go i) s s') :
    s'.calls i = .done (answerTo (s.shared.resolve (lib.hashToken token))) [] := by
  have hnext : ∀ free d d' c, (Call.start ((ops i).prog lib)).next free d = some (d', c) →
      c = .done (answerTo (d.resolve (lib.hashToken token))) [] := by
    intro free d d' c hn
    rw [hop, start_request] at hn
    cases hn
    beta_reduce
    cases d.resolve (lib.hashToken token) <;> rfl
  obtain ⟨free, d, c, hn, -, rfl⟩ := start_of_step hr
    (fun free d d' c hn => by rw [hnext free d d' c hn]; rfl) hst
  exact hnext _ _ _ _ hn

/-- A logout revokes the session its cookie names. -/
theorem revoked_of_step (hr : Reach (Step Env) (serving lib ops d₀) s) {i : ι} {token : String}
    (hop : ops i = .logout (some token)) (hst : Step Env (.go i) s s') :
    s'.shared = s.shared.revokeSession (lib.hashToken token) := by
  obtain ⟨free, d, c, hn, hd, -⟩ := start_of_step hr
    (fun free d d' c hn => by rw [hop] at hn; cases hn; rfl) hst
  rw [hop] at hn
  cases hn
  exact hd

/-! ### No session without credentials -/

/-- The session was given to a registration of its user, or to a login with its user's password. -/
inductive Grants (lib : Library) (d : Directory) (row : SessionRow) : Op → Prop
  | register {input : RegisterInput} {random : Randomness} {u : UserRow} : u ∈ d.users →
      u.id = row.userId → u.email = some input.email →
      u.passwordHash = lib.hashPassword random.salt input.password →
      row.tokenHash = lib.hashToken random.rawToken → Grants lib d row (.register input random)
  | login {email password rawToken hash : String} {u : UserRow} : u ∈ d.users →
      u.id = row.userId → u.email.map lib.lower = some (lib.lower email) →
      u.passwordHash = some hash → lib.verifyPassword password hash = true →
      row.tokenHash = lib.hashToken rawToken → Grants lib d row (.login email password rawToken)

theorem Grants.later {row row' : SessionRow} {op : Op} (h : Grants lib d row op)
    (hstays : row.Stays row') (hl : Later d d') : Grants lib d' row' op := by
  have huser : row'.userId = row.userId := by rw [hstays.eq]
  have htoken : row'.tokenHash = row.tokenHash := by rw [hstays.eq]
  cases h with
  | register hu hid he hp ht =>
    exact .register (hl.users.subset hu) (hid.trans huser.symm) he hp (htoken.trans ht)
  | login hu hid he hp hv ht =>
    exact .login (hl.users.subset hu) (hid.trans huser.symm) he hp hv (htoken.trans ht)

/-- A request that changes the tables from `d` to `d'` is given the session, which is new and ends
at most 30 days later. -/
structure Given (lib : Library) (row : SessionRow) (op : Op) (d d' : Directory) : Prop where
  new : ∀ row' ∈ d.sessions, row'.tokenHash ≠ row.tokenHash
  stored : ∃ row' ∈ d'.sessions, row'.Stays row
  grants : Grants lib d' row op
  inTime : row.expiresAt ≤ d.clock + sessionTtl

theorem Given.stays {row row' : SessionRow} {op : Op} (h : Given lib row op d d')
    (hstays : row.Stays row') : Given lib row' op d d' where
  new row₀ hrow₀ := by
    rw [hstays.eq]
    exact h.new row₀ hrow₀
  stored := by
    obtain ⟨row₀, hrow₀, hs⟩ := h.stored
    exact ⟨row₀, hrow₀, hs.trans hstays⟩
  grants := h.grants.later hstays (.refl d')
  inTime := by
    rw [hstays.eq]
    exact h.inTime

/-- A session is new if its token hash may be written. -/
theorem new_of_keys {row : SessionRow} (h : Key.tokenHash row.tokenHash ∉ d.keys lib) :
    ∀ row' ∈ d.sessions, row'.tokenHash ≠ row.tokenHash := fun _ hrow' he =>
  h (List.mem_append_right _ (he ▸ List.mem_map_of_mem hrow'))

/-- The sessions after a request are those before it, and the one it is given: a registration gives
its session to itself, and a login to its user. -/
theorem Does.session {ℓ : List Key} {ids : List ℕ} {op : Op} (h : Does lib ℓ ids op d d')
    {row : SessionRow} (hrow : row ∈ d'.sessions) :
    (∃ row₀ ∈ d.sessions, row₀.Stays row) ∨ Given lib row op d d' := by
  cases h with
  | @register input random _ r hreg hv =>
    rcases List.mem_append.1 (show row ∈ d.sessions ++ [r.session] from hrow) with hold | hnew
    · exact .inl ⟨row, hold, .refl row⟩
    · obtain rfl := List.mem_singleton.1 hnew
      obtain ⟨hash, hhash, huser⟩ := hreg.user
      obtain ⟨t, ht, hsession⟩ := hreg.session
      have hkey := hv.new (w := .insertSession r.session) (by simp [Registration.writes])
        (List.mem_singleton_self _)
      refine .inr ⟨new_of_keys hkey, ⟨_, hrow, .refl _⟩, ?_, ?_⟩
      · rw [hsession]
        refine .register (List.mem_append_right _ (List.mem_singleton_self _)) rfl ?_ ?_ rfl
        · rw [huser]
        · rw [huser, hhash]
      · rw [hsession]
        exact Nat.add_le_add_right ht _
  | @login email password rawToken _ row₁ hadmits hv =>
    rcases List.mem_append.1 (show row ∈ d.sessions ++ [row₁] from hrow) with hold | hnew
    · exact .inl ⟨row, hold, .refl row⟩
    · obtain rfl := List.mem_singleton.1 hnew
      obtain ⟨u, hash, hu, hid, hhash, hverify⟩ := hadmits.user
      obtain ⟨t, ht, hsession⟩ := hadmits.row
      have hkey := hv.new (List.mem_singleton_self _) (List.mem_singleton_self _)
      refine .inr ⟨new_of_keys hkey, ⟨_, hrow, .refl _⟩, ?_, ?_⟩
      · refine .login (List.mem_of_find?_eq_some hu) hid ?_ hhash hverify ?_
        · simpa using List.find?_some hu
        · rw [hsession]
      · rw [hsession]
        exact Nat.add_le_add_right ht _
  | logout =>
    -- A logout gives no session; it revokes the one with the token.
    obtain ⟨row₀, hrow₀, rfl | ⟨rfl, -⟩⟩ := mem_revokeSession hrow
    · exact .inl ⟨_, hrow₀, .refl _⟩
    · exact .inl ⟨row₀, hrow₀, rfl, fun _ => rfl⟩

/-- The session is one of those there were at the start, or a request was given it in a step of the
run. -/
def Vouched (lib : Library) (ops : ι → Op) (d₀ : Directory) (row : SessionRow)
    (s : Sys ι Directory Write Key Unit ApiError Answer) : Prop :=
  (∃ row₀ ∈ d₀.sessions, row₀.Stays row) ∨
    ∃ k s₁ s₂, Reach (Step Env) (serving lib ops d₀) s₁ ∧ Step Env (.go k) s₁ s₂ ∧
      Reach (Step Env) s₂ s ∧ Given lib row (ops k) s₁.shared s₂.shared

/-- It stays so. -/
theorem Vouched.tail {row row' : SessionRow} {e : Event ι} (h : Vouched lib ops d₀ row s)
    (hstays : row.Stays row') (hst : Step Env e s s') : Vouched lib ops d₀ row' s' := by
  rcases h with ⟨row₀, hrow₀, h⟩ | ⟨k, s₁, s₂, hr, hgo, hr', hgiven⟩
  · exact .inl ⟨row₀, hrow₀, h.trans hstays⟩
  · exact .inr ⟨k, s₁, s₂, hr, hgo, hr'.tail ⟨e, hst⟩, hgiven.stays hstays⟩

theorem vouched_of_reach (hwf : Wf lib d₀) (hr : Reach (Step Env) (serving lib ops d₀) s) :
    ∀ row ∈ s.shared.sessions, Vouched lib ops d₀ row s := by
  refine hr.invariant (I := fun s => ∀ row ∈ s.shared.sessions, Vouched lib ops d₀ row s)
    (fun row hrow => .inl ⟨row, hrow, .refl row⟩) fun s e s' hs h hst => ?_
  have hkeep : s'.shared.sessions = s.shared.sessions →
      ∀ row ∈ s'.shared.sessions, Vouched lib ops d₀ row s' := fun he row hrow =>
    (h row (he ▸ hrow)).tail (.refl row) hst
  have hm := moved_of_reach hwf hs hst
  generalize hd' : s'.shared = d' at hm
  rw [hd'] at hkeep
  cases hm with
  | go i d _ hch =>
    rcases hch with hd | hd | hd
    · exact hkeep (by rw [hd])
    · exact hkeep (by rw [hd]; rfl)
    · intro row hrow
      rcases hd.session hrow with ⟨row₀, hrow₀, hstays⟩ | hgiven
      · exact (h row₀ hrow₀).tail hstays hst
      · exact .inr ⟨i, s, s', hs, hst, .refl, hd'.symm ▸ hgiven⟩
  | crash i => exact hkeep rfl
  | env d he =>
    cases he
    exact hkeep rfl

/-- The session with a token hash is good. -/
def SessionRow.Live (row : SessionRow) (hash : String) (now : Time) : Prop :=
  row.tokenHash = hash ∧ row.revokedAt = none ∧ now < row.expiresAt

theorem resolve_eq_some {hash : String} {session : Session} (h : d.resolve hash = some session) :
    ∃ row ∈ d.sessions, row.Live hash d.clock ∧
      ∃ x, d.context row.userId = some x ∧ session = sessionOf x.1 x.2 := by
  obtain ⟨row, hrow, hcontext⟩ := Option.bind_eq_some_iff.1 h
  obtain ⟨x, hx, rfl⟩ := Option.map_eq_some_iff.1 hcontext
  have hlive := List.find?_some hrow
  simp only [Bool.and_eq_true, decide_eq_true_eq, Option.isNone_iff_eq_none] at hlive
  exact ⟨row, List.mem_of_find?_eq_some hrow, ⟨hlive.1.1, hlive.1.2, hlive.2⟩, x, hx, rfl⟩

/-- **No session without credentials**: when a request is carried out for a user, its token has the
hash of a token that was given, in a step at most 30 days before the session ends, to a registration
of that user or to a login with its email and password, unless the session was there from the
start. -/
theorem vouched_of_request (hwf : Wf lib d₀) (hr : Reach (Step Env) (serving lib ops d₀) s) {i : ι}
    {token : String} (hop : ops i = .request (some token)) (hst : Step Env (.go i) s s')
    {session : Session} {made : List (Directory × Directory)}
    (hans : s'.calls i = .done (.ok (.session session)) made) :
    ∃ row ∈ s.shared.sessions, row.Live (lib.hashToken token) s.shared.clock ∧
      row.userId = session.userId ∧ Vouched lib ops d₀ row s := by
  have hdone := answer_of_step hr hop hst
  rw [hans] at hdone
  have hfound : s.shared.resolve (lib.hashToken token) = some session := by
    cases hres : s.shared.resolve (lib.hashToken token) with
    | none =>
      rw [hres] at hdone
      cases hdone
    | some session' =>
      rw [hres] at hdone
      cases hdone
      rfl
  obtain ⟨row, hrow, hlive, ⟨u, c⟩, hx, rfl⟩ := resolve_eq_some hfound
  refine ⟨row, hrow, hlive, ?_, vouched_of_reach hwf hr row hrow⟩
  obtain ⟨u', hu', hc⟩ := Option.bind_eq_some_iff.1 hx
  obtain ⟨c', -, he⟩ := Option.map_eq_some_iff.1 hc
  cases he
  have hid : u.id = row.userId := by simpa using List.find?_some hu'
  exact hid.symm

/-! ### Sessions that have ended -/

/-- The session with a token hash has been revoked or has expired. -/
def Dead (hash : String) (d : Directory) : Prop :=
  ∃ row ∈ d.sessions, row.tokenHash = hash ∧ (row.revokedAt.isSome ∨ row.expiresAt ≤ d.clock)

theorem Dead.later {hash : String} (h : Dead hash d) (hl : Later d d') : Dead hash d' := by
  obtain ⟨row, hrow, hhash, hend⟩ := h
  obtain ⟨row', hrow', hstays⟩ := hl.sessions row hrow
  have htoken : row'.tokenHash = row.tokenHash := by rw [hstays.eq]
  have hexpires : row'.expiresAt = row.expiresAt := by rw [hstays.eq]
  exact ⟨row', hrow', htoken.trans hhash,
    hend.imp hstays.revoked fun hle => hexpires.le.trans (hle.trans hl.clock)⟩

/-- A token hash names one session. -/
theorem Wf.session_of_hash (h : Wf lib d) {row row' : SessionRow} (hrow : row ∈ d.sessions)
    (hrow' : row' ∈ d.sessions) (he : row.tokenHash = row'.tokenHash) : row = row' := by
  have hn := (List.nodup_append.1 h.keys).2.1
  exact List.inj_on_of_nodup_map hn hrow hrow' (congrArg Key.tokenHash he)

theorem Dead.resolve {hash : String} (h : Dead hash d) (hwf : Wf lib d) :
    d.resolve hash = none := by
  obtain ⟨row, hrow, hhash, hend⟩ := h
  cases hres : d.resolve hash with
  | none => rfl
  | some session =>
    obtain ⟨row', hrow', ⟨hhash', hrevoked, hexpires⟩, -⟩ := resolve_eq_some hres
    rw [hwf.session_of_hash hrow' hrow (hhash'.trans hhash.symm)] at hrevoked hexpires
    rcases hend with hend | hend
    · rw [hrevoked] at hend
      cases hend
    · exact absurd hexpires (Nat.not_lt.2 hend)

/-- A logout ends the session its cookie names. -/
theorem dead_revokeSession {hash : String} {row : SessionRow} (hrow : row ∈ d.sessions)
    (hhash : row.tokenHash = hash) : Dead hash (d.revokeSession hash) := by
  refine ⟨_, List.mem_map_of_mem hrow, ?_⟩
  split
  case isTrue => exact ⟨hhash, .inl rfl⟩
  case isFalse hm =>
    refine ⟨hhash, .inl ?_⟩
    simp only [Bool.and_eq_true, decide_eq_true_eq, not_and] at hm
    simpa [Option.isSome_iff_ne_none] using hm hhash

theorem later_of_reach (hwf : Wf lib d₀) (hr : Reach (Step Env) (serving lib ops d₀) s)
    (hr' : Reach (Step Env) s s') : Later s.shared s'.shared := by
  induction hr' with
  | refl => exact .refl _
  | tail hr' hst ih =>
    obtain ⟨e, he⟩ := hst
    exact ih.trans (later_of_step hwf (hr.trans hr') he)

/-- **A session that has ended has ended for good**: once a logout with its token is carried out, or
its time is over, every later request with the token is turned away. -/
theorem refused_of_reach (hwf : Wf lib d₀)
    {s₁ s₂ s₃ s₄ : Sys ι Directory Write Key Unit ApiError Answer}
    (hr : Reach (Step Env) (serving lib ops d₀) s₁) {token : String} {row : SessionRow}
    (hrow : row ∈ s₁.shared.sessions) (hhash : row.tokenHash = lib.hashToken token)
    (hend : (∃ j, ops j = .logout (some token) ∧ Step Env (.go j) s₁ s₂) ∨
      row.expiresAt ≤ s₁.shared.clock ∧ s₂ = s₁)
    (hr' : Reach (Step Env) s₂ s₃) {i : ι} (hop : ops i = .request (some token))
    (hst : Step Env (.go i) s₃ s₄) : s₄.calls i = .done (.error signIn) [] := by
  have hdead : Dead (lib.hashToken token) s₂.shared ∧ Reach (Step Env) (serving lib ops d₀) s₂ := by
    rcases hend with ⟨j, hj, hst₁⟩ | ⟨hle, rfl⟩
    · refine ⟨?_, hr.tail ⟨_, hst₁⟩⟩
      rw [revoked_of_step hr hj hst₁]
      exact dead_revokeSession hrow hhash
    · exact ⟨⟨row, hrow, hhash, .inr hle⟩, hr⟩
  obtain ⟨hdead, hr₂⟩ := hdead
  have hr₃ := hr₂.trans hr'
  rw [answer_of_step hr₃ hop hst,
    (hdead.later (later_of_reach hwf hr₂ hr')).resolve (wf_of_reach hwf hr₃)]
  rfl

/-! ### Whoever has registered can log in -/

/-- The user with an email, and the customer that belongs to it. -/
def Known (lib : Library) (email : String) (u : UserRow) (c : CustomerRow) (d : Directory) : Prop :=
  d.userByEmail lib email = some u ∧ d.context u.id = some (u, c)

theorem Known.later {email : String} {u : UserRow} {c : CustomerRow}
    (h : Known lib email u c d) (hl : Later d d') : Known lib email u c d' :=
  ⟨hl.userByEmail h.1, hl.context h.2⟩

/-- Nothing is asked of the statements. -/
def Anywhere {A : Type} (_ : Tx A) (_ : Local Directory Write Key Unit) : Prop := True

theorem points_insertSession {S : Directory → Prop} {loc : Local Directory Write Key Unit}
    (id userId : Uuid) (hash : String) (expiresAt : Time) :
    (insertSession id userId hash expiresAt).Points S Anywhere
      (fun r _ => r = .ok () ∨ r = .error .serverError) loc := by
  simp only [insertSession, Prog.bind_eq, Prog.bind]
  refine ⟨trivial, fun _ _ _ _ => ⟨trivial, fun d _ => ?_⟩⟩
  dsimp only
  split
  · exact .inr rfl
  · exact .inl rfl

/-- A login that finds the user and accepts the password succeeds, or the database fails. -/
theorem points_login {email password rawToken hash : String} {u : UserRow} {c : CustomerRow}
    (hhash : u.passwordHash = some hash) (hverify : lib.verifyPassword password hash = true)
    {loc : Local Directory Write Key Unit} :
    (login lib email password rawToken).Points (Known lib email u c) Anywhere
      (fun r _ => r = .ok ⟨sessionOf u c, rawToken⟩ ∨ r = .error .serverError) loc := by
  simp only [login, findUserByEmail, Prog.bind_eq, Prog.pure_eq, Prog.bind]
  by_cases hnul : hasNul email = true
  · simp only [hnul, if_true, Prog.bind]
    exact .inr rfl
  · simp only [hnul, Bool.false_eq_true, if_false, Prog.bind]
    refine ⟨trivial, fun d hd => ?_⟩
    simp only [hd.1, hhash, hverify, Bool.not_true, Bool.false_eq_true, if_false]
    refine ⟨trivial, fun d hd => ?_⟩
    simp only [hd.2]
    refine ⟨trivial, fun n => ⟨trivial, fun d _ => ?_⟩⟩
    refine points_bind_of (points_insertSession _ _ _ _)
      (fun _ _ _ => trivial) ?_ fun e loc' he => ?_
    · exact fun _ loc' _ => ⟨trivial, fun d _ => .inl rfl⟩
    · rcases he with he | he <;> cases he
      exact .inr rfl

/-- A registration leaves its user and customer known. -/
theorem known_of_registers {input : RegisterInput} {random : Randomness} {now : Time}
    {r : Registration} (hwf : Wf lib d) (hr : Registers lib input random now r) {ℓ : List Key}
    {ids : List ℕ} (hv : Valid lib ℓ ids d r.writes) :
    Known lib input.email r.user r.customer (applyAll r.writes d) := by
  obtain ⟨hash, -, huser⟩ := hr.user
  obtain ⟨draw, -, hcustomer⟩ := hr.customer
  obtain ⟨hfirst, -⟩ := hv
  have hemail : r.user.email = some input.email := by rw [huser]
  have hkey := (hfirst.keys (.email (lib.lower input.email))
    (by simp [Write.keys, UserRow.key, hemail])).2
  have hid := (hfirst.ids r.user.id (List.mem_singleton_self _)).2.1
  have husers : ∀ u ∈ d.users, u.id ≠ r.user.id := fun u hu he => hid <| by
    simp only [Directory.ids, List.mem_append]
    exact .inl (.inl (.inl (he ▸ List.mem_map_of_mem hu)))
  constructor
  · -- Nobody has had the email.
    have hnone : d.users.find? (fun u => u.email.map lib.lower = some (lib.lower input.email)) =
        none := by
      refine List.find?_eq_none.2 fun u hu he => hkey ?_
      refine List.mem_append_left _ (List.mem_append_left _ (List.mem_filterMap.2 ⟨u, hu, ?_⟩))
      obtain ⟨e, he, hlower⟩ := Option.map_eq_some_iff.1 (of_decide_eq_true he)
      rw [UserRow.key, he, Option.map_some, hlower]
    show (d.users ++ [r.user]).find? _ = some r.user
    rw [List.find?_append, hnone, Option.none_or, List.find?_singleton, hemail]
    simp
  · -- No customer has belonged to a user with this id.
    have hnone : d.users.find? (fun u => u.id = r.user.id) = none :=
      List.find?_eq_none.2 fun u hu he => husers u hu (of_decide_eq_true he)
    have hnone' : d.customers.find? (fun c => c.primaryUserId = r.user.id) = none := by
      refine List.find?_eq_none.2 fun c hc he => ?_
      obtain ⟨u, hu, howner⟩ := hwf.owners c hc
      exact husers u hu (howner.trans (of_decide_eq_true he))
    have hprimary : r.customer.primaryUserId = r.user.id := by rw [hcustomer]
    show (((d.users ++ [r.user]).find? _).bind fun u =>
      ((d.customers ++ [r.customer]).find? _).map _) = _
    rw [List.find?_append, hnone, Option.none_or, List.find?_singleton]
    simp only [decide_true, if_true, Option.bind_some]
    rw [List.find?_append, hnone', Option.none_or, List.find?_singleton, hprimary]
    simp

/-- **Whoever has registered can log in**: a login that begins after a registration has succeeded,
with its password and its email up to case, finds the same user and customer, unless the database
fails. -/
theorem login_of_registered (hwf : Wf lib d₀)
    (hverify : ∀ salt password hash, lib.hashPassword salt password = some hash →
      lib.verifyPassword password hash = true)
    (hr : Reach (Step Env) (serving lib ops d₀) s) {i k : ι} {input : RegisterInput}
    {random : Randomness} (hi : ops i = .register input random) {a : Authenticated}
    {made : List (Directory × Directory)}
    (ha : s.calls i = .done (.ok (.authenticated a)) made) {email rawToken : String}
    (hk : ops k = .login email input.password rawToken)
    (hemail : lib.lower email = lib.lower input.email)
    (hnew : s.calls k = .start ((ops k).prog lib)) (hr' : Reach (Step Env) s s')
    {r : Except ApiError Answer} {made' : List (Directory × Directory)}
    (hdone : s'.calls k = .done r made') :
    r = .ok (.authenticated ⟨a.session, rawToken⟩) ∨ r = .error .serverError := by
  have hpost := post_of_reach hwf hr ha
  rw [hi] at hpost
  obtain ⟨d, ℓ, ids, reg, hwfd, hmade, hreg, hv, he⟩ := hpost
  cases he
  obtain ⟨hash, hhash, huser⟩ := hreg.user
  -- The registration has committed, and what it stored is never taken back.
  have hlater : Later (applyAll reg.writes d) s.shared := by
    refine (ordered_of_reach hwf hr).after i (d, applyAll reg.writes d) ?_
    rw [ha, hmade]
    exact List.mem_singleton_self _
  have hknown : Known lib email reg.user reg.customer s.shared := by
    have h := (known_of_registers hwfd hreg hv).later hlater
    rwa [Known, Directory.userByEmail, ← hemail] at h
  have hpassword : reg.user.passwordHash = some hash := by rw [huser]
  have hpoints : (s.calls k).Points (Known lib email reg.user reg.customer) Anywhere
      (fun r _ => r = .ok (.authenticated ⟨sessionOf reg.user reg.customer, rawToken⟩) ∨
        r = .error .serverError) := by
    rw [hnew, hk]
    refine Call.points_settle (points_bind_of (points_login hpassword (hverify _ _ _ hhash))
      (fun _ _ _ => trivial) ?_ fun e loc he => ?_)
    · rintro b loc (hb | hb) <;> cases hb
      exact .inl rfl
    · rcases he with he | he <;> cases he
      exact .inr rfl
  obtain ⟨-, hans⟩ := points_of_reach hknown
    (fun _ _ _ hs hst h => h.later (later_of_step hwf (hr.trans hs) hst)) hpoints hr'
  rw [hdone] at hans
  obtain ⟨loc, -, h⟩ := hans
  exact h

end Runs

/-! ### A session from login to logout -/

/-- A registration, a login with the same email in capitals, and requests with its token before and
after a logout. -/
def sessionOps : Fin 5 → Op
  | 0 => sampleRegister "ada@b.co" "first" [sampleDraw]
  | 1 => .login "ADA@b.co" "longpassword" "second"
  | 2 => .request (some "second")
  | 3 => .logout (some "second")
  | 4 => .request (some "second")

theorem verify_sampleLibrary (salt password hash : String)
    (h : sampleLibrary.hashPassword salt password = some hash) :
    sampleLibrary.verifyPassword password hash = true := by
  obtain rfl := Option.some.inj h
  refine List.isPrefixOf_iff_prefix.2 ?_
  rw [String.toList_ofList]
  exact ⟨salt.toList, by simp⟩

/-- The login finds the registered user. -/
theorem login_of_registration :
    ∃ s s' a made', Reach (Step Env) (serving sampleLibrary sessionOps {}) s ∧
      authenticated (s.calls 0) = some a ∧ Reach (Step Env) s s' ∧
      s'.calls 1 = .done (.ok (.authenticated ⟨a.session, "second"⟩)) made' := by
  have h : ((play [0, 1, 2, 3, 4] (schedule [(0, 17)])
      (serving sampleLibrary sessionOps {})).any fun s => (authenticated (s.calls 0)).isSome &&
        (play [0, 1, 2, 3, 4] (schedule [(1, 8)]) s).any fun s' =>
          (authenticated (s'.calls 1)).isSome) = true := by decide +kernel
  obtain ⟨s, hs, h⟩ := (Option.any_eq_true ..).1 h
  rw [Bool.and_eq_true] at h
  obtain ⟨a, ha⟩ := Option.isSome_iff_exists.1 h.1
  obtain ⟨s', hs', h'⟩ := (Option.any_eq_true ..).1 h.2
  obtain ⟨b, hb⟩ := Option.isSome_iff_exists.1 h'
  obtain ⟨made, hdone⟩ := exists_of_authenticated ha
  obtain ⟨made', hdone'⟩ := exists_of_authenticated hb
  have hr : Reach (Step Env) (serving sampleLibrary sessionOps {}) s :=
    reach_of_play (by decide) (env_schedule _) hs
  have hr' : Reach (Step Env) s s' := reach_of_play (by decide) (env_schedule _) hs'
  have hnew : s.calls 1 = .start ((sessionOps 1).prog sampleLibrary) :=
    calls_of_play (by simp [schedule]) hs
  rcases login_of_registered (wf_empty _) verify_sampleLibrary hr rfl hdone rfl (by decide +kernel)
    hnew hr' hdone' with he | he
  · exact ⟨s, s', a, made', hr, ha, hr', he ▸ hdone'⟩
  · cases he

/-- The token of the login is good until the logout. -/
theorem vouched_of_login :
    ∃ s s' session, Reach (Step Env) (serving sampleLibrary sessionOps {}) s ∧
      Step Env (.go 2) s s' ∧ s'.calls 2 = .done (.ok (.session session)) [] ∧
      ∃ row ∈ s.shared.sessions, row.userId = session.userId ∧
        ∃ k s₁ s₂, Reach (Step Env) (serving sampleLibrary sessionOps {}) s₁ ∧
          Step Env (.go k) s₁ s₂ ∧ Reach (Step Env) s₂ s ∧
          Given sampleLibrary row (sessionOps k) s₁.shared s₂.shared := by
  have h : ((play [0, 1, 2, 3, 4] (schedule [(0, 17), (1, 8)])
      (serving sampleLibrary sessionOps {})).any fun s =>
        (s.shared.resolve (sampleLibrary.hashToken "second")).isSome &&
        (playMove [0, 1, 2, 3, 4] s (.go 2)).isSome) = true := by decide +kernel
  obtain ⟨s, hs, h⟩ := (Option.any_eq_true ..).1 h
  rw [Bool.and_eq_true] at h
  obtain ⟨session, hsession⟩ := Option.isSome_iff_exists.1 h.1
  obtain ⟨s', hs'⟩ := Option.isSome_iff_exists.1 h.2
  have hr : Reach (Step Env) (serving sampleLibrary sessionOps {}) s :=
    reach_of_play (by decide) (env_schedule _) hs
  have hst : Step Env (.go 2) s s' := step_of_playMove (by decide) (by simp) hs'
  have hdone : s'.calls 2 = .done (.ok (.session session)) [] := by
    rw [answer_of_step (i := 2) hr rfl hst, hsession]
    rfl
  obtain ⟨row, hrow, -, huser, hold | hgiven⟩ :=
    vouched_of_request (wf_empty _) hr rfl hst hdone
  · obtain ⟨row₀, hrow₀, -⟩ := hold
    cases hrow₀
  · exact ⟨s, s', session, hr, hst, hdone, row, hrow, huser, hgiven⟩

/-- After the logout it is refused. -/
theorem refused_of_logout :
    ∃ s₁ s₂ s₃, Reach (Step Env) (serving sampleLibrary sessionOps {}) s₁ ∧
      (s₁.shared.resolve (sampleLibrary.hashToken "second")).isSome ∧
      Step Env (.go 3) s₁ s₂ ∧ Step Env (.go 4) s₂ s₃ ∧
      s₃.calls 4 = .done (.error signIn) [] := by
  have h : ((play [0, 1, 2, 3, 4] (schedule [(0, 17), (1, 8)])
      (serving sampleLibrary sessionOps {})).any fun s =>
        (s.shared.resolve (sampleLibrary.hashToken "second")).isSome &&
        s.shared.sessions.any (fun row => row.tokenHash = sampleLibrary.hashToken "second") &&
        (playMove [0, 1, 2, 3, 4] s (.go 3)).any fun s' =>
          (playMove [0, 1, 2, 3, 4] s' (.go 4)).isSome) = true := by decide +kernel
  obtain ⟨s₁, hs₁, h⟩ := (Option.any_eq_true ..).1 h
  simp only [Bool.and_eq_true] at h
  obtain ⟨row, hrow, hhash⟩ := List.any_eq_true.1 h.1.2
  obtain ⟨s₂, hs₂, h₂⟩ := (Option.any_eq_true ..).1 h.2
  obtain ⟨s₃, hs₃⟩ := Option.isSome_iff_exists.1 h₂
  have hr : Reach (Step Env) (serving sampleLibrary sessionOps {}) s₁ :=
    reach_of_play (by decide) (env_schedule _) hs₁
  have hst₂ : Step Env (.go 3) s₁ s₂ := step_of_playMove (by decide) (by simp) hs₂
  have hst₃ : Step Env (.go 4) s₂ s₃ := step_of_playMove (by decide) (by simp) hs₃
  exact ⟨s₁, s₂, s₃, hr, h.1.1, hst₂, hst₃, refused_of_reach (wf_empty _) hr hrow
    (of_decide_eq_true hhash) (.inl ⟨3, rfl, hst₂⟩) .refl rfl hst₃⟩

end Kimana.Auth
