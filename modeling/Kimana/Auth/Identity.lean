import Kimana.Auth.AccountNumber
import Kimana.Auth.Run

/-!
# Whole registrations

* `registrations_of_reach` : **registrations are whole**: in every reachable state the users,
  customers, applications and audit rows that are new are those of the same registrations, each with
  its session.
* `registered_once` : **one account per email**: of any registrations that succeed no two have the
  same email up to case, the same user or the same account number.
* `slips_of_reach` : no slip turns one customer's account number into another's.
-/

namespace Kimana.Auth

open ReadCommitted Table

variable {lib : Library} {ι : Type} {ops : ι → Op} {d₀ d d' : Directory}

/-- The rows that are new since `d₀` are those of the registrations `rs`. -/
structure Grown (lib : Library) (ops : ι → Op) (d₀ : Directory) (rs : List Registration)
    (d : Directory) : Prop where
  users : d.users = d₀.users ++ rs.map (·.user)
  customers : d.customers = d₀.customers ++ rs.map (·.customer)
  applications : d.applications = d₀.applications ++ rs.map (·.application)
  audit : d.audit = d₀.audit ++ rs.map (·.audit)
  each : ∀ r ∈ rs, ∃ i input random, ops i = .register input random ∧
    Registers lib input random d.clock r
  sessions : ∀ r ∈ rs, ∃ row ∈ d.sessions, r.session.Stays row

theorem Registers.later {input : RegisterInput} {random : Randomness} {now now' : Time}
    {r : Registration} (h : Registers lib input random now r) (hle : now ≤ now') :
    Registers lib input random now' r := by
  obtain ⟨t, ht, hrow⟩ := h.session
  exact { h with session := ⟨t, ht.trans hle, hrow⟩ }

theorem Grown.refl (d : Directory) : Grown lib ops d [] d := by
  constructor <;> simp

/-- The tables stay but for their sessions. -/
theorem Grown.later {rs : List Registration} (h : Grown lib ops d₀ rs d) (hl : Later d d')
    (husers : d'.users = d.users) (hcustomers : d'.customers = d.customers)
    (happlications : d'.applications = d.applications) (haudit : d'.audit = d.audit) :
    Grown lib ops d₀ rs d' where
  users := husers.trans h.users
  customers := hcustomers.trans h.customers
  applications := happlications.trans h.applications
  audit := haudit.trans h.audit
  each r hr := by
    obtain ⟨i, input, random, hop, hreg⟩ := h.each r hr
    exact ⟨i, input, random, hop, hreg.later hl.clock⟩
  sessions r hr := by
    obtain ⟨row, hrow, hstays⟩ := h.sessions r hr
    obtain ⟨row', hrow', hstays'⟩ := hl.sessions row hrow
    exact ⟨row', hrow', hstays.trans hstays'⟩

/-- A registration adds its rows. -/
theorem Grown.register {rs : List Registration} (h : Grown lib ops d₀ rs d) {i : ι}
    {input : RegisterInput} {random : Randomness} (hop : ops i = .register input random)
    {r : Registration} (hr : Registers lib input random d.clock r) :
    Grown lib ops d₀ (rs ++ [r]) (applyAll r.writes d) where
  users := by
    rw [List.map_append, ← List.append_assoc, ← h.users]
    rfl
  customers := by
    rw [List.map_append, ← List.append_assoc, ← h.customers]
    rfl
  applications := by
    rw [List.map_append, ← List.append_assoc, ← h.applications]
    rfl
  audit := by
    rw [List.map_append, ← List.append_assoc, ← h.audit]
    rfl
  each r' hr' := by
    rcases List.mem_append.1 hr' with hr' | hr'
    · exact h.each r' hr'
    · rw [List.mem_singleton.1 hr']
      exact ⟨i, input, random, hop, hr⟩
  sessions r' hr' := by
    rcases List.mem_append.1 hr' with hr' | hr'
    · obtain ⟨row, hrow, hstays⟩ := h.sessions r' hr'
      exact ⟨row, List.mem_append_left _ hrow, hstays⟩
    · rw [List.mem_singleton.1 hr']
      exact ⟨r.session, List.mem_append_right _ (List.mem_singleton_self _), .refl _⟩

section Runs

variable [DecidableEq ι] {s : Sys ι Directory Write Key Unit ApiError Answer}

/-- **Registrations are whole**: whatever requests run and wherever they stop, the new users,
customers, applications and audit rows are those of the same registrations, each has its session,
and no email, account number or id is there twice. -/
theorem registrations_of_reach (hwf : Wf lib d₀) (hr : Reach (Step Env) (serving lib ops d₀) s) :
    Wf lib s.shared ∧ ∃ rs, Grown lib ops d₀ rs s.shared := by
  refine ⟨wf_of_reach hwf hr, ?_⟩
  refine hr.invariant (I := fun s => ∃ rs, Grown lib ops d₀ rs s.shared) ⟨[], .refl d₀⟩ ?_
  rintro s e s' hs ⟨rs, h⟩ hst
  have hm := moved_of_reach hwf hs hst
  have hl := later_of_step hwf hs hst
  generalize s'.shared = d' at hm hl
  cases hm with
  | go i d _ hch =>
    rcases hch with rfl | rfl | hd
    · exact ⟨rs, h⟩
    · exact ⟨rs, h.later hl rfl rfl rfl rfl⟩
    · have hdoes : Does lib (s.calls i).locks (s.calls i).ids (ops i) s.shared _ := hd
      generalize hop : ops i = op at hdoes
      cases hdoes with
      | register hreg _ => exact ⟨_, h.register hop hreg⟩
      | login | logout => exact ⟨rs, h.later hl rfl rfl rfl rfl⟩
  | crash i => exact ⟨rs, h⟩
  | env d he => cases he; exact ⟨rs, h.later hl rfl rfl rfl rfl⟩

/-! ### One account per email -/

/-- The keys and the user id of a registration. -/
structure Apart (lib : Library) (input input' : RegisterInput) (a a' : Authenticated) : Prop where
  email : lib.lower input.email ≠ lib.lower input'.email
  user : a.session.userId ≠ a'.session.userId
  customer : a.session.customerId ≠ a'.session.customerId
  accountNumber : a.session.accountNumber ≠ a'.session.accountNumber

theorem Apart.symm {input input' : RegisterInput} {a a' : Authenticated}
    (h : Apart lib input input' a a') : Apart lib input' input a' a :=
  ⟨h.email.symm, h.user.symm, h.customer.symm, h.accountNumber.symm⟩

/-- A registration that comes after another finds its rows. -/
theorem apart_of_later {input input' : RegisterInput} {random random' : Randomness}
    {now now' : Time} {r r' : Registration} (hr : Registers lib input random now r)
    (hr' : Registers lib input' random' now' r') {ℓ : List Key} {ids : List ℕ}
    (hv : Valid lib ℓ ids d' r'.writes) (hl : Later (applyAll r.writes d) d')
    (token token' : String) :
    Apart lib input input' ⟨sessionOf r.user r.customer, token⟩
      ⟨sessionOf r'.user r'.customer, token'⟩ := by
  obtain ⟨hash, -, huser⟩ := hr.user
  obtain ⟨hash', -, huser'⟩ := hr'.user
  have hmem : r.user ∈ d'.users :=
    hl.users.subset (List.mem_append_right _ (List.mem_singleton_self _))
  have hmem' : r.customer ∈ d'.customers :=
    hl.customers.subset (List.mem_append_right _ (List.mem_singleton_self _))
  have hemail : r.user.email = some input.email := by rw [huser]
  have hemail' : r'.user.email = some input'.email := by rw [huser']
  obtain ⟨hfirst, hsecond, -⟩ := hv
  refine ⟨fun he => ?_, fun he => ?_, fun he => ?_, fun he => ?_⟩
  · refine (hfirst.keys (.email (lib.lower input.email)) ?_).2 ?_
    · simp [Write.keys, UserRow.key, hemail', he]
    · refine List.mem_append_left _
        (List.mem_append_left _ (List.mem_filterMap.2 ⟨r.user, hmem, ?_⟩))
      rw [UserRow.key, hemail]
      rfl
  · refine (hfirst.ids r'.user.id (List.mem_singleton_self _)).2.1 ?_
    rw [show r'.user.id = r.user.id from he.symm]
    simp only [Directory.ids, List.mem_append]
    exact .inl (.inl (.inl (List.mem_map_of_mem hmem)))
  · refine (hsecond.ids r'.customer.id (List.mem_singleton_self _)).2.1 (mem_ids_apply.2 (.inl ?_))
    rw [show r'.customer.id = r.customer.id from he.symm]
    simp only [Directory.ids, List.mem_append]
    exact .inl (.inl (.inr (List.mem_map_of_mem hmem')))
  · refine (hsecond.keys (.accountNumber r'.customer.accountNumber) (List.mem_singleton_self _)).2
      (mem_keys_apply.2 (.inl ?_))
    rw [show r'.customer.accountNumber = r.customer.accountNumber from he.symm]
    exact List.mem_append_left _ (List.mem_append_right _
      (List.mem_map.2 ⟨r.customer, hmem', rfl⟩))

/-- **One account per email**: of two registrations that succeed, whenever they run, neither has the
email of the other up to case, nor its user, its customer or its account number. -/
theorem registered_once (hwf : Wf lib d₀) (hr : Reach (Step Env) (serving lib ops d₀) s) {i j : ι}
    (hij : i ≠ j) {input input' : RegisterInput} {random random' : Randomness}
    (hi : ops i = .register input random) (hj : ops j = .register input' random')
    {a a' : Authenticated} {made made' : List (Directory × Directory)}
    (ha : s.calls i = .done (.ok (.authenticated a)) made)
    (ha' : s.calls j = .done (.ok (.authenticated a')) made') : Apart lib input input' a a' := by
  have hpost := post_of_reach hwf hr ha
  have hpost' := post_of_reach hwf hr ha'
  rw [hi] at hpost
  rw [hj] at hpost'
  obtain ⟨d, ℓ, ids, r, -, hmade, hreg, hv, he⟩ := hpost
  obtain ⟨d', ℓ', ids', r', -, hmade', hreg', hv', he'⟩ := hpost'
  cases he
  cases he'
  have hx : (d, applyAll r.writes d) ∈ (s.calls i).made := by
    rw [ha, hmade]
    exact List.mem_singleton_self _
  have hy : (d', applyAll r'.writes d') ∈ (s.calls j).made := by
    rw [ha', hmade']
    exact List.mem_singleton_self _
  -- One of the two came first.
  rcases (ordered_of_reach hwf hr).apart i j hij _ hx _ hy with hl | hl
  · exact apart_of_later hreg hreg' hv' hl _ _
  · exact (apart_of_later hreg' hreg hv hl _ _).symm

end Runs

/-! ### Three registrations at once -/

/-- Functions that stand for those of the libraries. -/
def sampleLibrary : Library where
  hashPassword salt password := some (.ofList (password.toList ++ ':' :: salt.toList))
  verifyPassword password hash := (password.toList ++ [':']).isPrefixOf hash.toList
  hashToken token := "#" ++ token
  lower text := .ofList (text.toList.map Char.toLower)

/-- A request to register. -/
def sampleRegister (email token : String) (draws : List Draw) : Op :=
  .register ⟨email, "longpassword", "Ada", "Ada Ltd"⟩ ⟨"salt", draws, token⟩

/-- A number that is drawn. -/
def sampleDraw : Draw := ⟨0, 23456789⟩

/-- Two have one email; the third draws a number that is taken, and then another. -/
def racingOps : Fin 3 → Op
  | 0 => sampleRegister "ada@b.co" "first" [sampleDraw]
  | 1 => sampleRegister "Ada@b.co" "second" [⟨1, 23456789⟩]
  | 2 => sampleRegister "bob@b.co" "third" [sampleDraw, ⟨2, 5⟩]

theorem wf_empty (lib : Library) : Wf lib {} := by
  constructor <;> simp [Directory.keys, Directory.ids]

/-- The session and token of a call that has registered or logged in. -/
def authenticated (c : Call Directory Write Key Unit ApiError Answer) : Option Authenticated :=
  match c with
  | .done (.ok (.authenticated a)) _ => some a
  | _ => none

theorem exists_of_authenticated {c : Call Directory Write Key Unit ApiError Answer}
    {a : Authenticated} (h : authenticated c = some a) :
    ∃ made, c = .done (.ok (.authenticated a)) made := by
  unfold authenticated at h
  split at h
  · cases h
    exact ⟨_, rfl⟩
  · cases h

/-- The second registration found no user and is overtaken; the first and the third succeed. -/
theorem registered_once_of_race :
    ∃ s a a', Reach (Step Env) (serving sampleLibrary racingOps {}) s ∧
      authenticated (s.calls 0) = some a ∧ authenticated (s.calls 2) = some a' ∧
      (s.calls 1).ended = true ∧ authenticated (s.calls 1) = none ∧
      a.session.accountNumber ≠ a'.session.accountNumber := by
  obtain ⟨s, hr, h⟩ := exists_reach_of_turns Env [0, 1, 2]
    [(1, 5), (0, 10), (2, 3), (0, 7), (1, 2), (2, 15)] (serving sampleLibrary racingOps {})
    (fun s => (authenticated (s.calls 0)).isSome && (authenticated (s.calls 2)).isSome &&
      (s.calls 1).ended && (authenticated (s.calls 1)).isNone) (by decide) (by decide +kernel)
  simp only [Bool.and_eq_true] at h
  obtain ⟨⟨⟨h₀, h₂⟩, hend⟩, h₁⟩ := h
  obtain ⟨a, ha⟩ := Option.isSome_iff_exists.1 h₀
  obtain ⟨a', ha'⟩ := Option.isSome_iff_exists.1 h₂
  obtain ⟨made, hdone⟩ := exists_of_authenticated ha
  obtain ⟨made', hdone'⟩ := exists_of_authenticated ha'
  exact ⟨s, a, a', hr, ha, ha', hend, Option.isNone_iff_eq_none.1 h₁,
    (registered_once (wf_empty _) hr (by decide) rfl rfl hdone hdone').accountNumber⟩

/-- The rows of the two that succeed. -/
theorem registrations_of_race :
    ∃ s rs, Reach (Step Env) (serving sampleLibrary racingOps {}) s ∧
      Grown sampleLibrary racingOps {} rs s.shared ∧ rs.length = 2 := by
  obtain ⟨s, hr, h⟩ := exists_reach_of_turns Env [0, 1, 2]
    [(1, 5), (0, 10), (2, 3), (0, 7), (1, 2), (2, 15)] (serving sampleLibrary racingOps {})
    (fun s => s.shared.users.length = 2) (by decide) (by decide +kernel)
  obtain ⟨-, rs, hgrown⟩ := registrations_of_reach (wf_empty _) hr
  refine ⟨s, rs, hr, hgrown, ?_⟩
  have hlength := congrArg List.length hgrown.users
  rw [of_decide_eq_true h, List.length_append, List.length_map] at hlength
  simpa using hlength.symm

/-! ### Account numbers -/

section Slips

variable [DecidableEq ι] {s : Sys ι Directory Write Key Unit ApiError Answer}

/-- **No slip makes one customer's account number out of another's**: neither one wrong digit nor
two swapped neighbours, unless these are 0 and 9. -/
theorem slips_of_reach (hwf : Wf lib d₀)
    (hwell : ∀ c ∈ d₀.customers, WellNumbered c.accountNumber)
    (hr : Reach (Step Env) (serving lib ops d₀) s) {c c' : CustomerRow}
    (hc : c ∈ s.shared.customers) (hc' : c' ∈ s.shared.customers) {xs ys : List Char} {x y : Char}
    (hne : x ≠ y) :
    (c.accountNumber.toList = xs ++ x :: ys → c'.accountNumber.toList ≠ xs ++ y :: ys) ∧
      (c.accountNumber.toList = xs ++ x :: y :: ys → ¬(x = '0' ∧ y = '9') → ¬(x = '9' ∧ y = '0') →
        c'.accountNumber.toList ≠ xs ++ y :: x :: ys) := by
  obtain ⟨-, rs, hgrown⟩ := registrations_of_reach hwf hr
  have hall : ∀ c ∈ s.shared.customers, WellNumbered c.accountNumber := by
    intro c hc
    rw [hgrown.customers] at hc
    rcases List.mem_append.1 hc with hc | hc
    · exact hwell c hc
    · obtain ⟨r, hmem, rfl⟩ := List.mem_map.1 hc
      obtain ⟨i, input, random, -, hreg⟩ := hgrown.each r hmem
      obtain ⟨draw, -, hrow⟩ := hreg.customer
      rw [hrow]
      exact wellNumbered_candidate draw
  exact ⟨fun h => (hall c hc).ne_of_mistyped (hall c' hc') h hne,
    fun h => (hall c hc).ne_of_swapped (hall c' hc') h hne⟩

end Slips

/-- The slips of a number that is handed out. -/
theorem slips_of_race :
    ∃ s c, Reach (Step Env) (serving sampleLibrary racingOps {}) s ∧ c ∈ s.shared.customers ∧
      c.accountNumber = "1234567897" ∧ ∀ c' ∈ s.shared.customers,
        c'.accountNumber ≠ "1234567887" ∧ c'.accountNumber ≠ "1234567879" := by
  obtain ⟨s, hr, h⟩ := exists_reach_of_turns Env [0, 1, 2] [(0, 17)]
    (serving sampleLibrary racingOps {})
    (fun s => s.shared.customers.any fun c => c.accountNumber = "1234567897") (by decide)
    (by decide +kernel)
  obtain ⟨c, hc, hnumber⟩ := List.any_eq_true.1 h
  have hnumber := of_decide_eq_true hnumber
  have hwrong : c.accountNumber.toList = "12345678".toList ++ '9' :: ['7'] := by
    rw [hnumber]
    decide
  refine ⟨s, c, hr, hc, hnumber, fun c' hc' => ⟨fun he => ?_, fun he => ?_⟩⟩
  · exact (slips_of_reach (wf_empty _) (by simp) hr hc hc' (by decide : '9' ≠ '8')).1 hwrong
      (by rw [he]; decide)
  · exact (slips_of_reach (wf_empty _) (by simp) hr hc hc' (by decide : '9' ≠ '7')).2 hwrong
      (by decide) (by decide) (by rw [he]; decide)

end Kimana.Auth
