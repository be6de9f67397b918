import Kimana.Onboarding.Statements
import Kimana.ReadCommitted.Point

/-!
# Status, summary, reasons and ceiling

What an application shows besides its status goes with the status.

* `ApplicationRow.Consistent` : the summary is there exactly when approved, reasons exactly when
  rejected, and the customer's ceiling is that of the rating the summary names.
* `consistent_of_reach` : **it holds in every committed state**.
-/

namespace Kimana.Onboarding

open ReadCommitted Table Kyb

/-- A customer's per-transfer ceiling. -/
def Records.ceiling (d : Records) (customerId : Uuid) : Option (Option ℤ) :=
  (d.customers.find? fun c => c.id = customerId).map (·.maxTransferAmountMinor)

/-- A summary names a rating, whose ceiling this is. -/
def Rated (summary : Option ApprovedAccountSummary) (ceiling : Option (Option ℤ)) : Prop :=
  ∃ rating : RiskRating, summary.map (·.riskRatingLabel) = some rating.label ∧
    ceiling = some rating.transactionLimitMinor

/-- What an application shows goes with its status, for customers with these ceilings. -/
structure ApplicationRow.Consistent (ceiling : Uuid → Option (Option ℤ)) (a : ApplicationRow) :
    Prop where
  summary : a.approvedSummary.isSome ↔ a.status = .approved
  reasons : a.rejectionReasons.isSome ↔ a.status = .rejected
  nonempty : a.rejectionReasons ≠ some []
  limit : a.status = .approved → Rated a.approvedSummary (ceiling a.customerId)

/-- The applications, each with its customer. -/
def Records.owners (d : Records) : List (Uuid × Uuid) :=
  d.applications.map fun a => (a.id, a.customerId)

/-- Every application is consistent, and these are the applications and the customers. -/
structure Coherent (owners : List (Uuid × Uuid)) (held : List Uuid) (d : Records) : Prop where
  owners : d.owners = owners
  held : d.customers.map (·.id) = held
  rows : ∀ a ∈ d.applications, a.Consistent d.ceiling

/-- Each application has its own id and its own customer, who is stored. -/
structure Owned (owners : List (Uuid × Uuid)) (held : List Uuid) : Prop where
  ids : (owners.map (·.1)).Nodup
  customers : (owners.map (·.2)).Nodup
  held : ∀ o ∈ owners, o.2 ∈ held

section Coherent

variable {owners : List (Uuid × Uuid)} {held : List Uuid} {d d' : Records}

theorem Coherent.mem (h : Coherent owners held d) {a : ApplicationRow} (ha : a ∈ d.applications) :
    (a.id, a.customerId) ∈ owners := h.owners ▸ List.mem_map_of_mem ha

/-- A change that leaves what an application shows. -/
theorem Coherent.of_edit (h : Coherent owners held d) {p : ApplicationRow → Bool}
    {f : ApplicationRow → ApplicationRow}
    (hf : ∀ a, (f a).id = a.id ∧ (f a).customerId = a.customerId ∧ (f a).status = a.status ∧
      (f a).approvedSummary = a.approvedSummary ∧ (f a).rejectionReasons = a.rejectionReasons)
    (ha : d'.applications = updateWhere p f d.applications) (hc : d'.customers = d.customers) :
    Coherent owners held d' := by
  refine ⟨?_, by rw [hc, h.held], fun a' ha' => ?_⟩
  · rw [← h.owners, Records.owners, ha]
    exact map_updateWhere fun a => by rw [(hf a).1, (hf a).2.1]
  · obtain ⟨a, hmem, rfl⟩ := of_mem_updateWhere (ha ▸ ha')
    obtain ⟨hs, hr, hn, hl⟩ := h.rows a hmem
    have hceil : d'.ceiling = d.ceiling := by
      funext c
      rw [Records.ceiling, hc, Records.ceiling]
    split
    · obtain ⟨-, hcust, hst, hsum, hrea⟩ := hf a
      refine ⟨by rw [hsum, hst, hs], by rw [hrea, hst, hr], by rw [hrea]; exact hn, fun happ => ?_⟩
      rw [hsum, hcust, hceil]
      exact hl (hst ▸ happ)
    · exact ⟨hs, hr, hn, fun happ => hceil ▸ hl happ⟩

/-- A change elsewhere. -/
theorem Coherent.of_eq (h : Coherent owners held d) (ha : d'.applications = d.applications)
    (hc : d'.customers = d.customers) : Coherent owners held d' :=
  h.of_edit (p := fun _ => false) (f := id) (fun _ => ⟨rfl, rfl, rfl, rfl, rfl⟩)
    (by rw [ha, updateWhere_of_disjoint fun _ _ => rfl]) hc

/-- Statements that leave a status that is not approved, with the reasons it takes. -/
def Demotes (w : Write) : Prop :=
  ∃ id patch now, w = .patchStatus id patch now ∧ patch.approvedSummary = none ∧
    patch.status ≠ .approved ∧
    ((patch.rejectionReasons.filter fun r => !r.isEmpty).isSome ↔ patch.status = .rejected)

theorem Coherent.demote (h : Coherent owners held d) {w : Write} (hw : Demotes w) :
    Coherent owners held (w.apply d) := by
  obtain ⟨id, patch, now, rfl, hsum, hst, hrea⟩ := hw
  refine ⟨?_, h.held, fun a' ha' => ?_⟩
  · rw [← h.owners, Records.owners]
    exact map_updateWhere fun _ => rfl
  · obtain ⟨a, hmem, rfl⟩ := of_mem_updateWhere ha'
    split
    · refine ⟨?_, hrea, fun he => ?_, fun happ => absurd happ hst⟩
      · simp [ApplicationRow.patched, hsum, hst]
      · simpa using (Option.filter_eq_some_iff.1 he).2
    · exact h.rows a hmem

theorem ceiling_setTransferLimit {customerId c : Uuid} {limit : Option ℤ} :
    ((Write.setTransferLimit customerId limit).apply d).ceiling c =
      if c = customerId then (d.ceiling c).map fun _ => limit else d.ceiling c := by
  show Option.map _ ((updateWhere _ _ d.customers).find? _) = _
  unfold Records.ceiling
  by_cases hc : c = customerId
  · rw [if_pos hc, find?_updateWhere_of_imp ?_ ?_]
    · simp [Option.map_map, Function.comp_def]
    · exact fun _ => rfl
    · exact fun r hr => by simpa [hc] using hr
  · rw [if_neg hc, find?_updateWhere_of_disjoint ?_ ?_]
    · exact fun _ => rfl
    · intro r hr
      have hr : r.id = c := by simpa using hr
      simpa [hr] using hc

/-- A customer who is stored has a ceiling. -/
theorem Coherent.ceiling (h : Coherent owners held d) {c : Uuid} (hc : c ∈ held) :
    (d.ceiling c).isSome := by
  obtain ⟨row, hrow, rfl⟩ := List.mem_map.1 (h.held.symm ▸ hc)
  rw [Records.ceiling, Option.isSome_map, List.find?_isSome]
  exact ⟨row, hrow, by simp⟩

/-- An approval, together with the ceiling of its rating. -/
theorem Coherent.approve (hown : Owned owners held) (h : Coherent owners held d)
    {id customerId : Uuid}
    (hmem : (id, customerId) ∈ owners) {patch : StatusPatch} {now : Time} {rating : RiskRating}
    (hst : patch.status = .approved) (hrea : patch.rejectionReasons = none)
    (hsum : patch.approvedSummary.map (·.riskRatingLabel) = some rating.label) :
    Coherent owners held ((Write.setTransferLimit customerId rating.transactionLimitMinor).apply
      ((Write.patchStatus id patch now).apply d)) := by
  refine ⟨?_, ?_, fun a' ha' => ?_⟩
  · rw [← h.owners, Records.owners]
    exact map_updateWhere fun _ => rfl
  · rw [← h.held]
    exact map_updateWhere fun _ => rfl
  obtain ⟨a, ha, rfl⟩ := of_mem_updateWhere ha'
  split
  case isTrue hid =>
    have hid : a.id = id := by simpa using hid
    -- The ceiling belongs to a customer, and a customer has one application.
    have hcust : a.customerId = customerId := by
      have := List.inj_on_of_nodup_map hown.ids (h.mem ha) hmem hid
      exact congrArg Prod.snd this
    refine ⟨?_, ?_, ?_, fun _ => ⟨rating, hsum, ?_⟩⟩
    · have : patch.approvedSummary.isSome := by
        cases hp : patch.approvedSummary <;> simp [hp] at hsum ⊢
      simp [ApplicationRow.patched, hst, this]
    · simp [ApplicationRow.patched, hst, hrea]
    · simp [ApplicationRow.patched, hrea]
    · obtain ⟨limit, hlimit⟩ := Option.isSome_iff_exists.1 (h.ceiling (hown.held _ hmem))
      show Records.ceiling _ a.customerId = _
      rw [hcust, ceiling_setTransferLimit, if_pos rfl]
      show (d.ceiling customerId).map _ = _
      rw [hlimit]
      rfl
  case isFalse hid =>
    have hne : a.customerId ≠ customerId := fun he => by
      have := List.inj_on_of_nodup_map hown.customers (h.mem ha) hmem he
      exact hid (by simpa using congrArg Prod.fst this)
    obtain ⟨hs, hr, hn, hl⟩ := h.rows a ha
    refine ⟨hs, hr, hn, fun happ => ?_⟩
    rw [ceiling_setTransferLimit, if_neg hne]
    exact hl happ

/-- Statements that keep every application consistent by themselves. -/
def Harmless (w : Write) : Prop := ¬w.Patches ∧ ¬w.Limits ∨ Demotes w

theorem Coherent.apply (h : Coherent owners held d) {w : Write} (hw : Harmless w) :
    Coherent owners held (w.apply d) := by
  rcases hw with ⟨hp, hl⟩ | hw
  case inr => exact h.demote hw
  cases w with
  | patchStatus => exact absurd trivial hp
  | setTransferLimit => exact absurd trivial hl
  | saveBusiness | deletePrincipals | insertPrincipal =>
    refine h.of_edit ?_ rfl rfl
    exact fun _ => ⟨rfl, rfl, rfl, rfl, rfl⟩
  | _ => exact h.of_eq rfl rfl

theorem Coherent.files (h : Coherent owners held d) {u : Records → Records} (hu : Files u) :
    Coherent owners held (u d) := by
  obtain ⟨files, hd⟩ := hu d
  exact hd ▸ h.of_eq rfl rfl

end Coherent

/-! ### Calls -/

section Calls

variable {owners : List (Uuid × Uuid)} {held : List Uuid} {lower : String → String}
  {loc : Local Records Write Key Label} {A B : Type}

/-- What has been written and not yet committed keeps applications consistent. -/
def Pending (owners : List (Uuid × Uuid)) (held : List Uuid)
    (loc : Local Records Write Key Label) : Prop :=
  MayCommit (fun _ => Coherent owners held) (Coherent owners held) loc.pending

/-- The statements of a program keep applications consistent, and so does what it leaves
uncommitted. -/
def Sound (owners : List (Uuid × Uuid)) (held : List Uuid) (p : Tx A)
    (loc : Local Records Write Key Label) : Prop :=
  p.Points (Coherent owners held) (Prog.Stands (Coherent owners held))
    (fun _ loc' => Pending owners held loc') loc

theorem Saves.sound {p : Tx A} (hp : Saves Harmless (fun _ => True) p)
    (h : Pending owners held loc) :
    Sound owners held p loc :=
  stands_of_writes (fun _ _ hw hs => hs.apply hw) (fun _ _ hu hs => hs.files hu) hp.writes h

theorem Sound.bind {p : Tx B} {g : B → Tx A} (hp : Sound owners held p loc)
    (hg : ∀ b loc', Pending owners held loc' → Sound owners held (g b) loc') :
    Sound owners held (p.bind g) loc :=
  points_bind_of hp (fun _ _ => .bind) hg fun _ _ h => h

theorem most_harmless : Saves.Most Harmless := ⟨fun _ hp hl => .inl ⟨hp, hl⟩⟩

/-- The application found is the customer's. -/
theorem points_findByCustomer {customerId : Uuid} :
    (Repo.findByCustomer customerId).Points (Coherent owners held)
      (Prog.Stands (Coherent owners held))
      (fun r loc' => loc' = loc ∧ ∀ app, r = .ok (some app) → (app.row.id, customerId) ∈ owners)
      loc := by
  simp only [Repo.findByCustomer, Prog.bind_eq, Tx.query, Prog.pure_eq, Prog.bind]
  refine ⟨trivial, fun d hs => ?_⟩
  dsimp only
  split
  case h_2 => exact ⟨rfl, fun _ he => by cases he⟩
  case h_1 row hf =>
  have hmem := hs.mem (List.mem_of_find?_eq_some hf)
  have hcust : row.customerId = customerId := by simpa using List.find?_some hf
  refine ⟨trivial, fun d₁ _ => ⟨trivial, fun d₂ _ => ⟨rfl, fun app he => ?_⟩⟩⟩
  cases he
  exact hcust ▸ hmem

/-- The caller owns the application loaded. -/
theorem points_loadOwned {session : Session} {applicationId : Option Uuid} :
    (loadOwned session applicationId).Points (Coherent owners held)
      (Prog.Stands (Coherent owners held))
      (fun r loc' => loc' = loc ∧ ∀ app, r = .ok app → (app.row.id, session.customerId) ∈ owners)
      loc := by
  refine points_bind_of points_findByCustomer (fun _ _ => .bind) (fun r loc' h => ?_)
    fun _ _ h => ⟨h.1, fun _ he => by cases he⟩
  obtain ⟨rfl, hfound⟩ := h
  cases r with
  | none => exact ⟨rfl, fun _ he => by cases he⟩
  | some found =>
    have hmem := hfound found rfl
    cases applicationId with
    | none => exact ⟨rfl, fun _ he => by cases he; exact hmem⟩
    | some id =>
      dsimp only
      split
      · exact ⟨rfl, fun _ he => by cases he⟩
      · exact ⟨rfl, fun _ he => by cases he; exact hmem⟩

/-- An approval and the ceiling of its rating, written one after the other. -/
theorem sound_approve (hown : Owned owners held) {id customerId : Uuid}
    (hmem : (id, customerId) ∈ owners) {patch : StatusPatch} {now : Time} {rating : RiskRating}
    (hst : patch.status = .approved) (hrea : patch.rejectionReasons = none)
    (hsum : patch.approvedSummary.map (·.riskRatingLabel) = some rating.label)
    (h : Pending owners held loc) {p : Tx A} (hp : ∀ loc', Pending owners held loc' →
      Sound owners held p loc') :
    Sound owners held (do
      Repo.patchStatus now id patch
      setTransferLimit customerId rating.transactionLimitMinor
      p) loc := by
  refine ⟨trivial, fun _ _ _ _ => ⟨trivial, fun _ _ _ _ => hp _ fun d hs => ?_⟩⟩
  show Coherent _ _ (applyAll ((loc.pending ++ [_]) ++ [_]) d)
  rw [applyAll_append, applyAll_append]
  exact Coherent.approve hown (h d hs) hmem hst hrea hsum

/-- The reasons of a failed review are some. -/
theorem isSome_rejectionReasons {app : Application} (h : ¬(runChecks lower app).approved = true) :
    ((some (runChecks lower app).rejectionReasons).filter fun r => !r.isEmpty).isSome := by
  have hne : (runChecks lower app).rejectionReasons.isEmpty = false := Bool.eq_false_iff.2 h
  simp [Option.filter, hne]

/-- The decision of a review. -/
theorem sound_decision (hown : Owned owners held) {session : Session} {app : Application}
    (hmem : (app.row.id, session.customerId) ∈ owners) {business : BusinessDetails}
    {serial : String} {now : Time} (h : Pending owners held loc) :
    Sound owners held (decision session app business (runChecks lower app) serial now) loc := by
  have hmost := most_harmless
  unfold decision
  split
  case isTrue happ =>
    refine sound_approve hown hmem rfl rfl rfl h fun loc₁ h₁ => Saves.sound ?_ h₁
    exact (Saves.auditTransition hmost ..).bind fun _ => .write (hmost.most _ id id)
  case isFalse happ =>
    refine Saves.sound (.bind (.patchStatus (.inr ⟨_, _, now, rfl, rfl, by simp, ?_⟩)) fun _ =>
      Saves.auditTransition hmost ..) h
    exact iff_of_true (isSome_rejectionReasons happ) rfl

/-- A submission. -/
theorem sound_submit (hown : Owned owners held) {session : Session} {applicationId : Option Uuid}
    {serial : String} (h : Pending owners held loc) :
    Sound owners held (submit lower session applicationId serial) loc := by
  have hmost := most_harmless
  have hload : ((loadOwned session applicationId).noting fun d =>
      (·.withStage (d.stageOf session applicationId))).Points (Coherent owners held)
      (Prog.Stands (Coherent owners held)) (fun r loc' => Pending owners held loc' ∧
        ∀ app, r = .ok app → (app.row.id, session.customerId) ∈ owners) loc :=
    points_noting (fun _ _ => trivial) fun l => points_mono (fun _ _ h => h)
      (fun _ loc₁ h₁ => ⟨h₁.1 ▸ h, h₁.2⟩) points_loadOwned
  refine points_bind_of hload (fun _ _ => .bind) (fun app loc₁ ⟨h₁, hmem⟩ => ?_) fun _ _ he => he.1
  unfold review
  split
  case h_1 => exact h₁
  dsimp only
  split
  case isTrue => exact h₁
  have hmove : ∀ (status : OnboardingStatus) (mark : Bool) (now : Time), status ≠ .approved →
      status ≠ .rejected → Saves Harmless (fun _ => True) (Repo.patchStatus now app.row.id
        { status, markSubmitted := mark }) := fun status mark now ha hr =>
    .patchStatus (.inr ⟨_, _, now, rfl, rfl, ha, by simpa using hr⟩)
  refine Sound.bind (Saves.begin.sound h₁) fun now loc₂ h₂ => ?_
  refine Sound.bind ((hmove .submitted true now (by simp) (by simp)).sound h₂) fun _ loc₃ h₃ => ?_
  refine Sound.bind ((Saves.auditTransition hmost ..).sound h₃) fun _ loc₄ h₄ => ?_
  refine Sound.bind ((hmove .inReview false now (by simp) (by simp)).sound h₄) fun _ loc₅ h₅ => ?_
  refine Sound.bind ((Saves.auditTransition hmost ..).sound h₅) fun _ loc₆ h₆ => ?_
  refine Sound.bind (Saves.commit.sound h₆) fun _ _ h₆ => ?_
  refine Sound.bind ((Saves.mark trivial).sound h₆) fun _ loc₇ h₇ => ?_
  refine Sound.bind (Saves.begin.sound h₇) fun now loc₈ h₈ => ?_
  refine Sound.bind ((Saves.replaceKybChecks hmost ..).sound h₈) fun _ loc₉ h₉ => ?_
  refine Sound.bind (sound_decision hown (hmem app rfl) h₉) fun _ loc₁₀ h₁₀ => ?_
  refine Sound.bind (Saves.commit.sound h₁₀) fun _ _ h₁₀ => ?_
  exact Sound.bind ((Saves.mark trivial).sound h₁₀) fun _ loc₁₁ h₁₁ =>
    (Saves.loadOwned ..).sound h₁₁

/-- One application rescreened. -/
theorem sound_rescreen (hown : Owned owners held) {app : Application} {business : BusinessDetails}
    {serial : String} (happ : app.row.status = .approved)
    (hmem : (app.row.id, app.row.customerId) ∈ owners) (h : Pending owners held loc) :
    Sound owners held (rescreen lower app business serial) loc := by
  have hmost := most_harmless
  refine Sound.bind ?_ fun _ loc₁ h₁ => Saves.sound (.bind .commit fun _ => .ret _) h₁
  refine Sound.bind (Saves.begin.sound h) fun now loc₂ h₂ => ?_
  refine Sound.bind ((Saves.replaceKybChecks hmost ..).sound h₂) fun _ loc₃ h₃ => ?_
  exact sound_approve hown hmem happ rfl rfl h₃ fun loc₄ h₄ =>
    (Saves.write (hmost.most _ id id)).sound h₄

theorem sound_rescreenAll (hown : Owned owners held) {serials : Uuid → String}
    {apps : List Application} (happs : ∀ app ∈ apps, app.row.status = .approved ∧
      (app.row.id, app.row.customerId) ∈ owners) (h : Pending owners held loc) :
    Sound owners held (rescreenAll lower serials apps) loc := by
  induction apps generalizing loc with
  | nil => exact h
  | cons app apps ih =>
    have hrest := fun a ha => happs a (List.mem_cons_of_mem _ ha)
    obtain ⟨happ, hmem⟩ := happs app List.mem_cons_self
    unfold rescreenAll
    split
    · exact @ih (loc.at' _) hrest h
    · refine (sound_rescreen hown happ hmem h).bind fun outcome loc₁ h₁ => ?_
      have hih : Sound owners held (rescreenAll lower serials apps)
          (loc₁.at' (loc₁.label.withJob (loc₁.label.job.filter (· ≠ app.row.id)))) := ih hrest h₁
      exact hih.bind fun _ _ h₂ => h₂

theorem points_assembleAll {rows : List ApplicationRow} :
    (Repo.assembleAll rows).Points (Coherent owners held) (Prog.Stands (Coherent owners held))
      (fun r loc' => loc' = loc ∧ ∀ apps, r = .ok apps → apps.map (·.row) = rows) loc := by
  induction rows with
  | nil => exact ⟨rfl, fun _ he => by cases he; rfl⟩
  | cons row rows ih =>
    refine ⟨trivial, fun _ _ => ⟨trivial, fun _ _ => ?_⟩⟩
    show Prog.Points _ _ _ ((Repo.assembleAll rows).bind _) loc
    refine points_bind_of ih (fun _ _ => .bind) (fun apps loc' h => ?_)
      fun _ _ h => ⟨h.1, fun _ he => by cases he⟩
    exact ⟨h.1, fun _ he => by cases he; exact congrArg (row :: ·) (h.2 apps rfl)⟩

/-- The rescreening job. -/
theorem sound_rescreenApprovedCustomers (hown : Owned owners held) {serials : Uuid → String}
    (h : Pending owners held loc) :
    Sound owners held (rescreenApprovedCustomers lower serials) loc := by
  refine ⟨trivial, fun d hs => ?_⟩
  let rows := d.applications.filter fun a => a.status = .approved
  show Sound owners held ((Repo.assembleAll rows).bind _) (loc.at' _)
  refine points_bind_of points_assembleAll (fun _ _ => .bind) (fun apps loc₁ ⟨hloc, hrows⟩ => ?_)
    fun _ loc₁ he => he.1 ▸ h
  subst hloc
  refine sound_rescreenAll hown (fun app ha => ?_) h
  have hrow : app.row ∈ rows := hrows apps rfl ▸ List.mem_map_of_mem ha
  obtain ⟨hmem, happ⟩ := List.mem_filter.1 hrow
  exact ⟨by simpa using happ, hs.mem hmem⟩

theorem sound_prog (hown : Owned owners held) {isDigit : Char → Bool} (op : Op)
    (h : Pending owners held loc) : Sound owners held (op.prog isDigit lower) loc := by
  have hmost := most_harmless
  have hsilent : ∀ {A : Type} {p : Tx A}, Sound owners held p loc →
      Sound owners held (silently p) loc := fun hp => hp.bind fun _ _ h => h
  cases op with
  | saveBusinessDetails session business applicationId =>
    exact hsilent ((Saves.saveBusinessDetails hmost ..).sound h)
  | savePrincipals session principals applicationId =>
    exact hsilent ((Saves.savePrincipals hmost ..).sound h)
  | uploadDocument session upload applicationId millis os =>
    exact hsilent ((Saves.uploadDocument hmost ..).sound h)
  | retryDocumentUpload session documentId =>
    exact hsilent ((Saves.retryDocumentUpload hmost ..).sound h)
  | removeDocument session documentId os => exact hsilent ((Saves.removeDocument hmost ..).sound h)
  | submit session applicationId serial => exact hsilent (sound_submit hown h)
  | rescreenApprovedCustomers serials => exact hsilent (sound_rescreenApprovedCustomers hown h)

end Calls

/-! ### Every interleaving -/

section Runs

variable {ι : Type} [DecidableEq ι] {isDigit : Char → Bool} {lower : String → String}

/-- **In every committed state the account summary is there exactly when an application is approved,
rejection reasons exactly when it is rejected, and the customer of an approved one has the ceiling
of the rating its summary names.** -/
theorem consistent_of_reach (ops : ι → Op) {d₀ : Records}
    (hids : (d₀.applications.map (·.id)).Nodup)
    (hcustomers : (d₀.applications.map (·.customerId)).Nodup)
    (hheld : ∀ a ∈ d₀.applications, a.customerId ∈ d₀.customers.map (·.id))
    (h₀ : ∀ a ∈ d₀.applications, a.Consistent d₀.ceiling)
    {s : Sys ι Records Write Key Label ApiError Unit}
    (hr : Reach (Step Env) ⟨d₀, fun i => .start ((ops i).prog isDigit lower)⟩ s)
    {a : ApplicationRow} (ha : a ∈ s.shared.applications) : a.Consistent s.shared.ceiling := by
  have hown : Owned d₀.owners (d₀.customers.map (·.id)) := by
    refine ⟨?_, ?_, fun o ho => ?_⟩
    · simpa [Records.owners, Function.comp_def] using hids
    · simpa [Records.owners, Function.comp_def] using hcustomers
    · obtain ⟨a, ha, rfl⟩ := List.mem_map.1 ho
      exact hheld a ha
  refine (Preserves.reach (fun _ => preserves_stands fun d hs => hs.of_eq rfl rfl)
    (fun d d' hs he => ?_)
    ⟨rfl, rfl, h₀⟩ (fun i => sound_prog hown (ops i) fun _ hs => hs) hr).1.rows a ha
  obtain ⟨t, -, rfl⟩ := he
  exact hs.of_eq rfl rfl

/-- Business details are saved, submitted, rescreened, renamed and submitted again. -/
def reviews : Fin 5 → Op
  | 0 => .saveBusinessDetails sampleSession (sampleBusiness "Highrisk Exports") none
  | 1 => .submit sampleSession none "10000"
  | 2 => .rescreenApprovedCustomers fun _ => "10001"
  | 3 => .saveBusinessDetails sampleSession (sampleBusiness "Reject Traders") none
  | 4 => .submit sampleSession none "10002"

/-- The calls of `reviews` before they begin. -/
def beforeReviews : Sys (Fin 5) Records Write Key Label ApiError Unit :=
  ⟨sampleRecords, fun i => .start ((reviews i).prog Char.isDigit sampleLower)⟩

/-- A high risk is approved with its ceiling, while the rescreening job is under way. -/
theorem consistent_of_reviews : ∃ s : Sys (Fin 5) Records Write Key Label ApiError Unit,
    Reach (Step Env) beforeReviews s ∧ ∃ a ∈ s.shared.applications, a.status = .approved ∧
      s.shared.ceiling a.customerId = some (some 1000000) ∧ a.Consistent s.shared.ceiling := by
  obtain ⟨s, hr, hs⟩ := exists_reach_of_turns Env [0, 1, 2, 3, 4] [(0, 10), (1, 30), (2, 5)]
    beforeReviews (fun s => decide (∃ a ∈ s.shared.applications, a.status = .approved ∧
      s.shared.ceiling a.customerId = some (some 1000000))) (by decide) (by decide +kernel)
  obtain ⟨a, ha, happ, hlimit⟩ := of_decide_eq_true hs
  refine ⟨s, hr, a, ha, happ, hlimit,
    consistent_of_reach reviews (by decide) (by decide) (by decide)
    (fun a ha => ?_) hr ha⟩
  obtain rfl := List.mem_singleton.1 ha
  exact ⟨by decide, by decide, by decide, fun h => by cases h⟩

end Runs

end Kimana.Onboarding
