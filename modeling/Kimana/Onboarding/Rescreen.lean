import Kimana.Onboarding.Statements

/-!
# Rescreening and the status

The rescreening job writes back the status it has loaded, without looking whether it still holds.

* `Undisturbed` : nobody else changes the status of an application between the job's load of it
  and its write.
* `still_of_rescreen` : **then no statement of the job changes a status or rejection reasons**.
* `reapproved_of_rescreen` : else the job approves again what a review has rejected.
-/

namespace Kimana.Onboarding

open ReadCommitted Table Kyb

/-- Each application's status and rejection reasons. -/
def Records.verdicts (d : Records) :
    List (Uuid × OnboardingStatus × Option (List RejectionDetail)) :=
  d.applications.map fun a => (a.id, a.status, a.rejectionReasons)

/-- While a call holds the applications `l`, the others leave their statuses. -/
def Undisturbed (l : Label) (_ : Option Records) (d d' : Records) : Prop :=
  ∀ id ∈ l.job, d'.status id = d.status id

/-- Ids are unique, and an approved application has no rejection reasons. -/
structure Clean (d : Records) : Prop where
  nodup : (d.verdicts.map (·.1)).Nodup
  approved : ∀ v ∈ d.verdicts, v.2.1 = .approved → v.2.2 = none

/-- A change that leaves no approved application with rejection reasons. -/
structure Tidy (d d' : Records) : Prop where
  nextId : d.nextId ≤ d'.nextId
  clean : Clean d → Clean d'

/-- A change that leaves statuses and rejection reasons. -/
structure Still (d d' : Records) : Prop where
  nextId : d.nextId ≤ d'.nextId
  verdicts : d'.verdicts = d.verdicts

section Verdicts

variable {d d' d'' : Records}

theorem Tidy.refl (d : Records) : Tidy d d := ⟨le_rfl, fun h => h⟩

theorem Tidy.trans (h : Tidy d d') (h' : Tidy d' d'') : Tidy d d'' :=
  ⟨h.nextId.trans h'.nextId, fun hc => h'.clean (h.clean hc)⟩

theorem Still.refl (d : Records) : Still d d := ⟨le_rfl, rfl⟩

theorem Still.trans (h : Still d d') (h' : Still d' d'') : Still d d'' :=
  ⟨h.nextId.trans h'.nextId, h'.verdicts.trans h.verdicts⟩

theorem Clean.still (h : Clean d) (hs : Still d d') : Clean d' :=
  ⟨hs.verdicts ▸ h.nodup, hs.verdicts ▸ h.approved⟩

theorem Still.tidy (h : Still d d') : Tidy d d' := ⟨h.nextId, fun hc => hc.still h⟩

theorem application_of_mem (h : (d.applications.map (·.id)).Nodup) {a : ApplicationRow}
    (ha : a ∈ d.applications) : d.application a.id = some a := by
  cases hf : d.application a.id with
  | none => simpa using List.find?_eq_none.1 hf a ha
  | some b =>
    have hid : b.id = a.id := by simpa using List.find?_some hf
    rw [List.inj_on_of_nodup_map h (List.mem_of_find?_eq_some hf) ha hid]

theorem Clean.ids (h : Clean d) : (d.applications.map (·.id)).Nodup := by
  simpa [Records.verdicts, Function.comp_def] using h.nodup

theorem status_eq (d : Records) (id : Uuid) :
    d.status id = (d.verdicts.find? fun v => v.1 = id).map (·.2.1) := by
  simp [Records.status, Records.application, Records.verdicts, List.find?_map, Function.comp_def]

theorem Still.status (h : Still d d') (id : Uuid) : d'.status id = d.status id := by
  rw [status_eq, status_eq, h.verdicts]

theorem Still.of_files {u : Records → Records} (hu : Files u) : Still d (u d) := by
  obtain ⟨files, hd⟩ := hu d
  rw [hd]
  exact ⟨le_rfl, rfl⟩

/-- A statement other than a status change. -/
theorem still_apply {w : Write} (d : Records) (h : ¬w.Patches) : Still d (w.apply d) := by
  cases w with
  | patchStatus => exact absurd trivial h
  | saveBusiness | deletePrincipals | insertPrincipal =>
    exact ⟨le_rfl, map_updateWhere fun _ => rfl⟩
  | _ => exact ⟨le_rfl, rfl⟩

/-- A status change that approves without rejection reasons. -/
theorem tidy_patchStatus {id : Uuid} {patch : StatusPatch} {now : Time} (d : Records)
    (h : patch.status = .approved → patch.rejectionReasons = none) :
    Tidy d ((Write.patchStatus id patch now).apply d) := by
  refine ⟨le_rfl, fun hc => ⟨?_, fun v hv happ => ?_⟩⟩
  · have := hc.nodup
    simp only [Records.verdicts, List.map_map, Function.comp_def] at this ⊢
    have hids : (updateWhere (fun a : ApplicationRow => a.id = id) (·.patched patch now)
        d.applications).map (·.id) = d.applications.map (·.id) := map_updateWhere fun _ => rfl
    exact hids.symm ▸ this
  · obtain ⟨a', ha', rfl⟩ := List.mem_map.1 hv
    obtain ⟨a, ha, rfl⟩ := List.mem_map.1 ha'
    by_cases hid : a.id = id
    · simp only [hid, decide_true, if_true, ApplicationRow.patched] at happ ⊢
      rw [h happ]
      rfl
    · simp only [hid, decide_false, Bool.false_eq_true, if_false] at happ ⊢
      exact hc.approved _ (List.mem_map_of_mem ha) happ

/-- Writing `approved` over an approved application. -/
theorem still_patchStatus {id : Uuid} {patch : StatusPatch} {now : Time} {d : Records}
    (hc : Clean d) (hs : d.status id = some .approved) (hp : patch.status = .approved)
    (hr : patch.rejectionReasons = none) : Still d ((Write.patchStatus id patch now).apply d) := by
  refine ⟨le_rfl, ?_⟩
  simp only [Records.verdicts, Write.apply, updateWhere, List.map_map]
  refine List.map_congr_left fun a ha => ?_
  by_cases hid : a.id = id
  · subst hid
    rw [Records.status, application_of_mem hc.ids ha] at hs
    have has : a.status = .approved := by simpa using hs
    have hnone : a.rejectionReasons = none := hc.approved _ (List.mem_map_of_mem ha) has
    simp [ApplicationRow.patched, hp, hr, has, hnone]
  · simp [hid]

end Verdicts

/-! ### Rules -/

/-- The rescreening job. -/
def Op.isRescreen : Op → Bool
  | rescreenApprovedCustomers _ => true
  | _ => false

/-- Every call leaves approved applications without rejection reasons; the job leaves statuses and
reasons as they are. -/
def rescreenRules {ι : Type} (ops : ι → Op) : Rules ι Records Key Label where
  guar i _ _ d d' := Tidy d d' ∧ ((ops i).isRescreen = true → Still d d')
  env := Env
  cond := Undisturbed

section Job

variable {ι : Type} {ops : ι → Op} {i : ι} {loc : Local Records Write Key Label} {l : Label}
  {d d' : Records} {lower : String → String}

theorem Still.of_env (h : Env d d') : Still d d' := by
  obtain ⟨t, -, rfl⟩ := h
  exact ⟨le_rfl, rfl⟩

theorem tidy_of_others {ℓ : List Key} {ids : List ℕ} {w : Option Records}
    (h : (rescreenRules ops).Others ℓ ids l w d d') : Tidy d d' := by
  cases h with
  | bump => exact Still.tidy ⟨Nat.le_succ _, rfl⟩
  | guar _ _ _ _ _ _ hg _ => exact hg.1
  | env he _ => exact (Still.of_env he).tidy

theorem undisturbed_of_others {ℓ : List Key} {ids : List ℕ} {w : Option Records}
    (h : (rescreenRules ops).Others ℓ ids l w d d') : Undisturbed l w d d' := by
  cases h with
  | bump => exact fun _ _ => rfl
  | guar _ _ _ _ _ _ _ hc => exact hc
  | env _ hc => exact hc

/-- The applications the job holds are approved. -/
def Holding (l : Label) (d : Records) : Prop := Clean d ∧ ∀ id ∈ l.job, d.status id = some .approved

theorem Holding.others {ℓ : List Key} {ids : List ℕ} {w : Option Records} (h : Holding l d)
    (ho : (rescreenRules ops).Others ℓ ids l w d d') : Holding l d' :=
  ⟨(tidy_of_others ho).clean h.1,
    fun id hid => (undisturbed_of_others ho id hid).trans (h.2 id hid)⟩

theorem Holding.still (h : Holding l d) (hs : Still d d') : Holding l d' :=
  ⟨h.1.still hs, fun id hid => (hs.status id).trans (h.2 id hid)⟩

theorem Holding.mono {l' : Label} (hle : ∀ id ∈ l'.job, id ∈ l.job) (h : Holding l d) :
    Holding l' d :=
  ⟨h.1, fun id hid => h.2 id (hle id hid)⟩

theorem Holding.rely {w : Option Records} (h : Holding loc.label d)
    (hr : (rescreenRules ops).Rely loc w d d') : Holding loc.label d' :=
  hr.invariant h fun _ _ h ho => h.others ho

/-- A call other than the job. -/
theorem keeps_tidy (hi : (ops i).isRescreen = false) (l : Label) :
    Keeps (rescreenRules ops) i l Tidy fun _ => True where
  refl := .refl
  trans _ _ _ := .trans
  keeps _ _ _ _ := trivial
  others _ _ _ _ _ _ _ := trivial
  bump _ _ := trivial
  guar _ _ _ _ _ hk := ⟨hk, fun h => by simp [hi] at h⟩
  stand _ := trivial

/-- The job. -/
theorem keeps_still (i : ι) (l : Label) : Keeps (rescreenRules ops) i l Still (Holding l) where
  refl := .refl
  trans _ _ _ := .trans
  keeps _ _ := Holding.still
  others _ _ _ _ _ hs ho := hs.others ho
  bump _ hs := hs.still ⟨Nat.le_succ _, rfl⟩
  guar _ _ _ _ _ hk := ⟨hk.tidy, fun _ => hk⟩
  stand _ := trivial

theorem silently_tidy (hi : (ops i).isRescreen = false) {P : Write → Prop}
    (hP : ∀ w d, P w → Tidy d (w.apply d)) {A : Type} {p : Tx A}
    (hp : Saves P (fun _ => True) p) (hpend : loc.pending = []) :
    wp (rescreenRules ops) i (fun _ _ _ => True) (fun _ _ _ => True) (silently p) loc d := by
  refine wp_mono (fun _ _ _ _ => trivial) (fun _ _ _ _ => trivial)
    (wp_of_writes (G := fun _ => True) (fun l _ => keeps_tidy hi l) (fun w d hw _ => hP w d hw)
      (fun u d hu _ => (Still.of_files hu).tidy) (fun _ _ _ _ => trivial)
      (hp.bind fun _ => .ret ()).writes trivial trivial ?_)
  rw [hpend]
  exact fun d _ => .refl d

/-- Statements that leave approved applications without rejection reasons. -/
def Approves (w : Write) : Prop :=
  ¬w.Patches ∨ ∃ id patch now, w = .patchStatus id patch now ∧
    (patch.status = .approved → patch.rejectionReasons = none)

theorem Approves.tidy (w : Write) (d : Records) (h : Approves w) : Tidy d (w.apply d) := by
  rcases h with h | ⟨id, patch, now, rfl, hp⟩
  · exact (still_apply d h).tidy
  · exact tidy_patchStatus d hp

theorem makes_approves (app : Application) : Saves.Makes lower app Approves where
  most _ h _ := .inl h
  limits _ _ := .inl id
  moves patch now hs _ := .inr ⟨_, patch, now, rfl, fun h => absurd h hs⟩
  approves patch now _ _ hr _ := .inr ⟨_, patch, now, rfl, fun _ => hr⟩

/-- Statements of the job while it holds the applications `l`. -/
def Rewrites (l : Label) (w : Write) : Prop :=
  ¬w.Patches ∨ ∃ id patch now, w = .patchStatus id patch now ∧ id ∈ l.job ∧
    patch.status = .approved ∧ patch.rejectionReasons = none

theorem Rewrites.still (w : Write) (d : Records) (h : Rewrites l w) (hs : Holding l d) :
    Still d (w.apply d) := by
  rcases h with h | ⟨id, patch, now, rfl, hid, hp, hr⟩
  · exact still_apply d h
  · exact still_patchStatus hs.1 (hs.2 id hid) hp hr

/-- One application rescreened, among those the job holds. -/
theorem rescreen_still {app : Application} {business : BusinessDetails} {serial : String}
    (happ : app.row.status = .approved) (hid : app.row.id ∈ loc.label.job)
    (hs : Holding loc.label d) (hpend : loc.pending = []) :
    wp (rescreenRules ops) i
      (fun _ loc' d' => loc'.label = loc.label ∧ loc'.pending = [] ∧ Holding loc.label d')
      (fun _ _ _ => True) (rescreen lower app business serial) loc d := by
  have hwrite : Saves (Rewrites loc.label) (fun _ => False) (writeBack app (runChecks lower app)
      (rescreenedSummary app business (runChecks lower app).riskRating.label serial)) :=
    Saves.writeBack ⟨fun _ h _ => .inl h⟩ (fun now => .inr ⟨_, _, now, rfl, hid, happ, rfl⟩)
      (.inl id)
  refine wp_bind_of (wp_of_writes (G := (· = loc.label)) (by rintro _ rfl; exact keeps_still i _)
    Rewrites.still (fun u d hu _ => .of_files hu) (fun _ _ hf => hf.elim) hwrite.writes rfl hs ?_)
      (fun _ _ _ _ => trivial) ?_
  · rw [hpend]
    exact fun d _ => .refl d
  · rintro _ loc₁ d₁ ⟨hl, hs₁, hpend₁⟩ d₂ hr
    have hs₂ : Holding loc.label d₂ := hl ▸ Holding.rely (hl.symm ▸ hs₁) hr
    have hstill := hpend₁ d₂ hs₂
    exact ⟨trivial, ⟨hstill.tidy, fun _ => hstill⟩, hl, rfl, hs₂.still hstill⟩

theorem rescreenAll_still {serials : Uuid → String} {apps : List Application}
    (hnd : (apps.map (·.row.id)).Nodup)
    (h : ∀ app ∈ apps, app.row.status = .approved ∧ app.row.id ∈ loc.label.job)
    (hs : Holding loc.label d) (hpend : loc.pending = []) :
    wp (rescreenRules ops) i (fun _ _ _ => True) (fun _ _ _ => True)
      (rescreenAll lower serials apps) loc d := by
  induction apps generalizing loc d with
  | nil => trivial
  | cons app apps ih =>
    obtain ⟨hnot, hnd⟩ := List.nodup_cons.1 hnd
    have hrest : ∀ {l : Label}, l = loc.label → ∀ app' ∈ apps, app'.row.status = .approved ∧
        app'.row.id ∈ l.job.filter (· ≠ app.row.id) := by
      rintro _ rfl app' ha
      obtain ⟨happ, hid⟩ := h app' (List.mem_cons_of_mem _ ha)
      refine ⟨happ, List.mem_filter.2 ⟨hid, ?_⟩⟩
      have hne : app'.row.id ≠ app.row.id := fun he => hnot (List.mem_map.2 ⟨app', ha, he⟩)
      simpa using hne
    have hmono : ∀ {d : Records}, Holding loc.label d →
        Holding (loc.label.withJob (loc.label.job.filter (· ≠ app.row.id))) d :=
      fun hs => hs.mono fun id hid => (List.mem_filter.1 hid).1
    unfold rescreenAll
    split
    · exact @ih (loc.at' _) _ hnd (hrest rfl) (hmono hs) hpend
    · obtain ⟨happ, hid⟩ := h app List.mem_cons_self
      refine wp_bind_of (rescreen_still happ hid hs hpend) (fun _ _ _ _ => trivial) ?_
      rintro outcome loc' d' ⟨hl, hpend', hs'⟩
      show wp _ i _ _ ((rescreenAll lower serials apps).bind _) (loc'.at' _) d'
      exact wp_bind_of (ih hnd (hrest hl) (hl.symm ▸ hmono hs') hpend') (fun _ _ _ _ => trivial)
        fun _ _ _ _ => trivial

theorem assembleAll_still {rows : List ApplicationRow} (hs : Holding loc.label d) :
    wp (rescreenRules ops) i
      (fun apps loc' d' => loc' = loc ∧ Holding loc.label d' ∧ apps.map (·.row) = rows)
      (fun _ _ _ => False) (Repo.assembleAll rows) loc d := by
  induction rows generalizing d with
  | nil => exact ⟨rfl, hs, rfl⟩
  | cons row rows ih =>
    intro d₁ hr₁
    refine ⟨trivial, fun d₂ hr₂ => ⟨trivial, ?_⟩⟩
    show wp _ i _ _ ((Repo.assembleAll rows).bind _) loc d₂
    refine wp_bind_of (ih ((hs.rely hr₁).rely hr₂)) (fun _ _ _ he => he) ?_
    rintro apps _ d₃ ⟨rfl, hs₃, rfl⟩
    exact ⟨rfl, hs₃, rfl⟩

theorem rescreenApprovedCustomers_still {serials : Uuid → String} (hc : Clean d)
    (hpend : loc.pending = []) :
    wp (rescreenRules ops) i (fun _ _ _ => True) (fun _ _ _ => True)
      (rescreenApprovedCustomers lower serials) loc d := by
  intro d₁ hr
  have hc₁ : Clean d₁ := hr.invariant hc fun _ _ hc ho => (tidy_of_others ho).clean hc
  have hnd := hc₁.ids
  let rows := d₁.applications.filter fun a => a.status = .approved
  have hs₁ : Holding (loc.label.withJob (rows.map (·.id))) d₁ := by
    refine ⟨hc₁, fun id hid => ?_⟩
    obtain ⟨row, hrow, rfl⟩ := List.mem_map.1 hid
    obtain ⟨hmem, happ⟩ := List.mem_filter.1 hrow
    rw [Records.status, application_of_mem hnd hmem]
    simpa using happ
  refine ⟨trivial, ?_⟩
  show wp _ i _ _ ((Repo.assembleAll rows).bind _)
    (loc.at' (loc.label.withJob (rows.map (·.id)))) d₁
  refine wp_bind_of (assembleAll_still hs₁) (fun _ _ _ he => he.elim) ?_
  rintro apps _ d₂ ⟨rfl, hs₂, happs⟩
  have hids : apps.map (·.row.id) = rows.map (·.id) := by
    rw [← happs, List.map_map]; rfl
  refine rescreenAll_still ?_ (fun app ha => ?_) hs₂ hpend
  · rw [hids]
    exact (List.filter_sublist.map _).nodup hnd
  · have hrow : app.row ∈ rows := happs ▸ List.mem_map_of_mem ha
    exact ⟨by simpa using (List.mem_filter.1 hrow).2, List.mem_map_of_mem hrow⟩

end Job

/-! ### Every interleaving -/

section Runs

variable {ι : Type} {isDigit : Char → Bool} {lower : String → String}

theorem prog_tidy {ops : ι → Op} {i : ι} {loc : Local Records Write Key Label} {d : Records}
    (hc : Clean d) (hpend : loc.pending = []) :
    wp (rescreenRules ops) i (fun _ _ _ => True) (fun _ _ _ => True)
      ((ops i).prog isDigit lower) loc d := by
  have hmost : Saves.Most Approves := ⟨fun _ h _ => .inl h⟩
  have hspec : ∀ {A : Type} {p : Tx A}, (ops i).isRescreen = false →
    Saves Approves (fun _ => True) p →
      wp (rescreenRules ops) i (fun _ _ _ => True) (fun _ _ _ => True) (silently p) loc d :=
    fun hi hp => silently_tidy hi Approves.tidy hp hpend
  cases hop : ops i with
  | saveBusinessDetails session business applicationId =>
    exact hspec (by rw [hop]; rfl) (Saves.saveBusinessDetails hmost ..)
  | savePrincipals session principals applicationId =>
    exact hspec (by rw [hop]; rfl) (Saves.savePrincipals hmost ..)
  | uploadDocument session upload applicationId millis os =>
    exact hspec (by rw [hop]; rfl) (Saves.uploadDocument hmost ..)
  | retryDocumentUpload session documentId =>
    exact hspec (by rw [hop]; rfl) (Saves.retryDocumentUpload hmost ..)
  | removeDocument session documentId os =>
    exact hspec (by rw [hop]; rfl) (Saves.removeDocument hmost ..)
  | submit session applicationId serial =>
    exact hspec (by rw [hop]; rfl) (Saves.submit makes_approves (fun _ => trivial) ..)
  | rescreenApprovedCustomers serials =>
    exact wp_bind_of (rescreenApprovedCustomers_still hc hpend) (fun _ _ _ _ => trivial)
      fun _ _ _ _ => trivial

theorem seqMono_rescreenRules (ops : ι → Op) : (rescreenRules ops).SeqMono where
  guar _ _ _ _ _ hg := hg.1.nextId
  env _ _ he := (Still.of_env he).nextId

variable [DecidableEq ι]

/-- **No statement of the rescreening job changes a status or rejection reasons**, in runs where
nobody else changes the status of an application between the job's load of it and its write. -/
theorem still_of_rescreen (ops : ι → Op) {d₀ : Records}
    (hids : (d₀.applications.map (·.id)).Nodup)
    (h₀ : ∀ a ∈ d₀.applications, a.status = .approved → a.rejectionReasons = none)
    {s s' : Sys ι Records Write Key Label ApiError Unit}
    (hr : Reach (fun e s s' => Step Env e s s' ∧ Meets Undisturbed e s s')
      ⟨d₀, fun i => .start ((ops i).prog isDigit lower)⟩ s)
    {i : ι} (hi : (ops i).isRescreen = true) (hst : Step Env (.go i) s s') :
    s'.shared.verdicts = s.shared.verdicts := by
  have hc : Clean d₀ := by
    refine ⟨by simpa [Records.verdicts, Function.comp_def] using hids, fun v hv happ => ?_⟩
    obtain ⟨a, ha, rfl⟩ := List.mem_map.1 hv
    exact h₀ a ha happ
  have hok : SysOk (rescreenRules ops) (fun _ _ _ _ => True) s :=
    (SysOk.start fun i => wp_mono (fun _ _ _ _ _ _ => trivial) (fun _ _ _ _ _ _ => trivial)
      (prog_tidy hc rfl)).reach (seqMono_rescreenRules ops) hr
  have hm := hok.moved hst
  generalize s'.shared = d' at hm
  cases hm with
  | go i d _ hch =>
    rcases hch with rfl | rfl | hg
    · rfl
    · rfl
    · exact (hg.2 hi).verdicts

end Runs

/-! ### Disturbed -/

/-- An approved business is renamed and submitted again while the job runs. -/
def resubmission : Fin 5 → Op
  | 0 => .saveBusinessDetails sampleSession (sampleBusiness "Adunola Exports") none
  | 1 => .submit sampleSession none "10000"
  | 2 => .saveBusinessDetails sampleSession (sampleBusiness "Reject Traders") none
  | 3 => .submit sampleSession none "10001"
  | 4 => .rescreenApprovedCustomers fun _ => "10002"

/-- The calls of `resubmission` before they begin. -/
def beforeResubmission : Sys (Fin 5) Records Write Key Label ApiError Unit :=
  ⟨sampleRecords, fun i => .start ((resubmission i).prog Char.isDigit sampleLower)⟩

/-- The rejected application is approved again, without its rejection reasons. -/
theorem reapproved_of_rescreen :
    ∃ s s' : Sys (Fin 5) Records Write Key Label ApiError Unit,
      Reach (Step Env) beforeResubmission s ∧ Step Env (.go 4) s s' ∧
      (∃ a ∈ s.shared.applications, a.id = 7 ∧ a.status = .rejected ∧ a.rejectionReasons.isSome) ∧
      ∀ a ∈ s'.shared.applications, a.id = 7 → a.status = .approved ∧
        a.rejectionReasons = none := by
  let again := fun s : Sys (Fin 5) Records Write Key Label ApiError Unit =>
    decide (∀ a ∈ s.shared.applications, a.id = 7 → a.status = .approved ∧
      a.rejectionReasons = none)
  obtain ⟨s, hr, hs⟩ := exists_reach_of_turns Env [0, 1, 2, 3, 4]
    [(0, 10), (1, 30), (4, 3), (2, 10), (3, 28), (4, 17)] beforeResubmission
    (fun s => decide (∃ a ∈ s.shared.applications, a.id = 7 ∧ a.status = .rejected ∧
      a.rejectionReasons.isSome) && (playMove [0, 1, 2, 3, 4] s (.go 4)).any again)
    (by decide) (by decide +kernel)
  obtain ⟨hs, h⟩ := (Bool.and_eq_true ..).mp hs
  obtain ⟨s', hs', h'⟩ := (Option.any_eq_true ..).1 h
  exact ⟨s, s', hr, step_of_playMove (by decide) (by simp) hs', of_decide_eq_true hs,
    of_decide_eq_true h'⟩

/-- Whether each application held has the status it had. -/
def undisturbed (l : Label) (_ : Option Records) (d d' : Records) : Bool :=
  l.job.all fun id => decide (d'.status id = d.status id)

/-- Undisturbed, the job replaces checks and leaves the verdicts. -/
theorem still_of_undisturbed :
    ∃ s s' : Sys (Fin 5) Records Write Key Label ApiError Unit,
      Reach (fun e s s' => Step Env e s s' ∧ Meets Undisturbed e s s') beforeResubmission s ∧
      Step Env (.go 4) s s' ∧ s'.shared.kybChecks ≠ s.shared.kybChecks ∧
      s'.shared.verdicts = s.shared.verdicts := by
  let turns := [((0 : Fin 5), 10), (1, 30), (4, 20)]
  let rechecked := fun s s' : Sys (Fin 5) Records Write Key Label ApiError Unit =>
    decide (s'.shared.kybChecks ≠ s.shared.kybChecks)
  obtain ⟨s, hr, hs⟩ := exists_reach_of_playIf Env undisturbed [0, 1, 2, 3, 4] (schedule turns)
    beforeResubmission (fun s => (playMove [0, 1, 2, 3, 4] s (.go 4)).any (rechecked s)) (by decide)
    (env_schedule turns) (by decide +kernel)
  obtain ⟨s', hs', h⟩ := (Option.any_eq_true ..).1 hs
  have hst : Step Env (.go 4) s s' := step_of_playMove (by decide) (by simp) hs'
  have hr' : Reach (fun e s s' => Step Env e s s' ∧ Meets Undisturbed e s s')
      beforeResubmission s :=
    hr.mono fun e s s' h => ⟨h.1, fun j hj => by
      simpa [undisturbed, Undisturbed] using h.2 j hj⟩
  exact ⟨s, s', hr', hst, of_decide_eq_true h,
    still_of_rescreen resubmission (by decide) (by decide) hr' rfl hst⟩

end Kimana.Onboarding
