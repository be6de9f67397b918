import Kimana.Onboarding.Statements

/-!
# Approval and the data on file

An edit is accepted whatever the status, and takes no approval away.

* `Kept` : what a commit does to an application: its data stay, or its saves are counted up; it
  becomes approved only with something that passed the checks.
* `screened_of_reach` : **an approved application passed the checks on the data it holds, unless
  they were saved since**.
* `unscreened_of_edited` : an edit after the approval leaves it approved with data that fail.
-/

namespace Kimana.Onboarding

open ReadCommitted Table Kyb

/-- The checks approve of these data. -/
def Screened.Passes (lower : String → String) (e : Screened) : Prop :=
  (runChecks lower ⟨⟨0, 0, .draft, e.business, none, none, none, none, 0, []⟩, e.principals,
    []⟩).approved = true

/-- An application holds the data of `e`, unless a save has committed since they were loaded. -/
def Current (d : Records) (id : Uuid) (e : Screened) : Prop :=
  ∀ a ∈ d.applications, a.id = id → e.edits ≤ a.edits ∧
    (e.edits = a.edits → a.business = e.business ∧ d.principalsOf id = e.principals)

/-- What a change does to each application. -/
structure KeptAt (lower : String → String) (d d' : Records) (a a' : ApplicationRow) : Prop where
  id : a.id = a'.id
  edits : a.edits ≤ a'.edits
  data : a.edits = a'.edits →
    a'.business = a.business ∧ d'.principalsOf a.id = d.principalsOf a.id
  screened : a.screened ≠ [] → a'.screened ≠ []
  approved : a'.status = .approved → a.status = .approved ∨ a'.screened ≠ []
  entries : ∀ e ∈ a'.screened, e ∈ a.screened ∨ e.Passes lower ∧ Current d' a.id e

/-- What a change keeps of the applications. -/
structure Kept (lower : String → String) (d d' : Records) : Prop where
  nextId : d.nextId ≤ d'.nextId
  ids : d'.applications.map (·.id) = d.applications.map (·.id)
  rows : ∀ a' ∈ d'.applications, ∃ a ∈ d.applications, KeptAt lower d d' a a'

/-- What is known of the applications: ids are unique, and an approval has passed the checks. -/
structure Reviewed (lower : String → String) (d : Records) : Prop where
  nodup : (d.applications.map (·.id)).Nodup
  approved : ∀ a ∈ d.applications, a.status = .approved → a.screened ≠ []
  entries : ∀ a ∈ d.applications, ∀ e ∈ a.screened, e.Passes lower ∧ Current d a.id e

section Kept

variable {lower : String → String} {d d' d'' : Records}

/-- Data stay current under a change. -/
theorem Current.kept {id : Uuid} {e : Screened} (h : Current d id e) (hk : Kept lower d d') :
    Current d' id e := by
  rintro a' ha' rfl
  obtain ⟨a, ha, hat⟩ := hk.rows a' ha'
  obtain ⟨hle, heq⟩ := h a ha hat.id
  refine ⟨hle.trans hat.edits, fun he => ?_⟩
  have hsame : a.edits = a'.edits := le_antisymm hat.edits (he ▸ hle)
  obtain ⟨hb, hp⟩ := heq (he.trans hsame.symm)
  obtain ⟨hb', hp'⟩ := hat.data hsame
  exact ⟨hb'.trans hb, by rw [← hat.id, hp', hat.id, hp]⟩

theorem Reviewed.kept (h : Reviewed lower d) (hk : Kept lower d d') : Reviewed lower d' := by
  refine ⟨hk.ids ▸ h.nodup, fun a' ha' happ => ?_, fun a' ha' e he => ?_⟩
  · obtain ⟨a, ha, hat⟩ := hk.rows a' ha'
    rcases hat.approved happ with happ | hs
    · exact hat.screened (h.approved a ha happ)
    · exact hs
  · obtain ⟨a, ha, hat⟩ := hk.rows a' ha'
    rcases hat.entries e he with he | he
    · exact (h.entries a ha e he).imp_right fun hc => hat.id ▸ hc.kept hk
    · exact hat.id ▸ he

theorem Kept.trans (h : Kept lower d d') (h' : Kept lower d' d'') : Kept lower d d'' := by
  refine ⟨h.nextId.trans h'.nextId, h'.ids.trans h.ids, fun a'' ha'' => ?_⟩
  obtain ⟨a', ha', hat'⟩ := h'.rows a'' ha''
  obtain ⟨a, ha, hat⟩ := h.rows a' ha'
  refine ⟨a, ha, hat.id.trans hat'.id, hat.edits.trans hat'.edits, fun he => ?_,
    fun hs => hat'.screened (hat.screened hs), fun happ => ?_, fun e he => ?_⟩
  · have h₁ := hat.edits
    have h₂ := hat'.edits
    obtain ⟨hb, hp⟩ := hat.data (by omega)
    obtain ⟨hb', hp'⟩ := hat'.data (by omega)
    exact ⟨hb'.trans hb, by rw [hat.id, hp', ← hat.id, hp]⟩
  · rcases hat'.approved happ with happ | hs
    · exact (hat.approved happ).imp_right hat'.screened
    · exact .inr hs
  · rcases hat'.entries e he with he | he
    · exact (hat.entries e he).imp_right (And.imp_right fun hc => hc.kept h')
    · exact .inr (hat.id ▸ he)

/-- A row that a change passes by. -/
theorem KeptAt.same {a : ApplicationRow} (hp : d'.principalsOf a.id = d.principalsOf a.id) :
    KeptAt lower d d' a a :=
  ⟨rfl, le_rfl, fun _ => ⟨rfl, hp⟩, fun h => h, .inl, fun _ he => .inl he⟩

/-- A row whose data a change edits. -/
theorem KeptAt.edited {a a' : ApplicationRow} (hid : a.id = a'.id) (he : a'.edits = a.edits + 1)
    (hs : a'.status = a.status) (hsc : a'.screened = a.screened) : KeptAt lower d d' a a' :=
  ⟨hid, by omega, fun h => by omega, fun h => hsc ▸ h, fun h => .inl (hs ▸ h),
    fun _ h => .inl (hsc ▸ h)⟩

/-- A change elsewhere. -/
theorem Kept.of_eq (hn : d.nextId ≤ d'.nextId) (ha : d'.applications = d.applications)
    (hp : d'.principals = d.principals) : Kept lower d d' := by
  refine ⟨hn, by rw [ha], fun a h => ⟨a, ha ▸ h, .same ?_⟩⟩
  rw [Records.principalsOf, hp, Records.principalsOf]

theorem Kept.refl (d : Records) : Kept lower d d := .of_eq le_rfl rfl rfl

theorem Kept.of_files {u : Records → Records} (hu : Files u) : Kept lower d (u d) := by
  obtain ⟨files, hd⟩ := hu d
  rw [hd]
  exact .of_eq le_rfl rfl rfl

/-- A change of one application and of its principals. -/
theorem Kept.of_update {id : Uuid} {f : ApplicationRow → ApplicationRow}
    (hn : d.nextId ≤ d'.nextId) (ha : d'.applications = updateWhere (·.id = id) f d.applications)
    (hid : ∀ a, (f a).id = a.id) (hp : ∀ k, k ≠ id → d'.principalsOf k = d.principalsOf k)
    (hf : ∀ a ∈ d.applications, a.id = id → KeptAt lower d d' a (f a)) : Kept lower d d' := by
  refine ⟨hn, ?_, fun a' ha' => ?_⟩
  · rw [ha, map_updateWhere fun a => hid a]
  · rw [ha] at ha'
    obtain ⟨a, hmem, rfl⟩ := List.mem_map.1 ha'
    refine ⟨a, hmem, ?_⟩
    by_cases h : a.id = id
    · simpa [h] using hf a hmem h
    · simpa [h] using KeptAt.same (hp a.id h)

end Kept

/-! ### Writes -/

/-- A statement other than a status change keeps what is known. -/
theorem kept_apply {lower : String → String} {w : Write} (d : Records) (h : ¬w.Patches) :
    Kept lower d (w.apply d) := by
  cases w with
  | saveBusiness id business =>
    exact .of_update le_rfl rfl (fun _ => rfl) (fun _ _ => rfl) fun a _ _ => .edited rfl rfl rfl rfl
  | deletePrincipals applicationId ids =>
    refine .of_update le_rfl rfl (fun _ => rfl) (fun k hk => ?_)
      fun a _ _ => .edited rfl rfl rfl rfl
    simp only [Write.apply, Records.principalsOf, List.filter_filter]
    congr 2
    refine List.filter_congr fun p _ => ?_
    by_cases hp : p.applicationId = k
    · simp [hp, hk]
    · simp [hp]
  | insertPrincipal row =>
    refine .of_update le_rfl rfl (fun _ => rfl) (fun k hk => ?_)
      fun a _ _ => .edited rfl rfl rfl rfl
    simp [Write.apply, Records.principalsOf, Ne.symm hk]
  | patchStatus => exact absurd trivial h
  | _ => exact .of_eq le_rfl rfl rfl

/-- A status change that approves only what passed the checks. -/
structure Allowed (lower : String → String) (id : Uuid) (patch : StatusPatch) (d : Records) :
    Prop where
  screened : ∀ a ∈ d.applications, a.id = id → a.screened ≠ [] → patch.screened a.screened ≠ []
  approved : patch.status = .approved →
    ∀ a ∈ d.applications, a.id = id → patch.screened a.screened ≠ []
  entries : ∀ a ∈ d.applications, a.id = id → ∀ e ∈ patch.screened a.screened,
    e ∈ a.screened ∨ e.Passes lower ∧ Current d id e

theorem kept_patchStatus {lower : String → String} {id : Uuid} {patch : StatusPatch} {d : Records}
    (h : Allowed lower id patch d) (now : Time) :
    Kept lower d ((Write.patchStatus id patch now).apply d) := by
  refine .of_update le_rfl rfl (fun _ => rfl) (fun _ _ => rfl) fun a ha hid => ?_
  refine ⟨rfl, le_rfl, fun _ => ⟨rfl, rfl⟩, h.screened a ha hid, fun happ => ?_, fun e he => ?_⟩
  · exact .inr (h.approved happ a ha hid)
  · refine (h.entries a ha hid e he).imp_right (And.imp_right fun hc => ?_)
    subst hid
    rintro a' ha' hid
    obtain ⟨b, hb, rfl⟩ := List.mem_map.1 ha'
    by_cases hba : b.id = a.id
    · have := hc b hb hba
      simpa [hba, ApplicationRow.patched, Write.apply, Records.principalsOf] using this
    · simp [hba] at hid

/-! ### Rules -/

/-- Every call keeps what is known of the applications. -/
def approvalRules (lower : String → String) (ι : Type) : Rules ι Records Key Label where
  guar _ _ _ d d' := Kept lower d d'
  env := Env

theorem kept_of_others {lower : String → String} {ι : Type} {ℓ : List Key} {ids : List ℕ}
    {l : Label} {w : Option Records} {d d' : Records}
    (h : (approvalRules lower ι).Others ℓ ids l w d d') : Kept lower d d' := by
  cases h with
  | bump => exact .of_eq (Nat.le_succ _) rfl rfl
  | guar _ _ _ _ _ _ hk _ => exact hk
  | env he _ =>
    obtain ⟨t, -, rfl⟩ := he
    exact .of_eq le_rfl rfl rfl

/-- A fact that changes keep. -/
theorem keeps_approvalRules {lower : String → String} {ι : Type} (i : ι) (l : Label)
    {S : Records → Prop} (hS : ∀ d d', S d → Kept lower d d' → S d') :
    Keeps (approvalRules lower ι) i l (Kept lower) S where
  refl := .refl
  trans _ _ _ := .trans
  keeps := hS
  others _ _ _ _ _ hs ho := hS _ _ hs (kept_of_others ho)
  bump _ hs := hS _ _ hs (.of_eq (Nat.le_succ _) rfl rfl)
  guar _ _ _ _ _ hk := hk
  stand _ := trivial

/-! ### Loading -/

section Load

variable {lower : String → String} {ι : Type} {i : ι} {loc : Local Records Write Key Label}
  {d d' : Records}

/-- What others do keeps what is known. -/
theorem kept_of_rely {w : Option Records} (h : (approvalRules lower ι).Rely loc w d d') :
    Kept lower d d' :=
  h.invariant (P := fun x => Kept lower d x) (.refl d) fun _ _ hk ho => hk.trans (kept_of_others ho)

/-- A program that changes no status. -/
theorem saves_spec {S : Records → Prop} (hS : ∀ d d', S d → Kept lower d d' → S d')
    {P : Write → Prop} (hP : ∀ w d, P w → S d → Kept lower d (w.apply d)) {A : Type} {p : Tx A}
    (hp : Saves P (fun _ => True) p) (hs : S d) (hpend : MayCommit (Kept lower) S loc.pending) :
    wp (approvalRules lower ι) i
      (fun _ loc' d' => S d' ∧ MayCommit (Kept lower) S loc'.pending)
        (fun _ _ d' => S d') p loc d :=
  wp_mono (fun _ _ _ h => h.2) (fun _ _ _ h => h.2)
    (wp_of_writes (G := fun _ => True) (fun l _ => keeps_approvalRules i l hS) hP
      (fun _ _ hu _ => .of_files hu) (fun _ _ _ _ => trivial) hp.writes trivial hs hpend)

/-- A row was read: its business details are current, unless an edit has committed since. -/
def RowCurrent (d : Records) (row : ApplicationRow) : Prop :=
  ∀ a ∈ d.applications, a.id = row.id → row.edits ≤ a.edits ∧
    (row.edits = a.edits → a.business = row.business)

theorem RowCurrent.of_mem (hnd : (d.applications.map (·.id)).Nodup) {row : ApplicationRow}
    (h : row ∈ d.applications) : RowCurrent d row := by
  intro a ha hid
  have : a = row := List.inj_on_of_nodup_map hnd ha h hid
  subst this
  exact ⟨le_rfl, fun _ => rfl⟩

theorem RowCurrent.kept {row : ApplicationRow} (h : RowCurrent d row) (hk : Kept lower d d') :
    RowCurrent d' row := by
  intro a' ha' hid
  obtain ⟨a, ha, hat⟩ := hk.rows a' ha'
  obtain ⟨hle, heq⟩ := h a ha (hat.id.trans hid)
  refine ⟨hle.trans hat.edits, fun he => ?_⟩
  have hsame : a.edits = a'.edits := le_antisymm hat.edits (he ▸ hle)
  exact (hat.data hsame).1.trans (heq (he.trans hsame.symm))

/-- The principals are read after the row. -/
theorem RowCurrent.current {row : ApplicationRow} (h : RowCurrent d row) :
    Current d row.id ⟨row.business, d.principalsOf row.id, row.edits⟩ := fun a ha hid =>
  (h a ha hid).imp_right fun heq he => ⟨heq he, rfl⟩

theorem assemble_spec {row : ApplicationRow} (h : RowCurrent d row) :
    wp (approvalRules lower ι) i
      (fun app loc' d' => loc' = loc ∧ Kept lower d d' ∧ app.row = row ∧
        Current d' row.id app.screened)
      (fun _ _ _ => False) (Repo.assemble row) loc d := by
  intro d₁ hr₁
  refine ⟨trivial, fun d₂ hr₂ => ⟨trivial, ?_⟩⟩
  have hk₁ := kept_of_rely hr₁
  have hk₂ := kept_of_rely hr₂
  exact ⟨rfl, hk₁.trans hk₂, rfl, (h.kept hk₁).current.kept hk₂⟩

theorem findByCustomer_spec {customerId : Uuid} (h : Reviewed lower d) :
    wp (approvalRules lower ι) i
      (fun r loc' d' => loc' = loc ∧ ∀ app, r = some app → Current d' app.row.id app.screened)
      (fun _ _ _ => False) (Repo.findByCustomer customerId) loc d := by
  intro d₁ hr
  refine ⟨trivial, ?_⟩
  have h₁ := h.kept (kept_of_rely hr)
  simp only [Prog.bind]
  split
  case h_2 => exact ⟨rfl, by simp⟩
  case h_1 row hrow =>
    have hcur := RowCurrent.of_mem h₁.nodup (List.mem_of_find?_eq_some hrow)
    refine wp_bind_of (assemble_spec hcur) (fun _ _ _ he => he.elim) ?_
    rintro app _ d₂ ⟨rfl, -, rfl, happ⟩
    exact ⟨rfl, fun _ he => Option.some.inj he ▸ happ⟩

theorem loadOwned_spec {session : Session} {applicationId : Option Uuid} (h : Reviewed lower d) :
    wp (approvalRules lower ι) i
      (fun app loc' d' => loc' = loc ∧ Current d' app.row.id app.screened) (fun _ _ _ => True)
      (loadOwned session applicationId) loc d := by
  refine wp_bind_of (findByCustomer_spec h) (fun _ _ _ _ => trivial) ?_
  rintro r _ d₁ ⟨rfl, hr⟩
  split
  · exact trivial
  · split
    · split
      · exact trivial
      · exact ⟨rfl, hr _ rfl⟩
    · exact ⟨rfl, hr _ rfl⟩

end Load

/-! ### Calls -/

section Calls

variable {lower : String → String} {ι : Type} {i : ι} {loc : Local Records Write Key Label}
  {d : Records}

/-- A status change that neither approves nor touches what was screened. -/
theorem Allowed.of_id {id : Uuid} {patch : StatusPatch} (hs : patch.status ≠ .approved)
    (hsc : ∀ es, patch.screened es = es) : Allowed lower id patch d := by
  refine ⟨fun a _ _ h => ?_, fun h => absurd h hs, fun a _ _ e he => .inl ?_⟩
  · rw [hsc]; exact h
  · rw [hsc] at he; exact he

/-- Statements that a call working on `app` may make while `S` holds. -/
def Permits (lower : String → String) (S : Records → Prop) (id : Uuid) (w : Write) : Prop :=
  ¬w.Patches ∨ ∃ patch now, w = .patchStatus id patch now ∧ ∀ d, S d → Allowed lower id patch d

theorem Permits.kept {S : Records → Prop} {id : Uuid} (w : Write) (d : Records)
    (h : Permits lower S id w) (hs : S d) : Kept lower d (w.apply d) := by
  rcases h with h | ⟨patch, now, rfl, hp⟩
  · exact kept_apply d h
  · exact kept_patchStatus (hp d hs) now

/-- A call that works on `app` may make its own status changes. -/
theorem makes_permits {S : Records → Prop} {app : Application}
    (hS : ∀ d, S d → Current d app.row.id app.screened) :
    Saves.Makes lower app (Permits lower S app.row.id) where
  most _ h _ := .inl h
  limits _ _ := .inl id
  moves patch now hs hsc := .inr ⟨patch, now, rfl, fun _ _ => .of_id hs hsc⟩
  approves patch now happ _ _ hsc := by
    have hpass : app.screened.Passes lower := happ
    refine .inr ⟨patch, now, rfl, fun d hs => ?_⟩
    refine ⟨fun _ _ _ _ => by simp [hsc], fun _ _ _ _ => by simp [hsc], fun _ _ _ e he => .inr ?_⟩
    rw [hsc, List.mem_singleton] at he
    rw [he]
    exact ⟨hpass, hS d hs⟩

theorem submit_spec {session : Session} {applicationId : Option Uuid} {serial : String}
    (h : Reviewed lower d) (hpend : loc.pending = []) :
    wp (approvalRules lower ι) i (fun _ _ _ => True) (fun _ _ _ => True)
      (submit lower session applicationId serial) loc d := by
  have hload : ∀ l d', (approvalRules lower ι).Rely loc none d d' → wp (approvalRules lower ι) i
      (fun app loc' d' => loc'.pending = [] ∧ Current d' app.row.id app.screened)
        (fun _ _ _ => True)
      (loadOwned session applicationId) (loc.at' l) d' := fun l d' hr =>
    wp_mono (fun app loc' d' ⟨hl, happ⟩ => ⟨hl ▸ hpend, happ⟩) (fun _ _ _ _ => trivial)
      (loadOwned_spec (h.kept (kept_of_rely hr)))
  refine wp_bind_of (wp_noting hload) (fun _ _ _ _ => trivial) ?_
  rintro app loc₁ d₁ ⟨hpend, happ⟩
  exact wp_mono (fun _ _ _ _ => trivial) (fun _ _ _ _ => trivial)
    (saves_spec (S := fun d => Current d app.row.id app.screened) (fun _ _ hs hk => hs.kept hk)
      Permits.kept (Saves.review (makes_permits fun _ hs => hs) (fun _ => trivial) ..) happ (by
      rw [hpend]; exact fun d _ => .refl d))

/-- The application with an id has passed the checks once. -/
def Passed (d : Records) (id : Uuid) : Prop :=
  ∀ a ∈ d.applications, a.id = id → a.screened ≠ []

theorem Passed.kept {d' : Records} {id : Uuid} (h : Passed d id) (hk : Kept lower d d') :
    Passed d' id := by
  rintro a' ha' rfl
  obtain ⟨a, ha, hat⟩ := hk.rows a' ha'
  exact hat.screened (h a ha hat.id)

/-- An approved application that the job has loaded. -/
def Loaded (app : Application) (d : Records) : Prop :=
  Current d app.row.id app.screened ∧ Passed d app.row.id

theorem Loaded.kept {d' : Records} {app : Application} (h : Loaded app d) (hk : Kept lower d d') :
    Loaded app d' := ⟨h.1.kept hk, h.2.kept hk⟩

theorem assembleAll_spec {rows : List ApplicationRow}
    (h : ∀ row ∈ rows, RowCurrent d row ∧ Passed d row.id) :
    wp (approvalRules lower ι) i
      (fun apps loc' d' => loc' = loc ∧ Kept lower d d' ∧ ∀ app ∈ apps, Loaded app d')
      (fun _ _ _ => False) (Repo.assembleAll rows) loc d := by
  induction rows generalizing d with
  | nil => exact ⟨rfl, .refl d, by simp⟩
  | cons row rows ih =>
    refine wp_bind_of (assemble_spec (h row List.mem_cons_self).1) (fun _ _ _ he => he) ?_
    rintro app _ d₁ ⟨rfl, hk₁, rfl, hcur⟩
    have hrest : ∀ row ∈ rows, RowCurrent d₁ row ∧ Passed d₁ row.id := fun row hr =>
      ⟨(h row (List.mem_cons_of_mem _ hr)).1.kept hk₁,
        (h row (List.mem_cons_of_mem _ hr)).2.kept hk₁⟩
    refine wp_bind_of (ih hrest) (fun _ _ _ he => he) ?_
    rintro apps _ d₂ ⟨rfl, hk₂, happs⟩
    have happ : Loaded app d₁ := ⟨hcur, (h _ List.mem_cons_self).2.kept hk₁⟩
    exact ⟨rfl, hk₁.trans hk₂, List.forall_mem_cons.2 ⟨happ.kept hk₂, happs⟩⟩

theorem listApproved_spec (h : Reviewed lower d) :
    wp (approvalRules lower ι) i
      (fun apps loc' d' => loc'.pending = loc.pending ∧ ∀ app ∈ apps, Loaded app d')
      (fun _ _ _ => False) Repo.listApproved loc d := by
  intro d₁ hr
  have h₁ := h.kept (kept_of_rely hr)
  refine ⟨trivial, wp_mono ?_ (fun _ _ _ he => he) (assembleAll_spec fun row hrow => ?_)⟩
  · rintro apps _ d₂ ⟨rfl, -, happs⟩
    exact ⟨rfl, happs⟩
  · obtain ⟨hmem, happ⟩ := List.mem_filter.1 hrow
    refine ⟨.of_mem h₁.nodup hmem, fun a ha hid => ?_⟩
    have : a = row := List.inj_on_of_nodup_map h₁.nodup ha hmem hid
    exact this ▸ h₁.approved row hmem (by simpa using happ)

theorem saves_writeBack {S : Records → Prop} {app : Application} {summary : ApprovedAccountSummary}
    (hS : ∀ d, S d → Loaded app d) :
    Saves (Permits lower S app.row.id) (fun _ => True)
      (writeBack app (runChecks lower app) summary) := by
  refine Saves.writeBack ⟨fun _ h _ => .inl h⟩ (fun now => .inr ⟨_, now, rfl, fun d hs => ?_⟩)
    (.inl id)
  obtain ⟨hcur, hpassed⟩ := hS d hs
  by_cases happ : (runChecks lower app).approved = true
  · have hpass : app.screened.Passes lower := happ
    refine ⟨fun _ _ _ _ => by simp [happ], fun _ _ _ _ => by simp [happ], fun a _ _ e he => ?_⟩
    rcases List.mem_cons.1 (by simpa [happ] using he) with rfl | he
    · exact .inr ⟨hpass, hcur⟩
    · exact .inl he
  · refine ⟨fun _ _ _ h => by simpa [happ] using h, fun _ a ha hid => ?_, fun _ _ _ e he => ?_⟩
    · simpa [happ] using hpassed a ha hid
    · exact .inl (by simpa [happ] using he)

theorem rescreenAll_spec {S : Records → Prop} (hS : ∀ d d', S d → Kept lower d d' → S d')
    {serials : Uuid → String} {apps : List Application}
    (happs : ∀ app ∈ apps, ∀ d, S d → Loaded app d)
    (hs : S d) (hpend : MayCommit (Kept lower) S loc.pending) :
    wp (approvalRules lower ι) i (fun _ _ _ => True) (fun _ _ _ => True)
      (rescreenAll lower serials apps) loc d := by
  induction apps generalizing loc d with
  | nil => trivial
  | cons app apps ih =>
    have hrest : ∀ app ∈ apps, ∀ d, S d → Loaded app d := fun a ha =>
      happs a (List.mem_cons_of_mem _ ha)
    unfold rescreenAll
    split
    · exact @ih (loc.at' _) _ hrest hs hpend
    · refine wp_bind_of (saves_spec hS Permits.kept
        ((saves_writeBack (happs app List.mem_cons_self)).bind fun _ => Saves.commit.bind fun _ =>
          .ret _) hs hpend) (fun _ _ _ _ => trivial) ?_
      rintro outcome loc' d' ⟨hs', hpend'⟩
      show wp _ i _ _ ((rescreenAll lower serials apps).bind _) (loc'.at' _) d'
      exact wp_bind_of (ih hrest hs' hpend') (fun _ _ _ _ => trivial) fun _ _ _ _ => trivial

/-- A call that changes no status. -/
theorem silently_spec {A : Type} {p : Tx A} (hp : Saves (fun w => ¬w.Patches) (fun _ => True) p)
    (hpend : loc.pending = []) :
    wp (approvalRules lower ι) i (fun _ _ _ => True) (fun _ _ _ => True) (silently p) loc d := by
  have hmay : MayCommit (Kept lower) (fun _ => True) loc.pending := by
    rw [hpend]; exact fun d _ => .refl d
  exact wp_bind_of (saves_spec (fun _ _ _ _ => trivial) (fun _ d hw _ => kept_apply d hw) hp trivial
    hmay) (fun _ _ _ _ => trivial) fun _ _ _ _ => trivial

theorem rescreenApprovedCustomers_spec {serials : Uuid → String} (h : Reviewed lower d)
    (hpend : loc.pending = []) :
    wp (approvalRules lower ι) i (fun _ _ _ => True) (fun _ _ _ => True)
      (rescreenApprovedCustomers lower serials) loc d := by
  refine wp_bind_of (listApproved_spec h) (fun _ _ _ he => he.elim) ?_
  rintro apps loc' d' ⟨hpend', happs⟩
  refine rescreenAll_spec (S := fun d => ∀ app ∈ apps, Loaded app d)
    (fun _ _ hs hk app ha => (hs app ha).kept hk) (fun app ha d hs => hs app ha) happs ?_
  rw [hpend', hpend]
  exact fun d _ => .refl d

theorem prog_spec {isDigit : Char → Bool} (op : Op) (h : Reviewed lower d)
    (hpend : loc.pending = []) :
    wp (approvalRules lower ι) i (fun _ _ _ => True) (fun _ _ _ => True)
      (op.prog isDigit lower) loc d := by
  have hmost : Saves.Most fun w : Write => ¬w.Patches := ⟨fun _ h _ => h⟩
  cases op with
  | saveBusinessDetails session business applicationId =>
    rw [Op.prog]
    exact silently_spec (Saves.saveBusinessDetails hmost ..) hpend
  | savePrincipals session principals applicationId =>
    rw [Op.prog]
    exact silently_spec (Saves.savePrincipals hmost ..) hpend
  | uploadDocument session upload applicationId millis os =>
    rw [Op.prog]
    exact silently_spec (Saves.uploadDocument hmost ..) hpend
  | retryDocumentUpload session documentId =>
    rw [Op.prog]
    exact silently_spec (Saves.retryDocumentUpload hmost ..) hpend
  | removeDocument session documentId os =>
    rw [Op.prog]
    exact silently_spec (Saves.removeDocument hmost ..) hpend
  | submit session applicationId serial =>
    rw [Op.prog]
    exact wp_bind_of (submit_spec h hpend) (fun _ _ _ _ => trivial) fun _ _ _ _ => trivial
  | rescreenApprovedCustomers serials =>
    rw [Op.prog]
    exact wp_bind_of (rescreenApprovedCustomers_spec h hpend) (fun _ _ _ _ => trivial)
      fun _ _ _ _ => trivial

end Calls

/-! ### Every interleaving -/

section Runs

variable {ι : Type} [DecidableEq ι] {isDigit : Char → Bool} {lower : String → String}

omit [DecidableEq ι] in
theorem seqMono_approvalRules : (approvalRules lower ι).SeqMono where
  guar _ _ _ _ _ hk := hk.nextId
  env _ _ := by
    rintro ⟨t, -, rfl⟩
    rfl

/-- What is known of the applications holds in every reachable state. -/
theorem reviewed_of_reach (ops : ι → Op) {d₀ : Records} (h₀ : Reviewed lower d₀)
    {s : Sys ι Records Write Key Label ApiError Unit}
    (hr : Reach (Step Env) ⟨d₀, fun i => .start ((ops i).prog isDigit lower)⟩ s) :
    Reviewed lower s.shared := by
  have hok : ∀ {s}, Reach (Step Env) ⟨d₀, fun i => .start ((ops i).prog isDigit lower)⟩ s →
      SysOk (approvalRules lower ι) (fun _ _ _ _ => True) s := fun hr =>
    (SysOk.start fun i => wp_mono (fun _ _ _ _ _ _ => trivial) (fun _ _ _ _ _ _ => trivial)
      (prog_spec (ops i) h₀ rfl)).reach seqMono_approvalRules
      (hr.mono fun _ _ _ h => ⟨h, fun _ _ => trivial⟩)
  refine hr.invariant (I := fun s => Reviewed lower s.shared) h₀ fun s e s' hs hi hst => ?_
  have hm := (hok hs).moved hst
  generalize s'.shared = d' at hm
  cases hm with
  | go i d _ hch =>
    rcases hch with rfl | rfl | hk
    · exact hi
    · exact hi.kept (.of_eq (Nat.le_succ _) rfl rfl)
    · exact hi.kept hk
  | crash i => exact hi
  | env d he =>
    obtain ⟨t, -, rfl⟩ := he
    exact hi.kept (.of_eq le_rfl rfl rfl)

/-- **An approved application passed the checks on the data it holds, unless an edit has committed
since they were loaded**: on these it was approved, by a review or by later rescreenings too. -/
theorem screened_of_reach (ops : ι → Op) {d₀ : Records}
    (hids : (d₀.applications.map (·.id)).Nodup)
    (h₀ : ∀ a ∈ d₀.applications, a.status ≠ .approved ∧ a.screened = [])
    {s : Sys ι Records Write Key Label ApiError Unit}
    (hr : Reach (Step Env) ⟨d₀, fun i => .start ((ops i).prog isDigit lower)⟩ s)
    {a : ApplicationRow} (ha : a ∈ s.shared.applications) (happ : a.status = .approved) :
    a.screened ≠ [] ∧ ∀ e ∈ a.screened, e.Passes lower ∧ e.edits ≤ a.edits ∧
      (e.edits = a.edits →
        a.business = e.business ∧ s.shared.principalsOf a.id = e.principals) := by
  have h := reviewed_of_reach ops ⟨hids, fun a ha happ => absurd happ (h₀ a ha).1,
    fun a ha e he => by simp [(h₀ a ha).2] at he⟩ hr
  refine ⟨h.approved a ha happ, fun e he => ?_⟩
  obtain ⟨hpass, hcur⟩ := h.entries a ha e he
  exact ⟨hpass, hcur a ha rfl⟩

end Runs

/-! ### Edited after the approval -/

/-- Business details are saved, reviewed, and saved again under a name that fails the checks. -/
def edits : Fin 3 → Op
  | 0 => .saveBusinessDetails sampleSession (sampleBusiness "Adunola Exports") none
  | 1 => .submit sampleSession none "10000"
  | 2 => .saveBusinessDetails sampleSession (sampleBusiness "Reject Traders") none

/-- The calls of `edits` before they begin. -/
def beforeEdits : Sys (Fin 3) Records Write Key Label ApiError Unit :=
  ⟨sampleRecords, fun i => .start ((edits i).prog Char.isDigit sampleLower)⟩

/-- An edit after the approval leaves the application approved, with data that fail the checks and
that none were run on. -/
theorem unscreened_of_edited : ∃ s : Sys (Fin 3) Records Write Key Label ApiError Unit,
    Reach (Step Env) beforeEdits s ∧ ∃ a ∈ s.shared.applications, a.status = .approved ∧
      (runChecks sampleLower ⟨a, s.shared.principalsOf a.id, []⟩).approved = false ∧
      ∀ e ∈ a.screened, e.business ≠ a.business := by
  obtain ⟨s, hr, hs⟩ := exists_reach_of_turns Env [0, 1, 2] [(0, 10), (1, 30), (2, 10)]
    beforeEdits (fun s => decide (∃ a ∈ s.shared.applications, a.status = .approved ∧
      (runChecks sampleLower ⟨a, s.shared.principalsOf a.id, []⟩).approved = false ∧
      ∀ e ∈ a.screened, e.business ≠ a.business)) (by decide) (by decide +kernel)
  exact ⟨s, hr, of_decide_eq_true hs⟩

/-- After a review the data are those the checks were run on. -/
theorem screened_of_submitted : ∃ s : Sys (Fin 3) Records Write Key Label ApiError Unit,
    Reach (Step Env) beforeEdits s ∧ ∃ a ∈ s.shared.applications, a.status = .approved ∧
      a.screened ≠ [] ∧ ∀ e ∈ a.screened, e.Passes sampleLower ∧ e.edits ≤ a.edits ∧
        (e.edits = a.edits →
          a.business = e.business ∧ s.shared.principalsOf a.id = e.principals) := by
  obtain ⟨s, hr, hs⟩ := exists_reach_of_turns Env [0, 1, 2] [(0, 10), (1, 30)] beforeEdits
    (fun s => decide (∃ a ∈ s.shared.applications, a.status = .approved)) (by decide)
    (by decide +kernel)
  obtain ⟨a, ha, happ⟩ := of_decide_eq_true hs
  exact ⟨s, hr, a, ha, happ, screened_of_reach edits (by decide) (by decide) hr ha happ⟩

end Kimana.Onboarding
