import Kimana.Onboarding.Statements
import Kimana.ReadCommitted.Point

/-!
# Reviews

What a submission does, statement by statement, to the statuses and to their audit trail.

* `View` : the statuses of the applications and the audit rows of their changes.
* `Moving` : a submission that has found its application fit puts it in review with its first
  commit and decides it with its second.
* `next_submit` : the first statement of a submission either finds it fit, or leaves one answer.
-/

namespace Kimana.Onboarding

open ReadCommitted Table Kyb

/-! ### Statuses and their trail -/

/-- What a submission goes by of an application. -/
structure Standing where
  id : Uuid
  customerId : Uuid
  business : Option BusinessDetails
  status : OnboardingStatus

def ApplicationRow.standing (a : ApplicationRow) : Standing :=
  ⟨a.id, a.customerId, a.business, a.status⟩

/-- An audit row of a status change. -/
def AuditRow.isStateChange (row : AuditRow) : Bool := row.action = "onboarding.state_change"

/-- The applications, and the audit rows of their status changes. -/
@[ext] structure View where
  rows : List Standing
  trail : List AuditRow

def Records.view (d : Records) : View :=
  ⟨d.applications.map (·.standing), d.audit.filter (·.isStateChange)⟩

namespace View

/-- Change the applications with an id. -/
def update (v : View) (id : Uuid) (f : Standing → Standing) : View :=
  { v with rows := v.rows.map fun r => if r.id = id then f r else r }

/-- Set a status. -/
def set (v : View) (id : Uuid) (status : OnboardingStatus) : View :=
  v.update id fun r => { r with status }

/-- Add an audit row. -/
def log (v : View) (row : AuditRow) : View := { v with trail := v.trail ++ [row] }

end View

/-- The audit row of a status change. -/
def transition (session : Session) (id : Uuid) (source target : OnboardingStatus) : AuditRow :=
  auditBy session "onboarding.state_change" "onboarding_application" id (some (.status source))
    (some (.status target))

/-- A status change with its audit row. -/
def View.moved (v : View) (session : Session) (id : Uuid) (source target : OnboardingStatus) :
    View :=
  (v.set id target).log (transition session id source target)

/-- The application is put in review, from the status found. -/
def View.opened (v : View) (session : Session) (id : Uuid) (source : OnboardingStatus) : View :=
  (v.moved session id source .submitted).moved session id .submitted .inReview

theorem View.of_mem_moved {v : View} {session : Session} {id : Uuid}
    {source target : OnboardingStatus} {r : Standing}
    (h : r ∈ (v.moved session id source target).rows) :
    r.id = id ∧ r.status = target ∨ r.id ≠ id ∧ r ∈ v.rows := by
  obtain ⟨r₀, h₀, rfl⟩ := List.mem_map.1 h
  split
  case isTrue hid => exact .inl ⟨hid, rfl⟩
  case isFalse hid => exact .inr ⟨hid, h₀⟩

theorem View.of_mem_opened {v : View} {session : Session} {id : Uuid} {source : OnboardingStatus}
    {r : Standing} (h : r ∈ (v.opened session id source).rows) :
    r.id = id ∧ r.status = .inReview ∨ r.id ≠ id ∧ r ∈ v.rows := by
  refine (View.of_mem_moved h).imp_right fun ⟨hid, hr⟩ => ⟨hid, ?_⟩
  exact ((View.of_mem_moved hr).resolve_left fun h => hid h.1).2

/-- What a statement does to the view. -/
def Write.onView : Write → View → View
  | patchStatus id patch _, v => v.set id patch.status
  | saveBusiness id business, v => v.update id fun r => { r with business := some business }
  | insertAudit row, v => if row.isStateChange then v.log row else v
  | _, v => v

theorem standing_updateWhere {rows : List ApplicationRow} {id : Uuid}
    {f : ApplicationRow → ApplicationRow} {g : Standing → Standing}
    (h : ∀ a, (f a).standing = g a.standing) :
    (updateWhere (·.id = id) f rows).map (·.standing) =
      (rows.map (·.standing)).map fun r => if r.id = id then g r else r := by
  simp only [updateWhere, List.map_map]
  refine List.map_congr_left fun a _ => ?_
  have hs : a.standing.id = a.id := rfl
  by_cases hid : a.id = id
  · simp [hid, hs, h]
  · simp [hid, hs]

theorem standing_edited {rows : List ApplicationRow} {id : Uuid} :
    (updateWhere (·.id = id) (·.edited) rows).map (·.standing) = rows.map (·.standing) :=
  map_updateWhere fun _ => rfl

theorem view_apply (w : Write) (d : Records) : (w.apply d).view = w.onView d.view := by
  cases w with
  | patchStatus id patch now => exact View.ext (standing_updateWhere fun _ => rfl) rfl
  | saveBusiness id business => exact View.ext (standing_updateWhere fun _ => rfl) rfl
  | deletePrincipals | insertPrincipal => exact View.ext standing_edited rfl
  | insertAudit row =>
    by_cases h : row.isStateChange
    · simp [Records.view, Write.apply, Write.onView, View.log, h]
    · simp [Records.view, Write.apply, Write.onView, h]
  | _ => rfl

/-- What uncommitted writes do to the view. -/
def viewAll (ws : List Write) (v : View) : View := ws.foldl (fun v w => w.onView v) v

theorem view_applyAll (ws : List Write) (d : Records) :
    (applyAll ws d).view = viewAll ws d.view := by
  induction ws generalizing d with
  | nil => rfl
  | cons w ws ih =>
    rw [applyAll_cons, ih]
    exact congrArg _ (view_apply w d)

/-- Statements that the view does not show. -/
def Unseen (w : Write) : Prop := ∀ v, w.onView v = v

theorem viewAll_append (ws vs : List Write) (v : View) :
    viewAll (ws ++ vs) v = viewAll vs (viewAll ws v) := List.foldl_append ..

theorem viewAll_unseen {ws : List Write} (h : ∀ w ∈ ws, Unseen w) (v : View) :
    viewAll ws v = v := by
  induction ws generalizing v with
  | nil => rfl
  | cons w ws ih =>
    have hw := h w List.mem_cons_self v
    show viewAll ws (w.onView v) = v
    rw [hw, ih fun w hw => h w (List.mem_cons_of_mem _ hw)]

/-! ### A submission -/

/-- Where a submission that has found `id` fit stands: before its first commit, between the two, or
after the second. -/
def Stands (id : Uuid) (source : OnboardingStatus) (loc : Local Records Write Key Label) : Prop :=
  loc.made = [] ∧ loc.label.stage = .loaded id source ∨
  loc.made.length = 1 ∧ loc.label.stage = .reviewing id ∨
  loc.made.length = 2 ∧ loc.label.stage = .idle

/-- The two commits of a submission. -/
def Moving (session : Session) (id : Uuid) (source : OnboardingStatus) {A : Type} (p : Tx A)
    (loc : Local Records Write Key Label) : Prop :=
  match p with
  | Prog.commit _ =>
    loc.made = [] ∧ loc.label.stage = .loaded id source ∧
      (∀ d : Records, (applyAll loc.pending d).view = d.view.opened session id source) ∨
    loc.made.length = 1 ∧ loc.label.stage = .reviewing id ∧
      ∃ target, (target = .approved ∨ target = .rejected) ∧
        ∀ d : Records, (applyAll loc.pending d).view = d.view.moved session id .inReview target
  | Prog.atomic _ _ => False
  | _ => Stands id source loc

/-- A submission that answers has decided. -/
def Answers (id : Uuid) (source : OnboardingStatus) {A : Type} (r : Except ApiError A)
    (loc : Local Records Write Key Label) : Prop :=
  Stands id source loc ∧ ∀ a, r = .ok a → loc.made.length = 2

section Submission

variable {S : Records → Prop} {session : Session} {id : Uuid} {source : OnboardingStatus}
  {lower : String → String} {loc : Local Records Write Key Label} {A B : Type}

theorem moving_of_looks {p : Tx A} (h : p.Looks) (hs : Stands id source loc) :
    Moving session id source p loc := by
  cases p with
  | fresh | query | read | lock => exact hs
  | _ => exact h.elim

/-- The answer of a submission does not matter. -/
theorem moving_silent {p : Tx A} (h : Moving session id source p loc) :
    Moving session id source (p.bind fun _ => .ret ()) loc := by
  cases p <;> exact h

/-- A piece of a transaction that the view does not show. -/
theorem points_adds_bind {p : Tx B} {g : B → Tx A} (hp : p.Adds Unseen) (hs : Stands id source loc)
    (hg : ∀ b loc', Added Unseen loc loc' → (g b).Points S (Moving session id source)
      (Answers id source) loc') :
    (p.bind g).Points S (Moving session id source) (Answers id source) loc := by
  have hstands : ∀ {loc'}, Added Unseen loc loc' → Stands id source loc' := fun ha => by
    rw [Stands, ha.made, ha.label]; exact hs
  exact points_bind_of (points_of_adds hp (.refl loc))
    (fun p' loc' h => moving_of_looks h.2.bind (hstands h.1)) hg
    fun e loc' h => ⟨hstands h, by simp⟩

theorem adds_insertChecks (appId : Uuid) (checks : List CheckResult) :
    (Repo.insertChecks appId checks).Adds Unseen := by
  induction checks with
  | nil => trivial
  | cons c cs ih =>
    refine Prog.Adds.bind (fun _ => trivial) fun d => ?_
    split
    · trivial
    · exact fun n => ⟨fun _ => rfl, ih⟩

theorem adds_replaceKybChecks (appId : Uuid) (checks : List CheckResult) :
    (Repo.replaceKybChecks appId checks).Adds Unseen := fun _ _ =>
  ⟨fun _ => rfl, adds_insertChecks appId checks⟩

theorem adds_loadOwned (session : Session) (applicationId : Option Uuid) :
    (loadOwned session applicationId).Adds Unseen := by
  refine Prog.Adds.bind (Prog.Adds.bind (fun _ => trivial) fun d => ?_) fun r => ?_
  · split
    · exact Prog.Adds.bind (fun _ _ => trivial) fun _ => trivial
    · trivial
  · split
    · trivial
    · split
      · split <;> trivial
      · trivial

/-- The second transaction of a submission, and its answer. -/
theorem points_decide {app : Application} {business : BusinessDetails} {serial : String}
    (hpend : loc.pending = []) (hmade : loc.made.length = 1)
    (hstage : loc.label.stage = .reviewing app.row.id) :
    (do
      let now ← Tx.begin
      Repo.replaceKybChecks app.row.id (runChecks lower app).checks
      decision session app business (runChecks lower app) serial now
      Tx.commit
      Tx.mark (·.withStage .idle)
      loadOwned session none).Points S (Moving session app.row.id source)
        (Answers app.row.id source) loc := by
  have hs : Stands app.row.id source loc := .inr (.inl ⟨hmade, hstage⟩)
  refine ⟨hs, fun d _ => ?_⟩
  show Prog.Points _ _ _ ((Repo.replaceKybChecks _ _).bind _) loc
  refine points_adds_bind (adds_replaceKybChecks _ _) hs fun _ loc₁ ha => ?_
  obtain ⟨ws, hws, hunseen⟩ := ha.pending
  rw [hpend, List.nil_append] at hws
  have hmade₁ : loc₁.made.length = 1 := by rw [ha.made, hmade]
  have hstage₁ : loc₁.label.stage = .reviewing app.row.id := by rw [ha.label, hstage]
  -- what is left once the decision is written: the commit, and loading the application again
  have hrest : ∀ (loc₂ : Local Records Write Key Label) (target : OnboardingStatus),
      (target = .approved ∨ target = .rejected) → loc₂.made = loc₁.made → loc₂.label = loc₁.label →
      (∀ d : Records, (applyAll loc₂.pending d).view =
        d.view.moved session app.row.id .inReview target) →
      (Tx.commit.bind fun _ => (Tx.mark (·.withStage .idle)).bind fun _ =>
        loadOwned session none).Points S (Moving session app.row.id source)
          (Answers app.row.id source) loc₂ := by
    intro loc₂ target htarget hm hl hview
    refine ⟨.inr ⟨hm ▸ hmade₁, hl ▸ hstage₁, target, htarget, hview⟩, fun d _ => ?_⟩
    show (loadOwned session none).Points _ _ _ _
    rw [← Prog.bind_ret (loadOwned session none)]
    refine points_adds_bind (adds_loadOwned _ _) (.inr (.inr ⟨?_, rfl⟩)) fun app' loc' ha' => ?_
    · simp [hm, hmade₁]
    · have hm' : loc'.made.length = 2 := by rw [ha'.made]; simp [hm, hmade₁]
      have hl' : loc'.label.stage = .idle := by rw [ha'.label]; rfl
      exact ⟨.inr (.inr ⟨hm', hl'⟩), fun _ _ => hm'⟩
  have hs₁ : Stands app.row.id source loc₁ := .inr (.inl ⟨hmade₁, hstage₁⟩)
  unfold decision
  split
  case isTrue =>
    refine ⟨hs₁, fun _ _ _ _ => ⟨hs₁, fun _ _ _ _ => hrest _ .approved (.inl rfl) rfl rfl ?_⟩⟩
    intro d
    rw [view_applyAll]
    show viewAll ((((loc₁.pending ++ [_]) ++ [_]) ++ [_]) ++ [_]) _ = _
    simp only [hws, viewAll_append, viewAll_unseen hunseen]
    rfl
  case isFalse =>
    refine ⟨hs₁, fun _ _ _ _ => hrest _ .rejected (.inr rfl) rfl rfl ?_⟩
    intro d
    rw [view_applyAll]
    show viewAll ((loc₁.pending ++ [_]) ++ [_]) _ = _
    simp only [hws, viewAll_append, viewAll_unseen hunseen]
    rfl

/-- What loading an application comes to once its row is found. -/
def assembled (applicationId : Option Uuid) (found : Option ApplicationRow) : Tx Application :=
  (match found with
    | some row => (Repo.assemble row).bind fun app => .ret (some app)
    | none => .ret none : Tx (Option Application)).bind fun
    | none => Prog.fail (.notFound "No onboarding application for this customer.")
    | some app =>
      match applicationId with
      | some id => if id ≠ app.row.id then Prog.fail
        (.notFound "Application not found.") else .ret app
      | none => .ret app

/-- A submission from its second statement on, after the first has read `d`. -/
def afterLoad (lower : String → String) (session : Session) (applicationId : Option Uuid)
    (serial : String) (d : Records) : Tx Unit :=
  Prog.mark (·.withStage (d.stageOf session applicationId))
    (((assembled applicationId
      (d.applications.find? fun a => a.customerId = session.customerId)).bind
        (review lower session serial)).bind fun _ => .ret ())

theorem prog_submit {isDigit : Char → Bool} {applicationId : Option Uuid} {serial : String} :
    (Op.submit session applicationId serial).prog isDigit lower =
      Prog.query (afterLoad lower session applicationId serial) := rfl

/-- Loading is a few more looks at the row found. -/
theorem points_assembled {applicationId : Option Uuid} {found : Option ApplicationRow}
    {P : Tx Application → Local Records Write Key Label → Prop}
    {Q : Except ApiError Application → Local Records Write Key Label → Prop}
    (hP : ∀ p : Tx Application, p.Looks → P p loc)
    (hnone : found = none → Q (.error (.notFound "No onboarding application for this customer."))
      loc)
    (hother : ∀ row, found = some row → (∃ id ∈ applicationId, id ≠ row.id) →
      Q (.error (.notFound "Application not found.")) loc)
    (hsome : ∀ row app, found = some row → (∀ id ∈ applicationId, id = row.id) → app.row = row →
      Q (.ok app) loc) : (assembled applicationId found).Points S P Q loc := by
  cases found with
  | none => exact hnone rfl
  | some row =>
    refine ⟨hP _ trivial, fun d _ => ⟨hP _ trivial, fun d' _ => ?_⟩⟩
    cases applicationId with
    | none => exact hsome row _ rfl (by simp) rfl
    | some id =>
      show Prog.Points _ _ _ (if _ then _ else _) _
      split
      case isTrue hne => exact hother row rfl ⟨id, rfl, hne⟩
      case isFalse heq => exact hsome row _ rfl (by simpa using heq) rfl

/-- A submission whose application has been found fit. -/
theorem points_review {serial : String} {app : Application} (hpend : loc.pending = [])
    (hmade : loc.made = []) (hstage : loc.label.stage = .loaded app.row.id app.row.status)
    (hbusiness : app.row.business.isSome) (hsub : app.row.status ≠ .submitted)
    (hrev : app.row.status ≠ .inReview) :
    (review lower session serial app).Points S (Moving session app.row.id app.row.status)
      (Answers app.row.id app.row.status) loc := by
  have hs : Stands app.row.id app.row.status loc := .inl ⟨hmade, hstage⟩
  obtain ⟨business, hb⟩ := Option.isSome_iff_exists.1 hbusiness
  have hguard : (decide (app.row.status = .submitted) || decide (app.row.status = .inReview)) =
    false := by
    simp [hsub, hrev]
  unfold review
  rw [hb]
  dsimp only
  rw [hguard]
  refine ⟨hs, fun _ _ => ⟨hs, fun _ _ _ _ => ⟨hs, fun _ _ _ _ =>
    ⟨.inl ⟨hmade, hstage, fun d => ?_⟩, fun d _ => ?_⟩⟩⟩⟩
  · rw [view_applyAll]
    show viewAll ((((loc.pending ++ [_]) ++ [_]) ++ [_]) ++ [_]) _ = _
    rw [hpend]
    rfl
  · refine points_decide rfl ?_ rfl
    simp [hmade]

/-- Statements of a submission that has found nothing fit for review. -/
def Quiet {A : Type} (p : Tx A) (loc : Local Records Write Key Label) : Prop :=
  loc.made = [] ∧ loc.label.stage = .idle ∧ p.Looks

/-- It answers with one error. -/
def Refuses (e : ApiError) {A : Type} (r : Except ApiError A)
    (loc : Local Records Write Key Label) :
    Prop := loc.made = [] ∧ r = .error e

/-- The answer of a submission that has found nothing fit for review. -/
def Records.refusal (d : Records) (session : Session) (applicationId : Option Uuid) : ApiError :=
  match d.applications.find? fun a => a.customerId = session.customerId with
  | none => .notFound "No onboarding application for this customer."
  | some row =>
    if ∃ id ∈ applicationId, id ≠ row.id then .notFound "Application not found."
    else if row.business = none then .validation "Add your business details before submitting."
    else .conflict "This application is already being reviewed."

/-- A submission whose application is not fit for review. -/
theorem points_review_unfit {serial : String} {app : Application} {e : ApiError}
    (hmade : loc.made = []) (hfit : ¬(app.row.business.isSome ∧ app.row.status ≠ .submitted ∧
      app.row.status ≠ .inReview))
    (he : e = if app.row.business = none then
      .validation "Add your business details before submitting."
      else .conflict "This application is already being reviewed.") :
    (review lower session serial app).Points S Quiet (Refuses e) loc := by
  unfold review
  split
  case h_1 hb =>
    rw [if_pos hb] at he
    exact ⟨hmade, he ▸ rfl⟩
  case h_2 business hb =>
    have hguard : (decide (app.row.status = .submitted) || decide (app.row.status = .inReview)) =
        true := by
      simp only [hb, Option.isSome_some, true_and, not_and_or, not_not] at hfit
      simpa using hfit
    rw [if_neg (by simp [hb])] at he
    dsimp only
    rw [if_pos hguard]
    exact ⟨hmade, he ▸ rfl⟩

/-- A submission that has found an application fit. -/
def Fit (session : Session) (id : Uuid) (source : OnboardingStatus)
    (c : Call Records Write Key Label ApiError Unit) : Prop :=
  c.Points (fun _ => True) (Moving session id source) (Answers id source)

/-- A submission that has found nothing fit. -/
def Unfit (e : ApiError) (c : Call Records Write Key Label ApiError Unit) : Prop :=
  c.Points (fun _ => True) Quiet (Refuses e)

/-- The first statement of a submission finds its application fit for review, or leaves one
answer. -/
theorem next_submit {isDigit : Char → Bool} {applicationId : Option Uuid} {serial : String}
    {free : Key → Bool} {d d' : Records} {c' : Call Records Write Key Label ApiError Unit}
    (hn : (Call.start ((Op.submit session applicationId serial).prog isDigit lower)).next free d =
      some (d', c')) :
    d' = d ∧ c'.made = [] ∧
      ((∃ id source, d.stageOf session applicationId = .loaded id source ∧
        Fit session id source c') ∨
      d.stageOf session applicationId = .idle ∧ Unfit (d.refusal session applicationId) c') := by
  rw [prog_submit] at hn
  have hn : some (d, Call.settle (afterLoad lower session applicationId serial d) { label := {} }) =
      some (d', c') := hn
  obtain ⟨rfl, rfl⟩ := Prod.mk.inj (Option.some.inj hn)
  refine ⟨rfl, Call.made_settle .., ?_⟩
  -- what is asked of the call once it has read the row
  let row? := d.applications.find? fun a => a.customerId = session.customerId
  let loc : Local Records Write Key Label :=
    { label := Label.withStage {} (d.stageOf session applicationId) }
  have hstart : ∀ {P : Tx Unit → Local Records Write Key Label → Prop}
      {Q : Except ApiError Unit → Local Records Write Key Label → Prop},
      ((assembled applicationId row?).bind (review lower session serial)).Points (fun _ => True)
        (fun p => P (p.bind fun _ => .ret ()))
        (fun r loc => Q (r.map fun _ => ()) loc) loc →
      (Call.settle (afterLoad lower session applicationId serial d) { label := {} }).Points
          (fun _ => True) P Q := by
    intro P Q h
    refine Call.points_settle ?_
    show ((((assembled applicationId row?).bind (review lower session serial))).bind
      fun _ => .ret ()).Points (fun _ => True) P Q loc
    exact points_bind_of h (fun _ _ h => h) (fun _ _ h => h) fun _ _ h => h
  by_cases hfit : ∃ row, row? = some row ∧ (row.business.isSome ∧ row.status ≠ .submitted ∧
      row.status ≠ .inReview) ∧ ∀ id ∈ applicationId, id = row.id
  · obtain ⟨row, hrow, ⟨hb, hsub, hrev⟩, hid⟩ := hfit
    have hstage : d.stageOf session applicationId = .loaded row.id row.status := by
      unfold Records.stageOf
      rw [show d.applications.find? _ = some row from hrow]
      exact if_pos ⟨hb, hsub, hrev, hid⟩
    refine .inl ⟨row.id, row.status, hstage, hstart ?_⟩
    have hs : Stands row.id row.status loc := .inl ⟨rfl, hstage⟩
    refine points_bind_of (points_assembled (P := fun p loc' => p.Looks ∧ loc' = loc)
      (Q := fun r loc' => loc' = loc ∧ ∃ app, r = .ok app ∧ app.row = row) (fun p hp => ⟨hp, rfl⟩)
      (fun hnone => ?_) (fun row' hrow' hother => ?_) fun row' app hrow' _ happ => ?_)
      (fun p loc' h => h.2 ▸ moving_of_looks h.1.bind.bind hs) (fun app loc' h => ?_)
      fun e loc' h => by obtain ⟨-, app, happ, -⟩ := h; cases happ
    · rw [hrow] at hnone; cases hnone
    · rw [hrow] at hrow'
      cases hrow'
      obtain ⟨id, hmem, hne⟩ := hother
      exact absurd (hid id hmem) hne
    · rw [hrow] at hrow'
      cases hrow'
      exact ⟨rfl, app, rfl, happ⟩
    · obtain ⟨rfl, app', happ', hrow'⟩ := h
      cases happ'
      subst hrow'
      exact points_mono (fun _ _ => moving_silent) (fun r loc' h => ⟨h.1, fun _ hr => by
        cases r with
        | error e => cases hr
        | ok a => exact h.2 a rfl⟩) (points_review rfl rfl hstage hb hsub hrev)
  · have hstage : d.stageOf session applicationId = .idle := by
      unfold Records.stageOf
      split
      case h_2 => rfl
      case h_1 row hrow =>
        exact if_neg fun h => hfit ⟨row, hrow, ⟨h.1, h.2.1, h.2.2.1⟩, h.2.2.2⟩
    refine .inr ⟨hstage, hstart ?_⟩
    refine points_bind_of (points_assembled (P := fun p loc' => p.Looks ∧ loc' = loc)
      (Q := fun r loc' => loc' = loc ∧ (r = .error (d.refusal session applicationId) ∨
        ∃ row app, r = .ok app ∧ row? = some row ∧ app.row = row ∧
          ∀ id ∈ applicationId, id = row.id))
      (fun p hp => ⟨hp, rfl⟩) (fun hnone => ?_) (fun row hrow hother => ?_)
      fun row app hrow hid happ => ⟨rfl, .inr ⟨row, app, rfl, hrow, happ, hid⟩⟩)
      (fun p loc' h => ⟨h.2 ▸ rfl, h.2 ▸ hstage, h.1.bind.bind⟩) (fun app loc' h => ?_)
      fun e loc' h => ?_
    · refine ⟨rfl, .inl ?_⟩
      unfold Records.refusal
      rw [show d.applications.find? _ = none from hnone]
    · refine ⟨rfl, .inl ?_⟩
      unfold Records.refusal
      rw [show d.applications.find? _ = some row from hrow]
      exact congrArg _ (if_pos hother).symm
    · obtain ⟨rfl, h | ⟨row, app', happ', hrow, rfl, hid⟩⟩ := h
      · cases h
      cases happ'
      refine points_mono (fun _ _ h => ⟨h.1, h.2.1, h.2.2.bind⟩)
        (fun r loc' h => ⟨h.1, by rw [h.2]; rfl⟩)
        (points_review_unfit rfl (fun h => hfit ⟨_, hrow, h, hid⟩) ?_)
      unfold Records.refusal
      rw [show d.applications.find? _ = some app.row from hrow]
      exact if_neg fun ⟨id, hmem, hne⟩ => hne (hid id hmem)
    · obtain ⟨rfl, h | ⟨row, app', happ', -⟩⟩ := h
      · cases h; exact ⟨rfl, rfl⟩
      · cases happ'

end Submission

/-! ### Steps of a submission -/

section Turns

variable {c c' : Call Records Write Key Label ApiError Unit} {session : Session} {id id' : Uuid}
  {source source' : OnboardingStatus} {d d' : Records} {free : Key → Bool}

theorem start_submit_stage {isDigit : Char → Bool} {lower : String → String}
    {applicationId : Option Uuid} {serial : String} :
    (Call.start ((Op.submit session applicationId serial).prog isDigit lower)).label.stage =
      .idle := by rw [prog_submit]; rfl

theorem Fit.next (h : Fit session id source c) (hn : c.next free d = some (d', c')) :
    Fit session id source c' := Call.points_next h trivial hn

theorem Unfit.next {e : ApiError} (h : Unfit e c) (hn : c.next free d = some (d', c')) :
    Unfit e c' := Call.points_next h trivial hn

theorem stands_of_moving {A : Type} {p : Tx A} {loc : Local Records Write Key Label}
    (h : Moving session id source p loc) : Stands id source loc := by
  cases p with
  | commit =>
    rcases h with ⟨hm, hl, -⟩ | ⟨hm, hl, -⟩
    · exact .inl ⟨hm, hl⟩
    · exact .inr (.inl ⟨hm, hl⟩)
  | atomic => exact h.elim
  | _ => exact h

/-- Where a running submission stands is told by the commits it has made. -/
theorem Fit.stage (h : Fit session id source c) (hrun : c.ended = false) :
    c.made = [] ∧ c.label.stage = .loaded id source ∨
    c.made.length = 1 ∧ c.label.stage = .reviewing id ∨
    c.made.length = 2 ∧ c.label.stage = .idle := by
  cases c with
  | run p loc w => exact stands_of_moving h.1
  | done | crashed => cases hrun

/-- Where a submission stands after so many commits. -/
def stageAfter (id : Uuid) (source : OnboardingStatus) : ℕ → Stage
  | 0 => .loaded id source
  | 1 => .reviewing id
  | _ => .idle

theorem Fit.stage_eq (h : Fit session id source c) (hrun : c.ended = false) :
    c.label.stage = stageAfter id source c.made.length := by
  rcases h.stage hrun with ⟨hm, hl⟩ | ⟨hm, hl⟩ | ⟨hm, hl⟩ <;> rw [hm, hl] <;> rfl

theorem running_of_stage {stage : Stage} (hl : c.label.stage = stage) (hne : stage ≠ .idle) :
    c.ended = false := by
  cases c with
  | run => rfl
  | done | crashed => exact absurd hl.symm hne

/-- It reviews no other application, and only between its commits. -/
theorem Fit.of_reviewing (h : Fit session id source c) (hl : c.label.stage = .reviewing id') :
    id' = id ∧ c.made.length = 1 := by
  rcases h.stage (running_of_stage hl (by simp)) with ⟨-, hl'⟩ | ⟨hm, hl'⟩ | ⟨-, hl'⟩
  · rw [hl] at hl'; cases hl'
  · rw [hl] at hl'; cases hl'; exact ⟨rfl, hm⟩
  · rw [hl] at hl'; cases hl'

theorem Unfit.stage {e : ApiError} (h : Unfit e c) : c.label.stage = .idle := by
  cases c with
  | run p loc w => exact h.1.2.1
  | done | crashed => rfl

/-- What a step of a submission does: nothing, or a review begins or ends. -/
inductive Turn (c c' : Call Records Write Key Label ApiError Unit) (v v' : View) : Prop
  | same (hv : v' = v) (hm : c'.made = c.made)
  | opened (session : Session) (id : Uuid) (source : OnboardingStatus)
      (hl : c.label.stage = .loaded id source) (hv : v' = v.opened session id source)
      (hm : c'.made.length = 1) (hc : Fit session id source c')
  | decided (session : Session) (id : Uuid) (target : OnboardingStatus)
      (hl : c.label.stage = .reviewing id) (ht : target = .approved ∨ target = .rejected)
      (hv : v' = v.moved session id .inReview target) (hm : c'.made.length = 2)

theorem Fit.turn (h : Fit session id source c) (hn : c.next free d = some (d', c')) :
    Turn c c' d.view d'.view := by
  rcases Call.points_cases h hn with ⟨hm, rfl | rfl⟩ | ⟨p, loc, w, rfl, hm, hP, hq⟩
  · exact .same rfl hm
  · exact .same rfl hm
  rcases hq with ⟨q, rfl, rfl⟩ | ⟨u, f, rfl, -⟩
  case inr => exact hP.elim
  rcases hP with ⟨hmade, hl, hv⟩ | ⟨hmade, hl, target, ht, hv⟩
  · exact .opened session id source hl (hv d) (by rw [hm, hmade]; rfl) (h.next hn)
  · exact .decided session id target hl ht (hv d) (by rw [hm, List.length_cons, hmade])

theorem Unfit.turn {e : ApiError} (h : Unfit e c) (hn : c.next free d = some (d', c')) :
    d'.view = d.view ∧ c'.made = c.made := by
  rcases Call.points_cases h hn with ⟨hm, rfl | rfl⟩ | ⟨p, loc, w, rfl, hm, hP, hq⟩
  · exact ⟨rfl, hm⟩
  · exact ⟨rfl, hm⟩
  · rcases hq with ⟨q, rfl, -⟩ | ⟨u, f, rfl, -⟩ <;> exact hP.2.2.elim

end Turns

end Kimana.Onboarding
