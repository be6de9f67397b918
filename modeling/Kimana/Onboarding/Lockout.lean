import Kimana.Onboarding.Exclusion

/-!
# Submissions that end between their two commits

A submission refuses an application in review, whoever has put it there.

* `Lost` : a submission has ended after its first commit and before its second.
* `underReview_of_reach` : **while no submission is lost, an application in review is being
  reviewed**, or has been so from the start.
* `locked_of_crash` : a lost submission leaves its application in review, and refuses all others.
-/

namespace Kimana.Onboarding

open ReadCommitted Table Kyb

/-- The call has ended without an answer, or with an error, after one change. -/
def Lost {A : Type} : Call Records Write Key Label ApiError A → Prop
  | .run .. => False
  | .done (.ok _) _ => False
  | .done (.error _) made => made.length = 1
  | .crashed made => made.length = 1

instance {A : Type} : DecidablePred (Lost (A := A))
  | .run .. => inferInstanceAs (Decidable False)
  | .done (.ok _) _ => inferInstanceAs (Decidable False)
  | .done (.error _) made => inferInstanceAs (Decidable (made.length = 1))
  | .crashed made => inferInstanceAs (Decidable (made.length = 1))

theorem ended_of_lost {A : Type} {c : Call Records Write Key Label ApiError A} (h : Lost c) :
    c.ended = true := by
  cases c with
  | run => exact h.elim
  | done | crashed => rfl

/-! ### Other calls -/

/-- Applications keep their statuses or are approved. -/
def Calm (v v' : View) : Prop :=
  ∀ r' ∈ v'.rows, r'.status = .approved ∨ ∃ r ∈ v.rows, r.id = r'.id ∧ r.status = r'.status

/-- Statements that leave statuses or approve. -/
def Calms (w : Write) : Prop :=
  ¬w.Patches ∨ ∃ id patch now, w = .patchStatus id patch now ∧ patch.status = .approved

section Calm

variable {v v' v'' : View}

theorem Calm.of_eq (h : v'.rows = v.rows) : Calm v v' := fun r hr => .inr ⟨r, h ▸ hr, rfl, rfl⟩

theorem Calm.trans (h : Calm v v') (h' : Calm v' v'') : Calm v v'' := fun r'' hr'' => by
  rcases h' r'' hr'' with happ | ⟨r', hr', hid', hst'⟩
  · exact .inl happ
  · rcases h r' hr' with happ | ⟨r, hr, hid, hst⟩
    · exact .inl (hst' ▸ happ)
    · exact .inr ⟨r, hr, hid.trans hid', hst.trans hst'⟩

theorem calm_onView {w : Write} (h : Calms w) (v : View) : Calm v (w.onView v) := by
  rcases h with hp | ⟨id, patch, now, rfl, happ⟩
  case inr =>
    intro r' hr'
    obtain ⟨r, hr, rfl⟩ := List.mem_map.1 hr'
    split
    · exact .inl happ
    · exact .inr ⟨r, hr, rfl, rfl⟩
  cases w with
  | patchStatus => exact absurd trivial hp
  | saveBusiness id business =>
    intro r' hr'
    obtain ⟨r, hr, rfl⟩ := List.mem_map.1 hr'
    refine .inr ⟨r, hr, ?_⟩
    split <;> exact ⟨rfl, rfl⟩
  | insertAudit row =>
    refine .of_eq ?_
    show (if row.isStateChange then v.log row else v).rows = v.rows
    split <;> rfl
  | _ => exact .of_eq (v := v) rfl

theorem calm_viewAll {ws : List Write} (h : ∀ w ∈ ws, Calms w) (v : View) :
    Calm v (viewAll ws v) := by
  induction ws generalizing v with
  | nil => exact .of_eq rfl
  | cons w ws ih =>
    exact (calm_onView (h w List.mem_cons_self) v).trans
      (ih (fun w hw => h w (List.mem_cons_of_mem _ hw)) _)

/-- Labels that do not concern submissions. -/
def Aside (f : Label → Label) : Prop := ∀ l, (f l).stage = l.stage

theorem most_calms : Saves.Most Calms := ⟨fun _ hp _ => .inl hp⟩

theorem Saves.rescreenAll {lower : String → String} {serials : Uuid → String}
    {apps : List Application} (happs : ∀ app ∈ apps, app.row.status = .approved) :
    Saves Calms Aside (Onboarding.rescreenAll lower serials apps) := by
  induction apps with
  | nil => exact .ret _
  | cons app apps ih =>
    have hrest := ih fun a ha => happs a (List.mem_cons_of_mem _ ha)
    have hmark : Saves Calms Aside
        (Tx.mark fun l => l.withJob (l.job.filter (· ≠ app.row.id))) := .mark fun _ => rfl
    unfold Onboarding.rescreenAll
    split
    · exact hmark.bind fun _ => hrest
    · refine .bind (.bind (.writeBack most_calms (fun now => .inr ⟨_, _, now, rfl, ?_⟩) (.inl id))
        fun _ => .bind .commit fun _ => .ret _) fun _ =>
          hmark.bind fun _ => hrest.bind fun _ => .ret _
      exact happs app List.mem_cons_self

theorem Saves.assembleAll_bind {A : Type} {l : List ApplicationRow}
    {g : List Application → Tx A}
    (hg : ∀ apps, apps.map (·.row) = l → Saves Calms Aside (g apps)) :
    Saves Calms Aside ((Repo.assembleAll l).bind g) := by
  induction l generalizing g with
  | nil => exact hg [] rfl
  | cons row rows ih =>
    refine ⟨fun d d' => ?_⟩
    let app : Application :=
      ⟨row, d.principalsOf row.id, d'.documents.filter fun r => r.applicationId = row.id⟩
    show (((Repo.assembleAll rows).bind fun apps => .ret (app :: apps)).bind g).Writes _ _ _
    rw [Prog.bind_assoc]
    exact (ih fun apps happs => hg (app :: apps) (congrArg (row :: ·) happs)).writes

theorem Saves.rescreenApprovedCustomers {lower : String → String} {serials : Uuid → String} :
    Saves Calms Aside (Onboarding.rescreenApprovedCustomers lower serials) := by
  refine ⟨fun d => ⟨fun _ => rfl, ?_⟩⟩
  refine (Saves.assembleAll_bind (l := d.applications.filter fun a => a.status = .approved)
    fun apps happs => Saves.rescreenAll fun app ha => ?_).writes
  have hrow : app.row ∈ apps.map (·.row) := List.mem_map_of_mem ha
  rw [happs] at hrow
  simpa using (List.mem_filter.1 hrow).2

/-- What a call that is not a submission does. -/
def Bystands {A : Type} (p : Tx A) (loc : Local Records Write Key Label) : Prop :=
  loc.label.stage = .idle ∧ (∀ w ∈ loc.pending, Calms w) ∧ ∀ u f, p = Prog.atomic u f → Files u

theorem points_of_saves {S : Records → Prop} {A : Type} {p : Tx A} (hp : Saves Calms Aside p) :
    p.Points S Bystands (fun _ loc => loc.label.stage = .idle ∧ ∀ w ∈ loc.pending, Calms w)
      { label := {} } :=
  points_of_writes (G := fun l => l.stage = .idle) (fun _ l hf hl => (hf l).trans hl) hp.writes rfl
    (by simp)

/-- A submission. -/
def Op.isSubmit : Op → Bool
  | submit .. => true
  | _ => false

theorem points_bystander {S : Records → Prop} {isDigit : Char → Bool} {lower : String → String}
    {op : Op} (h : op.isSubmit = false) :
    (op.prog isDigit lower).Points S Bystands
      (fun _ loc => loc.label.stage = .idle ∧ ∀ w ∈ loc.pending, Calms w) { label := {} } := by
  have hsilent : ∀ {A : Type} {p : Tx A}, Saves Calms Aside p → Saves Calms Aside (silently p) :=
    fun hp => hp.bind fun _ => .ret _
  have hmost := most_calms
  cases op with
  | submit => cases h
  | saveBusinessDetails session business applicationId =>
    exact points_of_saves (hsilent (Saves.saveBusinessDetails hmost ..))
  | savePrincipals session principals applicationId =>
    exact points_of_saves (hsilent (Saves.savePrincipals hmost ..))
  | uploadDocument session upload applicationId millis os =>
    exact points_of_saves (hsilent (Saves.uploadDocument hmost ..))
  | retryDocumentUpload session documentId =>
    exact points_of_saves (hsilent (Saves.retryDocumentUpload hmost ..))
  | removeDocument session documentId os =>
    exact points_of_saves (hsilent (Saves.removeDocument hmost ..))
  | rescreenApprovedCustomers serials =>
    exact points_of_saves (hsilent Saves.rescreenApprovedCustomers)

end Calm

/-! ### Where a call stands -/

/-- A call before its first statement, a submission that has found its application fit or not, or
another call. -/
inductive Standpoint (isDigit : Char → Bool) (lower : String → String) (op : Op)
    (c : Call Records Write Key Label ApiError Unit) : Prop
  | start (h : op.isSubmit = true) (hc : c = .start (op.prog isDigit lower))
  | fit (h : op.isSubmit = true) (session : Session) (id : Uuid) (source : OnboardingStatus)
      (hc : Fit session id source c)
  | unfit (h : op.isSubmit = true) (e : ApiError) (hc : Unfit e c)
  | other (h : op.isSubmit = false) (hc : c.Points (fun _ => True) Bystands
      fun _ loc => loc.label.stage = .idle ∧ ∀ w ∈ loc.pending, Calms w)

section Standpoint

variable {isDigit : Char → Bool} {lower : String → String} {op : Op}
  {c c' : Call Records Write Key Label ApiError Unit} {session : Session} {id id' : Uuid}
  {source : OnboardingStatus} {d d' : Records} {free : Key → Bool}

theorem Standpoint.next (h : Standpoint isDigit lower op c) (hn : c.next free d = some (d', c')) :
    Standpoint isDigit lower op c' := by
  cases h with
  | start h hc =>
    subst hc
    cases op with
    | submit session applicationId serial =>
      rcases (next_submit hn).2.2 with ⟨id, source, -, hp⟩ | ⟨-, hp⟩
      · exact .fit h session id source hp
      · exact .unfit h _ hp
    | _ => cases h
  | fit h session id source hc => exact .fit h session id source (hc.next hn)
  | unfit h e hc => exact .unfit h e (hc.next hn)
  | other h hc => exact .other h (Call.points_next hc trivial hn)

theorem Standpoint.crashed {made : List (Records × Records)} :
    Standpoint isDigit lower op (.crashed made) := by
  cases h : op.isSubmit with
  | true => exact .unfit h .serverError trivial
  | false => exact .other h trivial

theorem Standpoint.initial : Standpoint isDigit lower op (.start (op.prog isDigit lower)) := by
  cases h : op.isSubmit with
  | true => exact .start h rfl
  | false => exact .other h (Call.points_settle (points_bystander h))

/-- Only a submission between its two commits reviews anything. -/
theorem Standpoint.fit_of_reviewing (h : Standpoint isDigit lower op c)
    (hl : c.label.stage = .reviewing id) :
    op.isSubmit = true ∧ c.made.length = 1 ∧ ∃ session source, Fit session id source c := by
  cases h with
  | start h hc =>
    subst hc
    cases op with
    | submit => rw [start_submit_stage] at hl; cases hl
    | _ => cases h
  | fit h session id' source hc =>
    obtain ⟨rfl, hm⟩ := hc.of_reviewing hl
    exact ⟨h, hm, session, source, hc⟩
  | unfit h e hc => rw [hc.stage] at hl; cases hl
  | other h hc =>
    cases c with
    | run p loc w =>
      have hl : loc.label.stage = .reviewing id := hl
      rw [hc.1.1] at hl
      cases hl
    | done | crashed => cases hl

/-- A submission between its two commits that has not been lost reviews its application. -/
theorem reviewing_of_fit (h : Fit session id source c) (hmade : c.made.length = 1)
    (hlost : ¬Lost c) : c.label.stage = .reviewing id := by
  have hrun : c.ended = false := by
    cases c with
    | run => rfl
    | crashed made => exact absurd hmade hlost
    | done r made =>
      obtain ⟨loc, rfl, -, hok⟩ := h
      cases r with
      | error e => exact absurd hmade hlost
      | ok a =>
        have hm := hok a rfl
        have hmade : loc.made.length = 1 := hmade
        omega
  rcases h.stage hrun with ⟨hm, -⟩ | ⟨-, hl⟩ | ⟨hm, -⟩
  · rw [hm] at hmade; cases hmade
  · exact hl
  · omega

/-- A step of a submission is a turn of its review; other calls are calm. -/
theorem Standpoint.turn (h : Standpoint isDigit lower op c) (hn : c.next free d = some (d', c')) :
    op.isSubmit = true ∧ Turn c c' d.view d'.view ∨
      c.label.stage = .idle ∧ Calm d.view d'.view := by
  cases h with
  | start h hc =>
    subst hc
    cases op with
    | submit =>
      have hd := (next_submit hn).1
      subst hd
      exact .inr ⟨start_submit_stage, .of_eq rfl⟩
    | _ => cases h
  | fit h session id source hc => exact .inl ⟨h, hc.turn hn⟩
  | unfit h e hc => exact .inr ⟨hc.stage, .of_eq (congrArg View.rows (hc.turn hn).1)⟩
  | other h hc =>
    have hbump : (bump d).view.rows = d.view.rows := rfl
    have hl : c.label.stage = .idle := by
      cases c with
      | run p loc w => exact hc.1.1
      | done | crashed => rfl
    refine .inr ⟨hl, ?_⟩
    rcases Call.points_cases hc hn with ⟨-, rfl | rfl⟩ | ⟨p, loc, w, rfl, -, hP, hq⟩
    · exact .of_eq rfl
    · exact .of_eq hbump
    rcases hq with ⟨q, rfl, rfl⟩ | ⟨u, f, rfl, rfl⟩
    · rw [view_applyAll]
      exact calm_viewAll hP.2.1 _
    · obtain ⟨files, hd⟩ := hP.2.2 u f rfl d
      rw [hd]
      exact .of_eq rfl

end Standpoint

/-! ### Every interleaving -/

section Runs

variable {ι : Type} [DecidableEq ι] {isDigit : Char → Bool} {lower : String → String}

/-- No submission has been lost between its two commits. -/
def NoneLost (ops : ι → Op) (s : Sys ι Records Write Key Label ApiError Unit) : Prop :=
  ∀ i, (ops i).isSubmit = true → ¬Lost (s.calls i)

/-- A call reviews the application with an id. -/
def UnderReview (s : Sys ι Records Write Key Label ApiError Unit) (id : Uuid) : Prop :=
  ∃ i, (s.calls i).label.stage = .reviewing id

/-- Where the calls stand, and who reviews what. -/
structure Attended (isDigit : Char → Bool) (lower : String → String) (ops : ι → Op) (v₀ : View)
    (s : Sys ι Records Write Key Label ApiError Unit) : Prop where
  calls : ∀ i, Standpoint isDigit lower (ops i) (s.calls i)
  busy : ∀ r ∈ s.shared.view.rows, r.status.Busy →
    UnderReview s r.id ∨ ∃ r₀ ∈ v₀.rows, r₀.id = r.id ∧ r₀.status = r.status

theorem Attended.step {ops : ι → Op} {v₀ : View} {e : Event ι}
    {s s' : Sys ι Records Write Key Label ApiError Unit} (h : Attended isDigit lower ops v₀ s)
    (hst : Step Env e s s') (hlost : NoneLost ops s') : Attended isDigit lower ops v₀ s' := by
  cases e with
  | env =>
    obtain ⟨d, ⟨t, -, rfl⟩, rfl⟩ := hst
    exact ⟨h.calls, h.busy⟩
  | crash j =>
    obtain ⟨p, loc, w, hj, rfl⟩ := hst
    refine ⟨fun i => ?_, fun r hr hb => ?_⟩
    · by_cases hij : i = j
      · subst hij; simpa using Standpoint.crashed
      · simpa only [Function.update_of_ne hij] using h.calls i
    · refine (h.busy r hr hb).imp_left fun ⟨i, hi⟩ => ⟨i, ?_⟩
      by_cases hij : i = j
      · -- a reviewer that crashes is lost
        subst hij
        obtain ⟨hsub, hm, -⟩ := (h.calls i).fit_of_reviewing hi
        refine absurd ?_ (hlost i hsub)
        rw [hj] at hm
        show Lost (Function.update s.calls i (.crashed loc.made) i)
        rw [Function.update_self]
        exact hm
      · simpa only [Function.update_of_ne hij] using hi
  | go j =>
    obtain ⟨free, -, d, c, hn, rfl⟩ := hst
    have hcalls : ∀ i, Standpoint isDigit lower (ops i) (Function.update s.calls j c i) :=
      fun i => by
      by_cases hij : i = j
      · subst hij; simpa using (h.calls i).next hn
      · simpa only [Function.update_of_ne hij] using h.calls i
    have hlostj : (ops j).isSubmit = true → ¬Lost c := fun hsub => by simpa using hlost j hsub
    -- a review under way goes on, unless it is this call's and the call has left it
    have hkeep : ∀ {id}, UnderReview s id →
        ((s.calls j).label.stage = .reviewing id → c.label.stage = .reviewing id) →
        UnderReview ⟨d, Function.update s.calls j c⟩ id := by
      rintro id ⟨i, hi⟩ hj
      refine ⟨i, ?_⟩
      by_cases hij : i = j
      · subst hij; simpa using hj hi
      · simpa only [Function.update_of_ne hij] using hi
    refine ⟨hcalls, fun r hr hb => ?_⟩
    rcases (h.calls j).turn hn with ⟨hsub, ht⟩ | ⟨hl, hv⟩
    case inr =>
      rcases hv r hr with happ | ⟨r₀, hr₀, hid, hst⟩
      · rw [OnboardingStatus.Busy, happ] at hb
        simp at hb
      · have hb₀ := h.busy r₀ hr₀ (hst ▸ hb)
        rw [hid, hst] at hb₀
        refine hb₀.imp_left fun hu => hkeep hu fun hl' => ?_
        rw [hl] at hl'
        cases hl'
    have hr : r ∈ d.view.rows := hr
    cases ht with
    | same hv hm =>
      rw [hv] at hr
      refine (h.busy r hr hb).imp_left fun hu => hkeep hu fun hl => ?_
      obtain ⟨-, hm', session, source, hc⟩ := (h.calls j).fit_of_reviewing hl
      exact reviewing_of_fit (hc.next hn) (hm ▸ hm') (hlostj hsub)
    | opened session id source hl hv hm hc =>
      rw [hv] at hr
      rcases View.of_mem_opened hr with ⟨rfl, -⟩ | ⟨hid, hr⟩
      · exact .inl ⟨j, by simpa using reviewing_of_fit hc hm (hlostj hsub)⟩
      · refine (h.busy r hr hb).imp_left fun hu => hkeep hu fun hl' => ?_
        rw [hl] at hl'
        cases hl'
    | decided session id target hl ht hv hm =>
      rw [hv] at hr
      rcases View.of_mem_moved hr with ⟨-, hst⟩ | ⟨hid, hr⟩
      · rw [OnboardingStatus.Busy, hst] at hb
        rcases ht with rfl | rfl <;> simp at hb
      · refine (h.busy r hr hb).imp_left fun hu => hkeep hu fun hl' => ?_
        rw [hl] at hl'
        exact absurd (Stage.reviewing.inj hl').symm hid

/-- **While no submission is lost between its two commits, an application is submitted or in review
only if a call is reviewing it**, or if it has had that status from the start. -/
theorem underReview_of_reach (ops : ι → Op) {d₀ : Records}
    {s : Sys ι Records Write Key Label ApiError Unit}
    (hr : Reach (fun e s s' => Step Env e s s' ∧ NoneLost ops s')
      ⟨d₀, fun i => .start ((ops i).prog isDigit lower)⟩ s)
    {a : ApplicationRow} (ha : a ∈ s.shared.applications) (hb : a.status.Busy) :
    UnderReview s a.id ∨ ∃ a₀ ∈ d₀.applications, a₀.id = a.id ∧ a₀.status = a.status := by
  have h : Attended isDigit lower ops d₀.view s :=
    hr.invariant (I := Attended isDigit lower ops d₀.view)
      ⟨fun _ => .initial, fun r hr _ => .inr ⟨r, hr, rfl, rfl⟩⟩
      fun _ _ _ _ hi hst => hi.step hst.1 hst.2
  refine (h.busy a.standing (List.mem_map_of_mem ha) hb).imp_right fun ⟨r₀, hr₀, hid, hst⟩ => ?_
  obtain ⟨a₀, ha₀, rfl⟩ := List.mem_map.1 hr₀
  exact ⟨a₀, ha₀, hid, hst⟩

end Runs

/-! ### A submission lost -/

/-- Business details are saved, submitted, and submitted again. -/
def resubmitted : Fin 3 → Op
  | 0 => .saveBusinessDetails sampleSession (sampleBusiness "Adunola Exports") none
  | 1 => .submit sampleSession none "10000"
  | 2 => .submit sampleSession (some 7) "10001"

/-- The calls of `resubmitted` before they begin. -/
def beforeResubmitted : Sys (Fin 3) Records Write Key Label ApiError Unit :=
  ⟨sampleRecords, fun i => .start ((resubmitted i).prog Char.isDigit sampleLower)⟩

/-- Between its commits, a submission reviews its application. -/
theorem underReview_of_resubmitted : ∃ s : Sys (Fin 3) Records Write Key Label ApiError Unit,
    Reach (fun e s s' => Step Env e s s' ∧ NoneLost resubmitted s') beforeResubmitted s ∧
      ∃ a ∈ s.shared.applications, a.status = .inReview ∧ UnderReview s a.id := by
  obtain ⟨s, hr, hs⟩ := exists_reach_of_turns Env [0, 1, 2] [(0, 10), (1, 10)] beforeResubmitted
    (fun s => decide (∀ i, (resubmitted i).isSubmit = true → ¬Lost (s.calls i)) &&
      decide (∃ a ∈ s.shared.applications, a.status = .inReview)) (by decide) (by decide +kernel)
  simp only [Bool.and_eq_true, decide_eq_true_eq] at hs
  obtain ⟨hlost, a, ha, hst⟩ := hs
  have hback : ∀ (e : Event (Fin 3)) (s s' : Sys (Fin 3) Records Write Key Label ApiError Unit),
      Step Env e s s' → NoneLost resubmitted s' → NoneLost resubmitted s :=
    fun _ _ _ hst hlost i hi hl => hlost i hi (calls_of_ended hst (ended_of_lost hl) ▸ hl)
  have hr' := hr.all_of_last hback hlost
  refine ⟨s, hr', a, ha, hst, ?_⟩
  refine (underReview_of_reach resubmitted hr' ha (.inr hst)).resolve_right ?_
  rintro ⟨a₀, ha₀, -, hst₀⟩
  obtain rfl := List.mem_singleton.1 ha₀
  rw [hst] at hst₀
  cases hst₀

/-- A submission whose connection breaks after its first commit leaves its application in review
with no call left, and the next submission is refused. -/
theorem locked_of_crash : ∃ s : Sys (Fin 3) Records Write Key Label ApiError Unit,
    Reach (Step Env) beforeResubmitted s ∧ (∀ i, (s.calls i).ended = true) ∧ Lost (s.calls 1) ∧
      (∃ a ∈ s.shared.applications, a.id = 7 ∧ a.status = .inReview) ∧
      ∃ made, s.calls 2 = .done (.error alreadyReviewed) made := by
  obtain ⟨s, hr, hs⟩ := exists_reach_of_play Env [0, 1, 2]
    (schedule [(0, 10), (1, 10)] ++ [.crash 1] ++ schedule [(2, 3)]) beforeResubmitted
    (fun s => decide (∀ i, (s.calls i).ended = true) && decide (Lost (s.calls 1)) &&
      decide (∃ a ∈ s.shared.applications, a.id = 7 ∧ a.status = .inReview) &&
      decide ((s.calls 2).result? = some (.error alreadyReviewed)))
    (by decide) (by simp [schedule]) (by decide +kernel)
  simp only [Bool.and_eq_true, decide_eq_true_eq] at hs
  obtain ⟨⟨⟨hended, hlost⟩, hbusy⟩, hrefused⟩ := hs
  exact ⟨s, hr, hended, hlost, hbusy, Call.eq_done_of_result hrefused⟩

end Kimana.Onboarding
