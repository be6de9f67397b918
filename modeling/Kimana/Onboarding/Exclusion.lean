import Kimana.Onboarding.Review

/-!
# One review at a time

The guard of a submission is evaluated on what it has loaded, before and outside the transaction
that puts the application in review.

* `Unmoved` : nobody else changes the status of an application between the load of a submission
  that finds it fit and its first commit.
* `oneReview_of_reach` : **then at most one submission reviews an application, others are refused,
  and every status change is audited with the status it changes**.
* `twoReviews_of_race` : else two submissions review one application at once.
-/

namespace Kimana.Onboarding

open ReadCommitted Table Kyb

/-- The refusal of a submission while another reviews. -/
def alreadyReviewed : ApiError := .conflict "This application is already being reviewed."

/-- The guard of a submission refuses this status. -/
def OnboardingStatus.Busy (status : OnboardingStatus) : Prop :=
  status = .submitted ∨ status = .inReview

/-- A call of `submit`. -/
structure Submission where
  session : Session
  applicationId : Option Uuid
  serial : String

def Submission.op (sub : Submission) : Op :=
  .submit sub.session sub.applicationId sub.serial

/-- While a submission has found an application fit and not put it in review, the others leave its
status. -/
def Unmoved (l : Label) (_ : Option Records) (d d' : Records) : Prop :=
  ∀ id source, l.stage = .loaded id source → d'.status id = d.status id

/-! ### Statuses in the view -/

section View

variable {v v' : View} {session : Session} {id id' : Uuid} {source target : OnboardingStatus}
  {d d' : Records}

/-- The status of an application. -/
def View.status (v : View) (id : Uuid) : Option OnboardingStatus :=
  (v.rows.find? fun r => r.id = id).map (·.status)

theorem status_view (d : Records) (id : Uuid) : d.status id = d.view.status id := by
  simp [Records.status, Records.application, View.status, Records.view, List.find?_map,
    Function.comp_def, ApplicationRow.standing]

theorem View.status_moved : (v.moved session id source target).status id' =
    if id' = id then (v.status id').map fun _ => target else v.status id' := by
  have hrow : ∀ r : Standing, (if r.id = id then { r with status := target } else r).id = r.id :=
    fun r => by split <;> rfl
  unfold View.status
  show Option.map _ ((v.rows.map _).find? _) = _
  rw [List.find?_map]
  simp only [Function.comp_def, hrow]
  cases hf : v.rows.find? fun r => r.id = id' with
  | none => simp
  | some r =>
    have hid : r.id = id' := by simpa using List.find?_some hf
    by_cases he : id' = id
    · simp [hid, he]
    · simp [hid, he]

theorem View.status_opened : (v.opened session id source).status id' =
    if id' = id then (v.status id').map fun _ => .inReview else v.status id' := by
  rw [View.opened, View.status_moved, View.status_moved]
  by_cases he : id' = id
  · simp [he, Function.comp_def]
  · simp [he]

/-- What no submission changes of the applications. -/
def View.subjects (v : View) : List (Uuid × Uuid × Option BusinessDetails) :=
  v.rows.map fun r => (r.id, r.customerId, r.business)

theorem View.subjects_moved : (v.moved session id source target).subjects = v.subjects := by
  show (v.rows.map _).map _ = _
  rw [List.map_map]
  refine List.map_congr_left fun r _ => ?_
  simp only [Function.comp_apply]
  split <;> rfl

theorem View.subjects_opened : (v.opened session id source).subjects = v.subjects := by
  rw [View.opened, View.subjects_moved, View.subjects_moved]

/-- The submission is about the application with an id, which has business details. -/
def Submission.On (sub : Submission) (v : View) (id : Uuid) : Prop :=
  ∃ x ∈ v.subjects, x.1 = id ∧ x.2.1 = sub.session.customerId ∧ x.2.2.isSome ∧
    ∀ k ∈ sub.applicationId, k = id

/-- Each application has its own id and its own customer. -/
structure Distinct (v : View) : Prop where
  ids : (v.subjects.map (·.1)).Nodup
  customers : (v.subjects.map (·.2.1)).Nodup

theorem Distinct.status_of_mem (h : Distinct d.view) {a : ApplicationRow}
    (ha : a ∈ d.applications) :
    d.status a.id = some a.status := by
  have hnd : (d.applications.map (·.id)).Nodup := by
    simpa [View.subjects, Records.view, Function.comp_def, ApplicationRow.standing] using h.ids
  rw [Records.status, Records.application]
  cases hf : d.applications.find? fun b => b.id = a.id with
  | none => simpa using List.find?_eq_none.1 hf a ha
  | some b =>
    have hid : b.id = a.id := by simpa using List.find?_some hf
    rw [List.inj_on_of_nodup_map hnd (List.mem_of_find?_eq_some hf) ha hid]
    rfl

theorem mem_subjects {a : ApplicationRow} (ha : a ∈ d.applications) :
    (a.id, a.customerId, a.business) ∈ d.view.subjects :=
  List.mem_map_of_mem (f := fun r : Standing => (r.id, r.customerId, r.business))
    (List.mem_map_of_mem (f := ApplicationRow.standing) ha)

/-- Two applications of one customer are one. -/
theorem Distinct.of_customer (h : Distinct v) {x y : Uuid × Uuid × Option BusinessDetails}
    (hx : x ∈ v.subjects) (hy : y ∈ v.subjects) (he : x.2.1 = y.2.1) : x = y :=
  List.inj_on_of_nodup_map h.customers hx hy he

end View

/-! ### What a submission finds -/

section Find

variable {sub : Submission} {d : Records} {id : Uuid} {source : OnboardingStatus}

/-- An application found fit is the submission's, and its status is free. -/
theorem stageOf_loaded (hd : Distinct d.view)
    (h : d.stageOf sub.session sub.applicationId = .loaded id source) :
    sub.On d.view id ∧ d.status id = some source ∧ ¬source.Busy := by
  unfold Records.stageOf at h
  split at h
  case h_2 => cases h
  case h_1 row hrow =>
  split at h
  case isFalse => cases h
  case isTrue hfit =>
  cases h
  obtain ⟨hb, hsub, hrev, hid⟩ := hfit
  have hmem := List.mem_of_find?_eq_some hrow
  have hcust : row.customerId = sub.session.customerId := by simpa using List.find?_some hrow
  exact ⟨⟨_, mem_subjects hmem, rfl, hcust, hb, hid⟩, hd.status_of_mem hmem,
    fun h => h.elim hsub hrev⟩

/-- A submission that finds its application not fit refuses it as already reviewed. -/
theorem refusal_of_on (hd : Distinct d.view) (hon : sub.On d.view id) :
    d.refusal sub.session sub.applicationId = alreadyReviewed := by
  obtain ⟨x, hx, rfl, hcust, hb, hid⟩ := hon
  obtain ⟨r, hr, rfl⟩ := List.mem_map.1 hx
  obtain ⟨a, ha, rfl⟩ := List.mem_map.1 hr
  have hcust : a.customerId = sub.session.customerId := hcust
  unfold Records.refusal
  split
  case h_1 hnone => exact absurd hcust (by simpa using List.find?_eq_none.1 hnone a ha)
  case h_2 row hrow =>
  have hmem := List.mem_of_find?_eq_some hrow
  have hrowc : row.customerId = sub.session.customerId := by simpa using List.find?_some hrow
  have he := hd.of_customer (mem_subjects hmem) (mem_subjects ha) (hrowc.trans hcust.symm)
  have hidr : row.id = a.id := congrArg (·.1) he
  have hbr : row.business = a.business := congrArg (·.2.2) he
  rw [if_neg, if_neg]
  · rfl
  · rw [hbr]
    exact fun hn => by rw [show a.standing.business = none from hn] at hb; cases hb
  · rintro ⟨k, hk, hne⟩
    exact hne ((hid k hk).trans hidr.symm)

/-- While an application is in review, a submission about it finds it not fit. -/
theorem stageOf_of_busy (hd : Distinct d.view) (hon : sub.On d.view id)
    (hst : d.status id = some .inReview) : d.stageOf sub.session sub.applicationId = .idle := by
  cases hs : d.stageOf sub.session sub.applicationId with
  | idle => rfl
  | reviewing id' =>
    unfold Records.stageOf at hs
    split at hs
    · split at hs <;> cases hs
    · cases hs
  | loaded id' source =>
    obtain ⟨⟨y, hy, rfl, hcust', -, -⟩, hst', hfree⟩ := stageOf_loaded hd hs
    obtain ⟨x, hx, rfl, hcust, -, -⟩ := hon
    rw [hd.of_customer hy hx (hcust'.trans hcust.symm), hst] at hst'
    cases hst'
    exact absurd (.inr rfl) hfree

end Find

/-! ### Every interleaving -/

/-- A submission before its first statement, or after it has found its application fit or not. -/
inductive Place (v₀ : View) (isDigit : Char → Bool) (lower : String → String) (sub : Submission)
    (c : Call Records Write Key Label ApiError Unit) : Prop
  | start (hc : c = .start (sub.op.prog isDigit lower))
  | fit (id : Uuid) (source : OnboardingStatus) (hon : sub.On v₀ id)
      (hc : Fit sub.session id source c)
  | unfit (e : ApiError) (he : ∀ id, sub.On v₀ id → e = alreadyReviewed) (hc : Unfit e c)

section Place

variable {v₀ : View} {isDigit : Char → Bool} {lower : String → String} {sub : Submission}
  {c c' : Call Records Write Key Label ApiError Unit} {d d' : Records} {free : Key → Bool}
  {id : Uuid} {source : OnboardingStatus}

theorem Place.next (hd : Distinct d.view) (hv : d.view.subjects = v₀.subjects)
    (h : Place v₀ isDigit lower sub c) (hn : c.next free d = some (d', c')) :
    Place v₀ isDigit lower sub c' := by
  have hon : ∀ {id}, sub.On d.view id ↔ sub.On v₀ id := by
    unfold Submission.On
    rw [hv]
  cases h with
  | start hc =>
    subst hc
    rcases (next_submit hn).2.2 with ⟨id, source, hs, hp⟩ | ⟨-, hp⟩
    · exact .fit id source (hon.1 (stageOf_loaded hd hs).1) hp
    · exact .unfit _ (fun id h => refusal_of_on hd (hon.2 h)) hp
  | fit id source hon hc => exact .fit id source hon (hc.next hn)
  | unfit e he hc => exact .unfit e he (hc.next hn)

theorem Place.turn (h : Place v₀ isDigit lower sub c) (hn : c.next free d = some (d', c')) :
    Turn c c' d.view d'.view := by
  cases h with
  | start hc =>
    subst hc
    obtain ⟨rfl, hm, -⟩ := next_submit hn
    exact .same rfl (by rw [hm, Submission.op, prog_submit]; rfl)
  | fit id source hon hc => exact hc.turn hn
  | unfit e he hc => exact .same (hc.turn hn).1 (hc.turn hn).2

/-- What a submission has loaded or reviews is its own application. -/
theorem Place.of_stage (h : Place v₀ isDigit lower sub c) (hne : c.label.stage ≠ .idle) :
    ∃ id source, sub.On v₀ id ∧ Fit sub.session id source c := by
  cases h with
  | start hc =>
    subst hc
    exact absurd start_submit_stage hne
  | fit id source hon hc => exact ⟨id, source, hon, hc⟩
  | unfit e he hc => exact absurd hc.stage hne

theorem Fit.of_loaded {session : Session} {id' : Uuid} {source' : OnboardingStatus}
    (h : Fit session id source c) (hl : c.label.stage = .loaded id' source') :
    id' = id ∧ source' = source ∧ c.made = [] := by
  rcases h.stage (running_of_stage hl (by simp)) with ⟨hm, hl'⟩ | ⟨-, hl'⟩ | ⟨-, hl'⟩
  · rw [hl] at hl'; cases hl'; exact ⟨rfl, rfl, hm⟩
  · rw [hl] at hl'; cases hl'
  · rw [hl] at hl'; cases hl'

theorem running_of_next (hn : c.next free d = some (d', c')) : c.ended = false := by
  cases c with
  | run => rfl
  | done | crashed => cases hn

/-- A step without a commit leaves a submission where it stands, or has just found its application
fit. -/
theorem Place.stage_of_same (hd : Distinct d.view) (h : Place v₀ isDigit lower sub c)
    (hn : c.next free d = some (d', c')) (hm : c'.made = c.made)
    (hne : c'.label.stage ≠ .idle) : c.label.stage = c'.label.stage ∨
      ∃ id source, c'.label.stage = .loaded id source ∧ d.status id = some source ∧
        ¬source.Busy := by
  cases h with
  | start hc =>
    subst hc
    obtain ⟨-, hmade, hcase⟩ := next_submit hn
    rcases hcase with ⟨id, source, hs, hp⟩ | ⟨-, hp⟩
    · rcases hp.stage (running_of_stage rfl hne) with ⟨-, hl⟩ | ⟨hm', -⟩ | ⟨hm', -⟩
      · exact .inr ⟨id, source, hl, (stageOf_loaded hd hs).2⟩
      · rw [hmade] at hm'; cases hm'
      · rw [hmade] at hm'; cases hm'
    · exact absurd hp.stage hne
  | unfit e he hc => exact absurd (hc.next hn).stage hne
  | fit id source hon hc =>
    refine .inl ?_
    rw [hc.stage_eq (running_of_next hn), (hc.next hn).stage_eq (running_of_stage rfl hne), hm]

end Place

/-- Where the submissions stand: what is loaded holds, what is reviewed is in review, and nobody
else reviews it. -/
structure Orderly {ι : Type} (v₀ : View) (isDigit : Char → Bool) (lower : String → String)
    (subs : ι → Submission) (s : Sys ι Records Write Key Label ApiError Unit) : Prop where
  subjects : s.shared.view.subjects = v₀.subjects
  calls : ∀ i, Place v₀ isDigit lower (subs i) (s.calls i)
  loaded : ∀ i id source, (s.calls i).label.stage = .loaded id source →
    s.shared.status id = some source ∧ ¬source.Busy
  reviewing : ∀ i id, (s.calls i).label.stage = .reviewing id →
    s.shared.status id = some .inReview
  alone : ∀ i j id, (s.calls i).label.stage = .reviewing id →
    (s.calls j).label.stage = .reviewing id → i = j

section Runs

variable {ι : Type} {v₀ : View} {isDigit : Char → Bool} {lower : String → String}
  {subs : ι → Submission} {s s' : Sys ι Records Write Key Label ApiError Unit}

theorem Orderly.distinct (h : Orderly v₀ isDigit lower subs s) (h₀ : Distinct v₀) :
    Distinct s.shared.view := ⟨h.subjects ▸ h₀.ids, h.subjects ▸ h₀.customers⟩

/-- Nobody has loaded what is reviewed. -/
theorem Orderly.not_loaded (h : Orderly v₀ isDigit lower subs s) {i j : ι} {id : Uuid}
    {source : OnboardingStatus} (hi : (s.calls i).label.stage = .reviewing id)
    (hj : (s.calls j).label.stage = .loaded id source) : False := by
  obtain ⟨hst, hfree⟩ := h.loaded j id source hj
  rw [h.reviewing i id hi] at hst
  cases hst
  exact hfree (.inr rfl)

/-- Calls that go on as they were, over the same statuses. -/
theorem Orderly.of_stages (h : Orderly v₀ isDigit lower subs s)
    (hcalls : ∀ i, Place v₀ isDigit lower (subs i) (s'.calls i))
    (hv : s'.shared.view = s.shared.view) (hstage : ∀ i, (s'.calls i).label.stage ≠ .idle →
      (s.calls i).label.stage = (s'.calls i).label.stage ∨
        ∃ id source, (s'.calls i).label.stage = .loaded id source ∧
          s.shared.status id = some source ∧ ¬source.Busy) : Orderly v₀ isDigit lower subs s' := by
  have hst : ∀ id, s'.shared.status id = s.shared.status id := fun id => by
    rw [status_view, hv, status_view]
  have hback : ∀ i id, (s'.calls i).label.stage = .reviewing id →
      (s.calls i).label.stage = .reviewing id := fun i id hl => by
    rcases hstage i (by simp [hl]) with he | ⟨id', source, hl', -⟩
    · rw [he, hl]
    · rw [hl] at hl'; cases hl'
  refine ⟨hv ▸ h.subjects, hcalls, fun i id source hl => ?_, fun i id hl => ?_,
    fun i j id hi hj => h.alone i j id (hback i id hi) (hback j id hj)⟩
  · rw [hst]
    rcases hstage i (by simp [hl]) with he | ⟨id', source', hl', hs⟩
    · exact h.loaded i id source (he.trans hl)
    · rw [hl] at hl'
      cases hl'
      exact hs
  · rw [hst]
    exact h.reviewing i id (hback i id hl)

/-- A step of one submission. -/
theorem Orderly.go (h₀ : Distinct v₀) (h : Orderly v₀ isDigit lower subs s) {j : ι}
    {free : Key → Bool} (hn : (s.calls j).next free s.shared = some (s'.shared, s'.calls j))
    (hother : ∀ i, i ≠ j → s'.calls i = s.calls i)
    (hm : ∀ i, i ≠ j → Unmoved (s.calls i).label (s.calls i).wait s.shared s'.shared) :
    Orderly v₀ isDigit lower subs s' := by
  have hd := h.distinct h₀
  have hcalls : ∀ i, Place v₀ isDigit lower (subs i) (s'.calls i) := fun i => by
    by_cases hij : i = j
    · exact hij ▸ (h.calls j).next hd h.subjects hn
    · exact hother i hij ▸ h.calls i
  -- the statuses that the others have loaded have not been moved
  have hloaded : ∀ i id source, i ≠ j → (s'.calls i).label.stage = .loaded id source →
      s'.shared.status id = some source ∧ ¬source.Busy := fun i id source hij hl => by
    rw [hother i hij] at hl
    rw [hm i hij id source hl]
    exact h.loaded i id source hl
  cases (h.calls j).turn hn with
  | same hv hmade =>
    refine h.of_stages hcalls hv fun i hne => ?_
    by_cases hij : i = j
    · subst hij
      exact (h.calls i).stage_of_same hd hn hmade hne
    · exact .inl (by rw [hother i hij])
  | opened session id source hl hv hmade hc =>
    have hst : ∀ k, s'.shared.status k =
        if k = id then (s.shared.status k).map fun _ => .inReview else s.shared.status k :=
      fun k => by rw [status_view, hv, View.status_opened, ← status_view]
    have hnone : ∀ i, i ≠ j → (s'.calls i).label.stage ≠ .reviewing id := fun i hij hi =>
      h.not_loaded (hother i hij ▸ hi) hl
    have hown : ∀ k, (s'.calls j).label.stage = .reviewing k → k = id := fun k hk =>
      (hc.of_reviewing hk).1
    refine ⟨by rw [hv, View.subjects_opened, h.subjects], hcalls, fun i k src hl' => ?_,
      fun i k hl' => ?_, fun i₁ i₂ k h₁ h₂ => ?_⟩
    · by_cases hij : i = j
      · subst hij
        rw [(hc.of_loaded hl').2.2] at hmade
        cases hmade
      · exact hloaded i k src hij hl'
    · by_cases hij : i = j
      · subst hij
        rw [hown k hl', hst, if_pos rfl, (h.loaded i id source hl).1]
        rfl
      · have hk : k ≠ id := fun he => hnone i hij (he ▸ hl')
        rw [hst, if_neg hk]
        exact h.reviewing i k (hother i hij ▸ hl')
    · by_cases hj₁ : i₁ = j
      · by_cases hj₂ : i₂ = j
        · rw [hj₁, hj₂]
        · subst hj₁
          exact absurd (hown k h₁ ▸ h₂) (hnone i₂ hj₂)
      · by_cases hj₂ : i₂ = j
        · subst hj₂
          exact absurd (hown k h₂ ▸ h₁) (hnone i₁ hj₁)
        · exact h.alone i₁ i₂ k (hother i₁ hj₁ ▸ h₁) (hother i₂ hj₂ ▸ h₂)
  | decided session id target hl ht hv hmade =>
    have hst : ∀ k, k ≠ id → s'.shared.status k = s.shared.status k := fun k hk => by
      rw [status_view, hv, View.status_moved, if_neg hk, ← status_view]
    have hnot : ∀ k, (s'.calls j).label.stage ≠ .reviewing k := fun k hk => by
      obtain ⟨id', source, -, hc⟩ := (hcalls j).of_stage (by simp [hk])
      have := (hc.of_reviewing hk).2
      omega
    have hback : ∀ i k, (s'.calls i).label.stage = .reviewing k →
        i ≠ j ∧ (s.calls i).label.stage = .reviewing k := fun i k hk => by
      have hij : i ≠ j := fun he => hnot k (he ▸ hk)
      exact ⟨hij, hother i hij ▸ hk⟩
    refine ⟨by rw [hv, View.subjects_moved, h.subjects], hcalls, fun i k src hl' => ?_,
      fun i k hl' => ?_, fun i₁ i₂ k h₁ h₂ => ?_⟩
    · by_cases hij : i = j
      · subst hij
        obtain ⟨id', source, -, hc⟩ := (hcalls i).of_stage (by simp [hl'])
        rw [(hc.of_loaded hl').2.2] at hmade
        cases hmade
      · exact hloaded i k src hij hl'
    · obtain ⟨hij, hk⟩ := hback i k hl'
      rw [hst k fun he => hij (h.alone i j id (he ▸ hk) hl)]
      exact h.reviewing i k hk
    · exact h.alone i₁ i₂ k (hback i₁ k h₁).2 (hback i₂ k h₂).2

variable [DecidableEq ι]

theorem Orderly.step (h₀ : Distinct v₀) (h : Orderly v₀ isDigit lower subs s) {e : Event ι}
    (hst : Step Env e s s') (hm : Meets Unmoved e s s') : Orderly v₀ isDigit lower subs s' := by
  cases e with
  | env =>
    obtain ⟨d, ⟨t, -, rfl⟩, rfl⟩ := hst
    exact h.of_stages h.calls rfl fun _ _ => .inl rfl
  | crash j =>
    obtain ⟨p, loc, w, hj, rfl⟩ := hst
    refine h.of_stages (fun i => ?_) rfl fun i hne => .inl ?_
    · show Place _ _ _ _ (Function.update s.calls j _ i)
      by_cases hij : i = j
      · subst hij
        rw [Function.update_self]
        exact .unfit alreadyReviewed (fun _ _ => rfl) trivial
      · rw [Function.update_of_ne hij]
        exact h.calls i
    · by_cases hij : i = j
      · subst hij
        exact absurd (by simp [Call.label]; rfl) hne
      · simp only [Function.update_of_ne hij]
  | go j =>
    obtain ⟨free, -, d, c, hn, rfl⟩ := hst
    have hn' : (s.calls j).next free s.shared = some (d, Function.update s.calls j c j) := by
      rw [Function.update_self, hn]
    exact h.go h₀ hn' (fun i hij => Function.update_of_ne hij ..) fun i hij =>
      hm i (by simpa using fun he => hij he.symm)

/-! ### What holds of every run -/

/-- At most one submission reviews an application. -/
def Exclusive (s : Sys ι Records Write Key Label ApiError Unit) : Prop :=
  ∀ i j id, (s.calls i).label.stage = .reviewing id → (s.calls j).label.stage = .reviewing id →
    i = j

/-- While one submission reviews an application, any other about it that takes a step, and has
itself committed nothing, can only answer that it is already being reviewed. -/
def Refused (subs : ι → Submission) (s : Sys ι Records Write Key Label ApiError Unit) : Prop :=
  ∀ i j id, (s.calls i).label.stage = .reviewing id → j ≠ i → (subs j).On s.shared.view id →
    (s.calls j).made = [] → ∀ s₁, Step Env (.go j) s s₁ → ∀ s₂, Reach (Step Env) s₁ s₂ →
    ∀ r made, s₂.calls j = .done r made → r = .error alreadyReviewed ∧ made = []

/-- Audit rows lead from one status to another, each from the status the one before has left. -/
def Chain : Option OnboardingStatus → List AuditRow → Option OnboardingStatus → Prop
  | source, [], target => target = source
  | source, row :: rows, target => row.before = source.map .status ∧
      ∃ next, row.after = some (.status next) ∧ Chain (some next) rows target

/-- The audit rows that a change adds lead each application from its status to its status after. -/
def Audited (d d' : Records) : Prop :=
  ∃ rows, d'.view.trail = d.view.trail ++ rows ∧
    ∀ id, Chain (d.status id) (rows.filter (·.entityId = id)) (d'.status id)

omit [DecidableEq ι] in
theorem Orderly.audited (h : Orderly v₀ isDigit lower subs s) {j : ι} {c : Call Records Write Key
    Label ApiError Unit} {d : Records} (ht : Turn (s.calls j) c s.shared.view d.view) :
    Audited s.shared d := by
  cases ht with
  | same hv _ =>
    exact ⟨[], by rw [hv, List.append_nil], fun id => by rw [status_view d, hv, ← status_view]; rfl⟩
  | opened session id source hl hv _ _ =>
    refine ⟨[transition session id source .submitted, transition session id .submitted .inReview],
      by rw [hv]; exact List.append_assoc .., fun k => ?_⟩
    rw [status_view d, hv, View.status_opened, ← status_view]
    by_cases hk : k = id
    · subst hk
      rw [(h.loaded j k source hl).1]
      simp [transition, auditBy, Chain]
    · have hne : id ≠ k := fun he => hk he.symm
      simp [transition, auditBy, Chain, hk, hne]
  | decided session id target hl _ hv _ =>
    refine ⟨[transition session id .inReview target], by rw [hv]; rfl, fun k => ?_⟩
    rw [status_view d, hv, View.status_moved, ← status_view]
    by_cases hk : k = id
    · subst hk
      rw [h.reviewing j k hl]
      simp [transition, auditBy, Chain]
    · have hne : id ≠ k := fun he => hk he.symm
      simp [transition, auditBy, Chain, hk, hne]

theorem Orderly.refused (h₀ : Distinct v₀) (h : Orderly v₀ isDigit lower subs s) :
    Refused subs s := by
  intro i j id hi hij hon hmade s₁ hst s₂ hr r made hdone
  have hd := h.distinct h₀
  have hon₀ : (subs j).On v₀ id := by
    unfold Submission.On at hon ⊢
    rwa [← h.subjects]
  obtain ⟨free, -, d, c, hn, rfl⟩ := hst
  have hunfit : Unfit alreadyReviewed c := by
    cases h.calls j with
    | start hc =>
      rw [hc] at hn
      rcases (next_submit hn).2.2 with ⟨id', source, hs, -⟩ | ⟨-, hp⟩
      · rw [stageOf_of_busy hd hon (h.reviewing i id hi)] at hs
        cases hs
      · exact refusal_of_on hd hon ▸ hp
    | fit id' source hon' hc =>
      have hl := hc.stage_eq (running_of_next hn)
      rw [hmade] at hl
      obtain ⟨x, hx, rfl, hcx, -, -⟩ := hon'
      obtain ⟨y, hy, rfl, hcy, -, -⟩ := hon₀
      rw [h₀.of_customer hx hy (hcx.trans hcy.symm)] at hl
      exact (h.not_loaded hi hl).elim
    | unfit e he hc => exact he id hon₀ ▸ hc.next hn
  have hstart : Unfit alreadyReviewed
      ((⟨d, Function.update s.calls j c⟩ :
        Sys ι Records Write Key Label ApiError Unit).calls j) := by
    show Unfit alreadyReviewed (Function.update s.calls j c j)
    rw [Function.update_self]
    exact hunfit
  have hend := (points_of_reach (S := fun _ => True) trivial (fun _ _ _ _ _ _ => trivial) hstart
    hr).2
  rw [hdone] at hend
  obtain ⟨loc, rfl, hnone, rfl⟩ := hend
  exact ⟨rfl, hnone⟩

/-- **At most one submission reviews an application, every other is refused meanwhile, and each
status change is audited with the status it changes**, in runs where nobody else changes the status
of an application between a submission's load of it, found fit, and its first commit. -/
theorem oneReview_of_reach (subs : ι → Submission) {d₀ : Records}
    (hids : (d₀.applications.map (·.id)).Nodup)
    (hcustomers : (d₀.applications.map (·.customerId)).Nodup)
    {s : Sys ι Records Write Key Label ApiError Unit}
    (hr : Reach (fun e s s' => Step Env e s s' ∧ Meets Unmoved e s s')
      ⟨d₀, fun i => .start ((subs i).op.prog isDigit lower)⟩ s) :
    Exclusive s ∧ Refused subs s ∧ ∀ i s', Step Env (.go i) s s' → Audited s.shared s'.shared := by
  have h₀ : Distinct d₀.view := by
    refine ⟨?_, ?_⟩
    · simpa [View.subjects, Records.view, Function.comp_def, ApplicationRow.standing] using hids
    · simpa [View.subjects, Records.view, Function.comp_def, ApplicationRow.standing]
        using hcustomers
  have hidle : ∀ i, (Call.start ((subs i).op.prog isDigit lower)).label.stage = .idle := fun _ =>
    start_submit_stage
  have h : Orderly d₀.view isDigit lower subs s := by
    refine hr.invariant (I := Orderly d₀.view isDigit lower subs)
      ⟨rfl, fun _ => .start rfl, ?_, ?_, ?_⟩
      fun _ _ _ _ hi hst => hi.step h₀ hst.1 hst.2
    · exact fun i id source hl => by cases (hidle i).symm.trans hl
    · exact fun i id hl => by cases (hidle i).symm.trans hl
    · exact fun i _ id hl _ => by cases (hidle i).symm.trans hl
  refine ⟨h.alone, h.refused h₀, fun i s' hst => ?_⟩
  obtain ⟨free, -, d, c, hn, rfl⟩ := hst
  exact h.audited ((h.calls i).turn hn)

end Runs

/-! ### Two submissions at once -/

/-- The records of a customer with a business to review. -/
def sampleDraft : Records :=
  { sampleRecords with
    applications :=
      [{ id := 7, customerId := 1, business := some (sampleBusiness "Adunola Exports") }] }

/-- Two submissions of one application. -/
def twice : Fin 2 → Submission
  | 0 => ⟨sampleSession, none, "10000"⟩
  | 1 => ⟨sampleSession, some 7, "10001"⟩

/-- The submissions of `twice` before they begin. -/
def beforeTwice : Sys (Fin 2) Records Write Key Label ApiError Unit :=
  ⟨sampleDraft, fun i => .start ((twice i).op.prog Char.isDigit sampleLower)⟩

/-- Whether the status of the application that a submission has loaded stays. -/
def unmoved (l : Label) (_ : Option Records) (d d' : Records) : Bool :=
  match l.stage with
  | .loaded id _ => d'.status id = d.status id
  | _ => true

theorem unmoved_spec {l : Label} {w : Option Records} {d d' : Records}
    (h : unmoved l w d d' = true) : Unmoved l w d d' := by
  intro id source hl
  rw [unmoved, hl] at h
  exact of_decide_eq_true h

/-- The first submission reviews the application before the second has begun. -/
theorem oneReview_of_twice : ∃ s : Sys (Fin 2) Records Write Key Label ApiError Unit,
    Reach (fun e s s' => Step Env e s s' ∧ Meets Unmoved e s s') beforeTwice s ∧
      (s.calls 0).label.stage = .reviewing 7 ∧ (s.calls 1).made = [] ∧ Exclusive s ∧
      Refused twice s ∧ ∀ i s', Step Env (.go i) s s' → Audited s.shared s'.shared := by
  obtain ⟨s, hr, hs⟩ := exists_reach_of_playIf Env unmoved [0, 1] (schedule [(0, 9)]) beforeTwice
    (fun s => decide ((s.calls 0).label.stage = .reviewing 7 ∧ (s.calls 1).made = [])) (by decide)
    (env_schedule [((0 : Fin 2), 9)]) (by decide +kernel)
  obtain ⟨hl, hmade⟩ := of_decide_eq_true hs
  have hr' : Reach (fun e s s' => Step Env e s s' ∧ Meets Unmoved e s s') beforeTwice s :=
    hr.mono fun e s s' h => ⟨h.1, fun j hj => unmoved_spec (h.2 j hj)⟩
  exact ⟨s, hr', hl, hmade, oneReview_of_reach twice (by decide) (by decide) hr'⟩

/-- Both submissions find the application a draft; the second puts it in review while the first
reviews it, and audits the change as one of a draft. -/
theorem twoReviews_of_race : ∃ s s' : Sys (Fin 2) Records Write Key Label ApiError Unit,
    Reach (Step Env) beforeTwice s ∧ Step Env (.go 1) s s' ∧
      (s'.calls 0).label.stage = .reviewing 7 ∧ (s'.calls 1).label.stage = .reviewing 7 ∧
      s.shared.status 7 = some .inReview ∧ ∃ row ∈ s'.shared.audit.drop s.shared.audit.length,
        row.action = "onboarding.state_change" ∧ row.before = some (.status .draft) := by
  let raced := fun s s' : Sys (Fin 2) Records Write Key Label ApiError Unit =>
    decide ((s'.calls 0).label.stage = .reviewing 7 ∧ (s'.calls 1).label.stage = .reviewing 7 ∧
      s.shared.status 7 = some .inReview ∧ ∃ row ∈ s'.shared.audit.drop s.shared.audit.length,
        row.action = "onboarding.state_change" ∧ row.before = some (.status .draft))
  obtain ⟨s, hr, hs⟩ := exists_reach_of_turns Env [0, 1] [(1, 3), (0, 9), (1, 5)] beforeTwice
    (fun s => (playMove [0, 1] s (.go 1)).any (raced s)) (by decide) (by decide +kernel)
  obtain ⟨s', hs', h⟩ := (Option.any_eq_true ..).1 hs
  exact ⟨s, s', hr, step_of_playMove (by decide) (by simp) hs', of_decide_eq_true h⟩

end Kimana.Onboarding
