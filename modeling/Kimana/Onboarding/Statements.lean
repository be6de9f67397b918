import Kimana.Onboarding.Service
import Kimana.ReadCommitted.Writes

/-!
# What the onboarding operations write

`Saves P L p` says that every write of the program `p` is of kind `P`, that it changes nothing else
but files, and its label only by changes of kind `L`.  A kind has all writes other than status
changes (`Saves.Most`), or also the status changes of a review (`Saves.Makes`).
-/

namespace Kimana.Onboarding

open ReadCommitted Table Kyb

/-- A status change. -/
def Write.Patches : Write → Prop
  | patchStatus .. => True
  | _ => False

/-- A change of a per-transfer ceiling. -/
def Write.Limits : Write → Prop
  | setTransferLimit .. => True
  | _ => False

/-- The files changed, not the tables. -/
def Files (u : Records → Records) : Prop := ∀ d, ∃ files, u d = { d with files }

/-- Every write of the program satisfies `P`, and every change of its label `L`. -/
structure Saves (P : Write → Prop) (L : (Label → Label) → Prop) {A : Type} (p : Tx A) : Prop where
  writes : p.Writes P Files L

namespace Saves

variable {P : Write → Prop} {L : (Label → Label) → Prop} {A B : Type}

theorem ret (a : A) : Saves P L (.ret a) := ⟨trivial⟩

theorem fail (e : ApiError) : Saves P L (.fail e : Tx A) := ⟨trivial⟩

theorem query : Saves P L Tx.query := ⟨fun _ => trivial⟩

theorem read : Saves P L Tx.read := ⟨fun _ => trivial⟩

theorem fresh : Saves P L Tx.fresh := ⟨fun _ => trivial⟩

theorem commit : Saves P L Tx.commit := ⟨trivial⟩

theorem mark {f : Label → Label} (h : L f) : Saves P L (Tx.mark f) := ⟨h, trivial⟩

theorem lock (k : Key) : Saves P L (Tx.lock k) := ⟨fun _ _ => trivial⟩

theorem write {w : Write} (h : P w) : Saves P L (Tx.write w) := ⟨h, trivial⟩

theorem atomic {u : Records → Records} {f : Records → Tx A} (hu : Files u)
    (hf : ∀ d, Saves P L (f d)) :
    Saves P L (Prog.atomic u f) := ⟨hu, fun d => (hf d).writes⟩

theorem locking {k : Key} {f : Records → Records → Tx A} (hf : ∀ d d', Saves P L (f d d')) :
    Saves P L (Prog.lock k f) := ⟨fun d d' => (hf d d').writes⟩

theorem bind {p : Tx B} {g : B → Tx A} (hp : Saves P L p) (hg : ∀ b, Saves P L (g b)) :
    Saves P L (p.bind g) := ⟨hp.writes.bind fun b => (hg b).writes⟩

theorem noting {note : Records → Label → Label} (h : ∀ d, L (note d)) {p : Tx A}
    (hp : Saves P L p) :
    Saves P L (p.noting note) := by
  cases p with
  | query f => exact ⟨fun d => ⟨h d, hp.writes d⟩⟩
  | _ => exact hp

theorem begin : Saves P L Tx.begin := query.bind fun _ => ret _

theorem assemble (row : ApplicationRow) : Saves P L (Repo.assemble row) :=
  query.bind fun _ => query.bind fun _ => ret _

theorem loadOwned (session : Session) (applicationId : Option Uuid) :
    Saves P L (Onboarding.loadOwned session applicationId) := by
  refine bind (query.bind fun d => ?_) fun r => ?_
  · split
    · exact (assemble _).bind fun _ => ret _
    · exact ret _
  · split
    · exact fail _
    · split
      · split
        · exact fail _
        · exact ret _
      · exact ret _

theorem ownedDocument (app : Application) (documentId : Uuid) :
    Saves P L (Onboarding.ownedDocument app documentId) := by
  refine query.bind fun _ => ?_
  split
  · exact ret _
  · exact fail _

/-- Writes of a kind that has all but changes of statuses and of ceilings. -/
structure Most (P : Write → Prop) : Prop where
  most : ∀ w : Write, ¬w.Patches → ¬w.Limits → P w

section Most

variable (hP : Most P)

include hP

theorem saveBusinessDetails (isDigit : Char → Bool) (session : Session) (business : BusinessDetails)
    (applicationId : Option Uuid) :
    Saves P L (Onboarding.saveBusinessDetails isDigit session business applicationId) := by
  unfold Onboarding.saveBusinessDetails
  split
  · exact fail _
  · exact (loadOwned ..).bind fun app => begin.bind fun _ =>
      ((lock _).bind fun _ => write (hP.most _ id id)).bind fun _ =>
        (write (hP.most _ id id)).bind fun _ =>
      commit.bind fun _ => loadOwned ..

theorem insertPrincipals (appId : Uuid) (n : ℕ) (ps : List Principal) :
    Saves P L (Repo.insertPrincipals appId n ps) := by
  induction ps generalizing n with
  | nil => exact ret _
  | cons p ps ih =>
    unfold Repo.insertPrincipals
    split
    · exact fail _
    · exact fresh.bind fun _ => (write (hP.most _ id id)).bind fun _ => ih _

theorem savePrincipals (isDigit : Char → Bool) (session : Session) (principals : List Principal)
    (applicationId : Option Uuid) :
    Saves P L (Onboarding.savePrincipals isDigit session principals applicationId) := by
  unfold Onboarding.savePrincipals
  split
  · exact fail _
  · refine (loadOwned ..).bind fun app => begin.bind fun _ => bind (locking fun _ _ => ?_) fun _ =>
      (write (hP.most _ id id)).bind fun _ => commit.bind fun _ => loadOwned ..
    exact (write (hP.most _ id id)).bind fun _ => (insertPrincipals hP ..).bind fun _ => lock _

theorem uploadDocument (session : Session) (upload : DocumentUpload) (applicationId : Option Uuid)
    (millis : ℕ) (os : FileSystem.Os) :
    Saves P L (Onboarding.uploadDocument session upload applicationId millis os) := by
  refine (loadOwned ..).bind fun app => ?_
  split
  · exact fail _
  split
  · exact fail _
  refine bind ?_ fun _ => begin.bind fun _ => fresh.bind fun _ => (lock _).bind fun _ =>
    read.bind fun _ => (write (hP.most _ id id)).bind fun _ =>
      (write (hP.most _ id id)).bind fun _ =>
    commit.bind fun _ => ret _
  refine atomic (fun _ => ⟨_, rfl⟩) fun _ => ?_
  split
  · exact ret _
  · exact fail _

theorem retryDocumentUpload (session : Session) (documentId : Uuid) :
    Saves P L (Onboarding.retryDocumentUpload session documentId) := by
  unfold Onboarding.retryDocumentUpload
  refine (loadOwned ..).bind fun app => (ownedDocument ..).bind fun found => begin.bind fun _ =>
    (lock _).bind fun _ => bind (write ?_) fun _ => read.bind fun _ => ?_
  · exact hP.most _ id id
  split
  · exact fail _
  · exact (write (hP.most _ id id)).bind fun _ => commit.bind fun _ => ret _

theorem removeDocument (session : Session) (documentId : Uuid) (os : FileSystem.Os) :
    Saves P L (Onboarding.removeDocument session documentId os) := by
  unfold Onboarding.removeDocument
  refine (loadOwned ..).bind fun app => (ownedDocument ..).bind fun found => begin.bind fun _ =>
    (lock _).bind fun _ => bind (write ?_) fun _ => bind (write ?_) fun _ => commit.bind fun _ => ?_
  · exact hP.most _ id id
  · exact hP.most _ id id
  split
  · exact atomic (fun _ => ⟨_, rfl⟩) fun _ => ret _
  · exact ret _

theorem replaceKybChecks (appId : Uuid) (checks : List CheckResult) :
    Saves P L (Repo.replaceKybChecks appId checks) := by
  refine locking fun _ _ => (write (hP.most _ id id)).bind fun _ => ?_
  induction checks with
  | nil => exact ret _
  | cons c cs ih =>
    refine read.bind fun _ => ?_
    split
    · exact fail _
    · exact fresh.bind fun _ => (write (hP.most _ id id)).bind fun _ => ih

theorem auditTransition (session : Session) (appId : Uuid) (source target : OnboardingStatus) :
    Saves P L (Onboarding.auditTransition session appId source target) :=
  write (hP.most _ id id)

end Most

theorem patchStatus {now : Time} {appId : Uuid} {patch : StatusPatch}
    (h : P (.patchStatus appId patch now)) : Saves P L (Repo.patchStatus now appId patch) :=
  (lock _).bind fun _ => write h

theorem setTransferLimit {customerId : Uuid} {limit : Option ℤ}
    (h : P (.setTransferLimit customerId limit)) :
    Saves P L (Onboarding.setTransferLimit customerId limit) := (lock _).bind fun _ => write h

/-- Writes of a kind that has what a call working on `app` makes: all but status changes, status
changes that neither approve nor touch what was screened, and the approval of a review. -/
structure Makes (lower : String → String) (app : Application) (P : Write → Prop) : Prop
    extends Most P where
  limits : ∀ customerId limit, P (.setTransferLimit customerId limit)
  moves : ∀ (patch : StatusPatch) (now : Time), patch.status ≠ .approved →
    (∀ es, patch.screened es = es) → P (.patchStatus app.row.id patch now)
  approves : ∀ (patch : StatusPatch) (now : Time), (runChecks lower app).approved = true →
    patch.status = .approved → patch.rejectionReasons = none →
    (∀ es, patch.screened es = [app.screened]) → P (.patchStatus app.row.id patch now)

/-- The decision of a review. -/
theorem decision {lower : String → String} {app : Application} (h : Makes lower app P)
    (session : Session) (business : BusinessDetails) (serial : String) (now : Time) :
    Saves P L (Onboarding.decision session app business (runChecks lower app) serial now) := by
  unfold Onboarding.decision
  split
  case isTrue happ =>
    exact (patchStatus (h.approves _ now happ rfl rfl fun _ => rfl)).bind fun _ =>
      (setTransferLimit (h.limits ..)).bind fun _ => (auditTransition h.toMost ..).bind fun _ =>
      write (h.most _ id id)
  case isFalse =>
    exact (patchStatus (h.moves _ now (by simp) fun _ => rfl)).bind fun _ =>
      auditTransition h.toMost ..

/-- What a submission does with the application loaded. -/
theorem review {lower : String → String} {app : Application} (h : Makes lower app P)
    (hL : ∀ stage, L (·.withStage stage)) (session : Session) (serial : String) :
    Saves P L (Onboarding.review lower session serial app) := by
  unfold Onboarding.review
  split
  · exact fail _
  dsimp only
  split
  · exact fail _
  exact begin.bind fun now => (patchStatus (h.moves _ now (by simp) fun _ => rfl)).bind fun _ =>
    (auditTransition h.toMost ..).bind fun _ =>
    (patchStatus (h.moves _ now (by simp) fun _ => rfl)).bind fun _ =>
    (auditTransition h.toMost ..).bind fun _ => commit.bind fun _ => (mark (hL _)).bind fun _ =>
    begin.bind fun now => (replaceKybChecks h.toMost ..).bind fun _ => (decision h ..).bind fun _ =>
    commit.bind fun _ => (mark (hL _)).bind fun _ => loadOwned ..

/-- A submission, whatever it loads. -/
theorem submit {lower : String → String} (h : ∀ app, Makes lower app P)
    (hL : ∀ stage, L (·.withStage stage)) (session : Session) (applicationId : Option Uuid)
    (serial : String) : Saves P L (Onboarding.submit lower session applicationId serial) :=
  (noting (fun _ => hL _) (loadOwned ..)).bind fun app => review (h app) hL ..

/-- A rescreened application written back. -/
theorem writeBack (hP : Most P) {app : Application} {outcome : KybOutcome}
    {summary : ApprovedAccountSummary}
    (hpatch : ∀ now, P (.patchStatus app.row.id
      { status := app.row.status
        approvedSummary := some summary
        screened := fun old => if outcome.approved then app.screened :: old else old } now))
    (hlimit : P (.setTransferLimit app.row.customerId outcome.riskRating.transactionLimitMinor)) :
    Saves P L (Onboarding.writeBack app outcome summary) :=
  begin.bind fun now => (replaceKybChecks hP ..).bind fun _ =>
    (patchStatus (hpatch now)).bind fun _ =>
    (setTransferLimit hlimit).bind fun _ => write (hP.most _ id id)

end Saves

end Kimana.Onboarding
