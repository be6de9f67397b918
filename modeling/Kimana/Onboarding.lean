import Kimana.AppState
import Kimana.FileSystem.Tree
import Kimana.ReadCommitted.Prog
import Kimana.Table
import Mathlib.Data.List.Sort
import Mathlib.Data.Rat.Init

/-!
# Onboarding records

The tables of onboarding, apart from the rest of the database: no statement of the backend joins
the two, and the one column both know, a customer's per-transfer limit, is written here only.

Two columns of `ApplicationRow` are not in the schema.  `edits` counts the statements that have
changed the application's data, and `screened` keeps what the checks behind an approval were run
on.  No program reads them into anything but themselves.
-/

namespace Kimana.Onboarding

open ReadCommitted Table

/-! ### Contract -/

/-- `onboarding_applications.status`. -/
inductive OnboardingStatus
  | draft
  | submitted
  | inReview
  | approved
  | rejected
  deriving DecidableEq, Repr

namespace OnboardingStatus

/-- The text stored and sent. -/
def asStr : OnboardingStatus → String
  | draft => "draft"
  | submitted => "submitted"
  | inReview => "in_review"
  | approved => "approved"
  | rejected => "rejected"

end OnboardingStatus

structure Address where
  line1 : Option String := none
  line2 : Option String := none
  city : Option String := none
  state : String
  postalCode : Option String := none
  country : String
  deriving DecidableEq

inductive BusinessType
  | soleProprietorship
  | limitedLiabilityCompany
  | partnership
  | publicLimitedCompany
  deriving DecidableEq

inductive IndustrySector
  | agricultureAgroExport
  | textilesApparel
  | solidMinerals
  | manufacturing
  | oilGasServices
  | technology
  | tradingCommodities
  | other
  deriving DecidableEq

/-- The segment a sector's businesses are shown in. -/
def IndustrySector.segmentLabel : IndustrySector → String
  | agricultureAgroExport => "Agro Exporter"
  | textilesApparel => "Textiles Exporter"
  | solidMinerals => "Solid Minerals Exporter"
  | manufacturing => "Manufacturing Exporter"
  | oilGasServices => "Oil & Gas Services"
  | technology => "Technology Exporter"
  | tradingCommodities => "Commodities Trader"
  | other => "Trading Business"

structure BusinessDetails where
  legalName : String
  tradingName : Option String := none
  cacNumber : String
  businessType : BusinessType
  industry : IndustrySector
  tradingAddress : Address
  countryOfIncorporation : String
  deriving DecidableEq

inductive PrincipalRole
  | director
  | beneficialOwner
  | both
  deriving DecidableEq

/-- A director or beneficial owner.  A percentage is a finite number: JSON has no others. -/
structure Principal where
  id : Option Uuid := none
  fullName : String
  role : PrincipalRole
  ownershipPercentage : Option ℚ := none
  dateOfBirth : Option String := none
  bvn : Option String := none
  nin : Option String := none
  deriving DecidableEq

inductive DocumentType
  | cacCertificate
  | memart
  | proofOfAddress
  | directorsId
  | boardResolution
  deriving DecidableEq

/-- The text stored, and the folder of an upload. -/
def DocumentType.asStr : DocumentType → String
  | cacCertificate => "cac_certificate"
  | memart => "memart"
  | proofOfAddress => "proof_of_address"
  | directorsId => "directors_id"
  | boardResolution => "board_resolution"

inductive DocumentStatus
  | pending
  | uploading
  | uploaded
  | failed
  deriving DecidableEq

structure RejectionDetail where
  field : String
  reason : String
  deriving DecidableEq

structure ApprovedAccountSummary where
  accountId : String
  riskRatingLabel : String
  segment : String
  corridor : String
  monthlyLimit : Money
  deriving DecidableEq

/-! ### Rows -/

/-- What the checks were run on, and the number of edits when it was loaded. -/
structure Screened where
  business : Option BusinessDetails
  principals : List Principal
  edits : ℕ
  deriving DecidableEq

/-- `onboarding_applications`. -/
structure ApplicationRow where
  id : Uuid
  customerId : Uuid
  status : OnboardingStatus := .draft
  business : Option BusinessDetails := none
  rejectionReasons : Option (List RejectionDetail) := none
  approvedSummary : Option ApprovedAccountSummary := none
  submittedAt : Option Time := none
  reviewedAt : Option Time := none
  /-- How many statements have changed the data. -/
  edits : ℕ := 0
  /-- What the checks of the last approving submit, and of later rescreens, approved. -/
  screened : List Screened := []
  deriving DecidableEq

/-- `onboarding_principals`. -/
structure PrincipalRow where
  id : Uuid
  applicationId : Uuid
  position : ℕ
  principal : Principal
  deriving DecidableEq

/-- `onboarding_documents`. -/
structure DocumentRow where
  id : Uuid
  applicationId : Uuid
  type : DocumentType
  fileName : String
  mimeType : String
  sizeBytes : ℕ
  status : DocumentStatus
  uploadProgressPercent : ℕ
  storageKey : Option String
  uploadedAt : Option Time
  errorMessage : Option String
  deriving DecidableEq

/-- `kyb_checks`. -/
structure CheckRow where
  id : Uuid
  applicationId : Uuid
  checkKey : String
  passed : Bool
  detail : String
  deriving DecidableEq

/-- What an audit row shows of a thing before or after. -/
inductive Shown
  | business (b : BusinessDetails)
  | principals (ps : List Principal)
  | document (row : DocumentRow)
  | status (s : OnboardingStatus)
  | riskRating (label : Option String)
  | riskLimit (label : String) (maxTransferAmountMinor : Option ℤ)
  deriving DecidableEq

/-- `audit_log`, the rows that onboarding writes. -/
structure AuditRow where
  actorId : Option Uuid
  actorRole : String
  action : String
  entityType : String
  entityId : Uuid
  before : Option Shown
  after : Option Shown
  deriving DecidableEq

/-- `customers`, the column that onboarding writes. -/
structure LimitRow where
  id : Uuid
  maxTransferAmountMinor : Option ℤ
  deriving DecidableEq

/-- The tables, the generator of row ids, the clock, and the files with the directory configured
for them. -/
structure Records where
  nextId : ℕ := 0
  clock : Time := 0
  applications : List ApplicationRow := []
  principals : List PrincipalRow := []
  documents : List DocumentRow := []
  kybChecks : List CheckRow := []
  customers : List LimitRow := []
  audit : List AuditRow := []
  storageDir : String := ".storage"
  files : FileSystem.Tree := {}
  deriving DecidableEq

namespace Records

/-- The application with an id. -/
def application (d : Records) (id : Uuid) : Option ApplicationRow :=
  d.applications.find? fun a => a.id = id

/-- The stored status of an application. -/
def status (d : Records) (id : Uuid) : Option OnboardingStatus :=
  (d.application id).map (·.status)

/-- The principals of an application, `order by position`. -/
def principalsOf (d : Records) (id : Uuid) : List Principal :=
  ((d.principals.filter fun p => p.applicationId = id).insertionSort fun p q =>
    p.position ≤ q.position).map fun p => { p.principal with id := some p.id }

end Records

/-! ### Writes -/

/-- What a status change writes besides the status.  The last field goes to `screened`. -/
structure StatusPatch where
  status : OnboardingStatus
  markSubmitted : Bool := false
  markReviewed : Bool := false
  approvedSummary : Option ApprovedAccountSummary := none
  rejectionReasons : Option (List RejectionDetail) := none
  screened : List Screened → List Screened := id

/-- The row as patched: the summary and the reasons become what the patch carries, an empty list of
reasons counting as none. -/
def ApplicationRow.patched (a : ApplicationRow) (patch : StatusPatch) (now : Time) :
    ApplicationRow :=
  { a with
    status := patch.status
    submittedAt := if patch.markSubmitted then some now else a.submittedAt
    reviewedAt := if patch.markReviewed then some now else a.reviewedAt
    approvedSummary := patch.approvedSummary
    rejectionReasons := patch.rejectionReasons.filter fun r => !r.isEmpty
    screened := patch.screened a.screened }

/-- The statements that change the records. -/
inductive Write
  | saveBusiness (id : Uuid) (business : BusinessDetails)
  | deletePrincipals (applicationId : Uuid) (ids : List Uuid)
  | insertPrincipal (row : PrincipalRow)
  | upsertDocument (row : DocumentRow)
  | markDocumentUploaded (id : Uuid) (now : Time)
  | deleteDocument (id : Uuid)
  | patchStatus (id : Uuid) (patch : StatusPatch) (now : Time)
  | deleteChecks (applicationId : Uuid) (ids : List Uuid)
  | insertCheck (row : CheckRow)
  | setTransferLimit (customerId : Uuid) (maxTransferAmountMinor : Option ℤ)
  | insertAudit (row : AuditRow)

/-- A document as uploaded anew over an older one, whose id it keeps. -/
def DocumentRow.replacedBy (old new : DocumentRow) : DocumentRow := { new with id := old.id }

/-- The row after a change of its data. -/
def ApplicationRow.edited (a : ApplicationRow) : ApplicationRow := { a with edits := a.edits + 1 }

/-- Carry out one statement. -/
def Write.apply : Write → Records → Records
  | saveBusiness id business, d => { d with
      applications := updateWhere (·.id = id)
        (fun a => { a with business := some business }.edited) d.applications }
  | deletePrincipals applicationId ids, d => { d with
      applications := updateWhere (·.id = applicationId) (·.edited) d.applications
      principals := d.principals.filter fun p => !(p.applicationId = applicationId && p.id ∈ ids) }
  | insertPrincipal row, d => { d with
      applications := updateWhere (·.id = row.applicationId) (·.edited) d.applications
      principals := d.principals ++ [row] }
  | upsertDocument row, d => { d with
      documents :=
        if d.documents.any fun r => r.applicationId = row.applicationId && r.type = row.type then
          updateWhere (fun r => r.applicationId = row.applicationId && r.type = row.type)
            (·.replacedBy row) d.documents
        else d.documents ++ [row] }
  | markDocumentUploaded id now, d => { d with
      documents := updateWhere (·.id = id) (fun r =>
        { r with
          status := .uploaded
          uploadProgressPercent := 100
          errorMessage := none
          uploadedAt := some now }) d.documents }
  | deleteDocument id, d => { d with documents := d.documents.filter fun r => r.id ≠ id }
  | patchStatus id patch now, d => { d with
      applications := updateWhere (·.id = id) (·.patched patch now) d.applications }
  | deleteChecks applicationId ids, d => { d with
      kybChecks := d.kybChecks.filter fun c => !(c.applicationId = applicationId && c.id ∈ ids) }
  | insertCheck row, d => { d with kybChecks := d.kybChecks ++ [row] }
  | setTransferLimit customerId limit, d => { d with
      customers := updateWhere (·.id = customerId)
        (fun c => { c with maxTransferAmountMinor := limit }) d.customers }
  | insertAudit row, d => { d with audit := d.audit ++ [row] }

instance : Store Records Write where
  apply := Write.apply
  seq d := d.nextId
  bump d := { d with nextId := d.nextId + 1 }
  seq_apply w d := by cases w <;> rfl
  seq_bump _ := rfl

/-- Row locks.  Principals and checks of an application are deleted and inserted together; the
first lock stands for those on the rows deleted, and for the unique keys of the checks. -/
inductive Key
  | application (id : Uuid)
  | principals (applicationId : Uuid)
  | checks (applicationId : Uuid)
  | document (applicationId : Uuid) (type : DocumentType)
  | customer (id : Uuid)
  deriving DecidableEq

/-- Where a submission stands. -/
inductive Stage
  | idle
  /-- It has found the application fit for review, with this status. -/
  | loaded (id : Uuid) (status : OnboardingStatus)
  /-- It has put the application in review and not yet decided. -/
  | reviewing (id : Uuid)
  deriving DecidableEq

/-- Where a call stands. -/
structure Label where
  /-- The applications that a rescreening job has loaded and not yet written back. -/
  job : List Uuid := []
  stage : Stage := .idle
  deriving DecidableEq

instance : Inhabited Label := ⟨{}⟩

/-- The job holds these applications. -/
def Label.withJob (l : Label) (job : List Uuid) : Label := { l with job }

/-- A submission stands here. -/
def Label.withStage (l : Label) (stage : Stage) : Label := { l with stage }

/-- Programs over the records. -/
abbrev Tx := Prog Records Write Key Label ApiError

/-- Begin a transaction; the time that `now()` gives in it. -/
def Tx.begin : Tx Time := do return (← Tx.query).clock

end Kimana.Onboarding
