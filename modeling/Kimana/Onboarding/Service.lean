import Kimana.Onboarding.Folder
import Kimana.Onboarding.Kyb
import Kimana.Util.Decimal

/-!
# Onboarding operations

Saving the data of an application, its documents, submitting it for review, and rescreening the
approved ones.  An application is loaded in three statements, each on a connection of its own, and
every operation works from what it loaded.

A random part of an account id (`serial`) is an argument of the operation that draws it, and
`lower` the Unicode lower case of a text.
-/

namespace Kimana.Onboarding

open ReadCommitted Table Kyb FileSystem

/-! ### Validation -/

/-- A text is `RC`, a hyphen or not, and four to eight digits. -/
def isRcNumber (isDigit : Char → Bool) (s : String) : Bool :=
  match s.toList with
  | r :: c :: rest =>
    let digits := match rest with
      | '-' :: ds => ds
      | ds => ds
    (r = 'R' || r = 'r') && (c = 'C' || c = 'c') &&
      4 ≤ digits.length && digits.length ≤ 8 && digits.all isDigit
  | _ => false

/-- A text is eleven digits. -/
def isDigits11 (isDigit : Char → Bool) (s : String) : Bool :=
  s.toList.length = 11 && s.toList.all isDigit

/-- A text is a date such as `1980-02-02`. -/
def isIsoDate (isDigit : Char → Bool) (s : String) : Bool :=
  match s.toList with
  | [y₁, y₂, y₃, y₄, '-', m₁, m₂, '-', d₁, d₂] => [y₁, y₂, y₃, y₄, m₁, m₂, d₁, d₂].all isDigit
  | _ => false

/-- The first complaint about business details. -/
def validateBusiness (isDigit : Char → Bool) (b : BusinessDetails) : Except ApiError Unit :=
  if (Util.trim b.legalName).toList.length < 2 then
    .error (.validation "Enter your registered business name.")
  else if !isRcNumber isDigit (Util.trim b.cacNumber) then
    .error (.validation "Enter a valid RC number, e.g. RC-1234567.")
  else if (Util.trim b.tradingAddress.state).toList.isEmpty then
    .error (.validation "Select your primary state of operation.")
  else if Util.byteLen (Util.trim b.tradingAddress.country) ≠ 2 ||
      Util.byteLen (Util.trim b.countryOfIncorporation) ≠ 2 then
    .error (.validation "Use a 2-letter ISO country code.")
  else .ok ()

/-- The first complaint about a principal. -/
def validatePrincipal (isDigit : Char → Bool) (p : Principal) : Except ApiError Unit :=
  if (Util.trim p.fullName).toList.length < 2 then
    .error (.validation "Enter the full name.")
  else if p.bvn.any fun s => !isDigits11 isDigit s then
    .error (.validation "BVN must be 11 digits.")
  else if p.nin.any fun s => !isDigits11 isDigit s then
    .error (.validation "NIN must be 11 digits.")
  else if p.dateOfBirth.any fun s => !isIsoDate isDigit s then
    .error (.validation "Date of birth must be an ISO date (YYYY-MM-DD).")
  else if p.ownershipPercentage.any fun pct => pct < 0 || 100 < pct then
    .error (.validation "Ownership percentage must be 0–100.")
  else .ok ()

/-- The first complaint about the principals. -/
def validatePrincipals (isDigit : Char → Bool) (ps : List Principal) : Except ApiError Unit :=
  ps.forM (validatePrincipal isDigit)

/-! ### Statements -/

namespace Repo

/-- The principals and documents of a loaded row, in two statements. -/
def assemble (row : ApplicationRow) : Tx Application := do
  let principals := (← Tx.query).principalsOf row.id
  let documents := (← Tx.query).documents.filter fun r => r.applicationId = row.id
  return ⟨row, principals, documents⟩

/-- The application of a customer. -/
def findByCustomer (customerId : Uuid) : Tx (Option Application) := do
  match (← Tx.query).applications.find? fun a => a.customerId = customerId with
  | some row => return some (← assemble row)
  | none => return none

/-- Assemble rows one after another. -/
def assembleAll : List ApplicationRow → Tx (List Application)
  | [] => return []
  | row :: rows => do
    let app ← assemble row
    let apps ← assembleAll rows
    return app :: apps

/-- All approved applications. -/
def listApproved : Tx (List Application) := do
  let rows := (← Tx.query).applications.filter fun a => a.status = .approved
  Tx.mark (·.withJob (rows.map (·.id)))
  assembleAll rows

/-- Store business details. -/
def saveBusiness (appId : Uuid) (business : BusinessDetails) : Tx Unit := do
  Tx.lock (.application appId)
  Tx.write (.saveBusiness appId business)

/-- The days of a month of the Gregorian calendar. -/
def daysInMonth (year month : ℕ) : ℕ :=
  if month = 2 then
    if year % 4 = 0 && (year % 100 ≠ 0 || year % 400 = 0) then 29 else 28
  else if month ∈ [4, 6, 9, 11] then 30 else 31

/-- The database takes a text of the form `1980-02-02` for a date. -/
def isDate (s : String) : Bool :=
  match Decimal.parse (10 ^ 4) (s.toList.take 4), Decimal.parse (10 ^ 2) ((s.toList.drop 5).take 2),
    Decimal.parse (10 ^ 2) (s.toList.drop 8) with
  | some year, some month, some day =>
    1 ≤ year && 1 ≤ month && month ≤ 12 && 1 ≤ day && day ≤ daysInMonth year month
  | _, _, _ => false

/-- Insert principals at positions counted from `position`; a date of birth must be one. -/
def insertPrincipals (appId : Uuid) : ℕ → List Principal → Tx Unit
  | _, [] => return ()
  | position, p :: ps => if p.dateOfBirth.any fun s => !isDate s then Prog.fail .serverError else do
    let id ← Tx.fresh
    Tx.write (.insertPrincipal ⟨id, appId, position, { p with id := none }⟩)
    insertPrincipals appId (position + 1) ps

/-- Replace the principals: those the delete's snapshot saw go, the new ones come.  The update of
the application's `updated_at`, which nothing reads, is its row lock here. -/
def replacePrincipals (appId : Uuid) (ps : List Principal) : Tx Unit :=
  Prog.lock (.principals appId) fun snap _ => do
    Tx.write (.deletePrincipals appId
      ((snap.principals.filter fun p => p.applicationId = appId).map (·.id)))
    insertPrincipals appId 0 ps
    Tx.lock (.application appId)

/-- The authoritative status write. -/
def patchStatus (now : Time) (appId : Uuid) (patch : StatusPatch) : Tx Unit := do
  Tx.lock (.application appId)
  Tx.write (.patchStatus appId patch now)

/-- Insert check results; the key of a check is unique in its application. -/
def insertChecks (appId : Uuid) : List CheckResult → Tx Unit
  | [] => return ()
  | c :: cs => do
    let d ← Tx.read
    if d.kybChecks.any fun r => r.applicationId = appId && r.checkKey = c.key then
      Prog.fail .serverError
    else do
      let id ← Tx.fresh
      Tx.write (.insertCheck ⟨id, appId, c.key, c.passed, c.detail⟩)
      insertChecks appId cs

/-- Replace the check results: those the delete's snapshot saw go, and the new ones clash with any
that came since. -/
def replaceKybChecks (appId : Uuid) (checks : List CheckResult) : Tx Unit :=
  Prog.lock (.checks appId) fun snap _ => do
    Tx.write (.deleteChecks appId
      ((snap.kybChecks.filter fun c => c.applicationId = appId).map (·.id)))
    insertChecks appId checks

end Repo

/-- Set or clear a customer's per-transfer ceiling. -/
def setTransferLimit (customerId : Uuid) (limit : Option ℤ) : Tx Unit := do
  Tx.lock (.customer customerId)
  Tx.write (.setTransferLimit customerId limit)

/-- An audit row of a session. -/
def auditBy (session : Session) (action entityType : String) (entityId : Uuid)
    (before after : Option Shown) : AuditRow :=
  ⟨some session.userId, session.role, action, entityType, entityId, before, after⟩

/-- The audit row of a status change. -/
def auditTransition (session : Session) (appId : Uuid) (source target : OnboardingStatus) :
    Tx Unit :=
  Tx.write (.insertAudit (auditBy session "onboarding.state_change" "onboarding_application" appId
    (some (.status source)) (some (.status target))))

/-! ### Operations -/

/-- The caller's application, checked against the id the caller names. -/
def loadOwned (session : Session) (applicationId : Option Uuid) : Tx Application := do
  match ← Repo.findByCustomer session.customerId with
  | none => Prog.fail (.notFound "No onboarding application for this customer.")
  | some app =>
    match applicationId with
    | some id =>
      if id ≠ app.row.id then Prog.fail (.notFound "Application not found.") else return app
    | none => return app

/-- Save business details. -/
@[irreducible] def saveBusinessDetails (isDigit : Char → Bool) (session : Session)
    (business : BusinessDetails) (applicationId : Option Uuid) : Tx Application := do
  match validateBusiness isDigit business with
  | .error e => Prog.fail e
  | .ok () => do
  let app ← loadOwned session applicationId
  let _ ← Tx.begin
  Repo.saveBusiness app.row.id business
  Tx.write (.insertAudit (auditBy session "onboarding.business_saved" "onboarding_application"
    app.row.id (app.row.business.map .business) (some (.business business))))
  Tx.commit
  loadOwned session none

/-- Replace the principals. -/
@[irreducible] def savePrincipals (isDigit : Char → Bool) (session : Session)
    (principals : List Principal) (applicationId : Option Uuid) : Tx Application := do
  match validatePrincipals isDigit principals with
  | .error e => Prog.fail e
  | .ok () => do
  let app ← loadOwned session applicationId
  let _ ← Tx.begin
  Repo.replacePrincipals app.row.id principals
  Tx.write (.insertAudit (auditBy session "onboarding.principals_saved" "onboarding_application"
    app.row.id (some (.principals app.principals)) (some (.principals principals))))
  Tx.commit
  loadOwned session none

/-- A document a customer uploads. -/
structure DocumentUpload where
  docType : DocumentType
  fileName : String
  mimeType : String
  bytes : List UInt8

def allowedMime : List String := ["application/pdf", "image/jpeg", "image/png"]

def maxFileBytes : ℕ := 10 * 1024 * 1024

/-- Store bytes under a key, in one step: what stands in between concerns no other call. -/
def storagePut (os : Os) (key : String) (bytes : List UInt8) : Tx Unit :=
  Prog.atomic (fun d => { d with files := (Storage.put os d.storageDir key bytes d.files).2 })
    fun d => match (Storage.put os d.storageDir key bytes d.files).1 with
      | .ok () => .ret ()
      | .error e => .fail e

/-- Forget the bytes under a key, whether or not that succeeds. -/
def storageDelete (os : Os) (key : String) : Tx Unit :=
  Prog.atomic (fun d => { d with files := (Storage.delete os d.storageDir key d.files).2 })
    fun _ => .ret ()

/-- Upload a document, or replace the one of its type.  `millis` is the clock in milliseconds. -/
def uploadDocument (session : Session) (upload : DocumentUpload) (applicationId : Option Uuid)
    (millis : ℕ) (os : Os) : Tx DocumentRow := do
  let app ← loadOwned session applicationId
  if upload.mimeType ∉ allowedMime then
    Prog.fail (.validation "That file type isn't supported. Upload a PDF, JPG, or PNG.")
  else if maxFileBytes < upload.bytes.length then
    Prog.fail (.validation
      "That file is larger than 10 MB. Compress it or choose a smaller copy.")
  else do
  let previous := app.documents.find? fun r => r.type = upload.docType
  let storageKey := storageKey (toString app.row.id) upload.docType millis upload.fileName
  storagePut os storageKey upload.bytes
  let now ← Tx.begin
  let id ← Tx.fresh
  Tx.lock (.document app.row.id upload.docType)
  let d ← Tx.read
  let row : DocumentRow :=
    { id
      applicationId := app.row.id
      type := upload.docType
      fileName := upload.fileName
      mimeType := upload.mimeType
      sizeBytes := upload.bytes.length
      status := .uploaded
      uploadProgressPercent := 100
      storageKey := some storageKey
      uploadedAt := some now
      errorMessage := none }
  let saved := match d.documents.find? fun r =>
      r.applicationId = app.row.id && r.type = upload.docType with
    | some old => old.replacedBy row
    | none => row
  Tx.write (.upsertDocument row)
  Tx.write (.insertAudit (auditBy session
    (if previous.isSome then "onboarding.document_replaced" else "onboarding.document_uploaded")
    "onboarding_document" saved.id (previous.map .document) (some (.document saved))))
  Tx.commit
  return saved

/-- The caller's document with an id. -/
def ownedDocument (app : Application) (documentId : Uuid) : Tx DocumentRow := do
  match ((← Tx.query).documents.find? fun r => r.id = documentId).filter fun r =>
      r.applicationId = app.row.id with
  | some found => return found
  | none => Prog.fail (.notFound "Document not found.")

/-- Mark a document as uploaded. -/
def retryDocumentUpload (session : Session) (documentId : Uuid) : Tx DocumentRow := do
  let app ← loadOwned session none
  let found ← ownedDocument app documentId
  let now ← Tx.begin
  Tx.lock (.document app.row.id found.type)
  Tx.write (.markDocumentUploaded documentId now)
  match (← Tx.read).documents.find? fun r => r.id = documentId with
  | none => Prog.fail .serverError
  | some updated => do
    Tx.write (.insertAudit (auditBy session "onboarding.document_retried" "onboarding_document"
      documentId (some (.document found)) (some (.document updated))))
    Tx.commit
    return updated

/-- Remove a document, and its bytes once the row is gone. -/
def removeDocument (session : Session) (documentId : Uuid) (os : Os) : Tx Unit := do
  let app ← loadOwned session none
  let found ← ownedDocument app documentId
  let _ ← Tx.begin
  Tx.lock (.document app.row.id found.type)
  Tx.write (.deleteDocument documentId)
  Tx.write (.insertAudit (auditBy session "onboarding.document_removed" "onboarding_document"
    documentId (some (.document found)) none))
  Tx.commit
  match found.storageKey with
  | some key => storageDelete os key
  | none => return ()

/-- The initials of the first three words, or the platform's, before a serial number. -/
def generateAccountId (legalName serial : String) : String :=
  let initials := (((legalName.toList.splitOnP Util.isWhitespace).filter (· ≠ [])).take 3).filterMap
    fun w => w.head?.map Char.toUpper
  (if initials = [] then "KMA" else String.ofList initials) ++ "-" ++ serial

/-- The limit of an approved account. -/
def monthlyLimit : Money := ⟨10000000, .usd⟩

/-- What the checks were run on. -/
def Application.screened (app : Application) : Screened :=
  ⟨app.row.business, app.principals, app.row.edits⟩

/-- The decision of a review. -/
def decision (session : Session) (app : Application) (business : BusinessDetails)
    (outcome : KybOutcome) (serial : String) (now : Time) : Tx Unit :=
  if outcome.approved then do
    Repo.patchStatus now app.row.id
      { status := .approved
        markReviewed := true
        approvedSummary := some ⟨generateAccountId business.legalName serial,
          outcome.riskRating.label, business.industry.segmentLabel, "NGN → USD / EUR",
          monthlyLimit⟩
        screened := fun _ => [app.screened] }
    setTransferLimit session.customerId outcome.riskRating.transactionLimitMinor
    auditTransition session app.row.id .inReview .approved
    Tx.write (.insertAudit (auditBy session "customer.risk_rating_assigned" "customer"
      session.customerId none (some (.riskLimit outcome.riskRating.label
        outcome.riskRating.transactionLimitMinor))))
  else do
    Repo.patchStatus now app.row.id
      { status := .rejected
        markReviewed := true
        rejectionReasons := some outcome.rejectionReasons }
    auditTransition session app.row.id .inReview .rejected

/-- What a submission finds when it loads the caller's application: one fit for review, or not. -/
def Records.stageOf (d : Records) (session : Session) (applicationId : Option Uuid) : Stage :=
  match d.applications.find? fun a => a.customerId = session.customerId with
  | some row =>
    if row.business.isSome ∧ row.status ≠ .submitted ∧ row.status ≠ .inReview ∧
        ∀ id ∈ applicationId, id = row.id then
      .loaded row.id row.status
    else .idle
  | none => .idle

/-- Review the application loaded: it is in review once the first transaction commits, and decided
once the second does. -/
def review (lower : String → String) (session : Session) (serial : String) (app : Application) :
    Tx Application :=
  match app.row.business with
  | none => Prog.fail (.validation "Add your business details before submitting.")
  | some business =>
  if app.row.status = .submitted || app.row.status = .inReview then
    Prog.fail (.conflict "This application is already being reviewed.")
  else do
  let now ← Tx.begin
  Repo.patchStatus now app.row.id { status := .submitted, markSubmitted := true }
  auditTransition session app.row.id app.row.status .submitted
  Repo.patchStatus now app.row.id { status := .inReview }
  auditTransition session app.row.id .submitted .inReview
  Tx.commit
  Tx.mark (·.withStage (.reviewing app.row.id))
  let outcome := runChecks lower app
  let now ← Tx.begin
  Repo.replaceKybChecks app.row.id outcome.checks
  decision session app business outcome serial now
  Tx.commit
  Tx.mark (·.withStage .idle)
  loadOwned session none

/-- Submit an application. -/
def submit (lower : String → String) (session : Session) (applicationId : Option Uuid)
    (serial : String) : Tx Application := do
  let app ← (loadOwned session applicationId).noting fun d =>
    (·.withStage (d.stageOf session applicationId))
  review lower session serial app

/-- What a rescreening reports of an application. -/
structure RescreenOutcome where
  customerId : Uuid
  applicationId : Uuid
  riskRating : String
  transactionLimitMinor : Option ℤ

/-- The account summary that a rescreening writes: the stored one under the new label. -/
def rescreenedSummary (app : Application) (business : BusinessDetails) (label serial : String) :
    ApprovedAccountSummary :=
  { (app.row.approvedSummary.getD ⟨generateAccountId business.legalName serial, "",
      business.industry.segmentLabel, "NGN → USD / EUR", monthlyLimit⟩) with
    riskRatingLabel := label }

/-- Write a rescreened application back, with the status it was loaded with. -/
def writeBack (app : Application) (outcome : KybOutcome) (summary : ApprovedAccountSummary) :
    Tx Unit := do
  let label := outcome.riskRating.label
  let limit := outcome.riskRating.transactionLimitMinor
  let now ← Tx.begin
  Repo.replaceKybChecks app.row.id outcome.checks
  Repo.patchStatus now app.row.id
    { status := app.row.status
      approvedSummary := some summary
      screened := fun old => if outcome.approved then app.screened :: old else old }
  setTransferLimit app.row.customerId limit
  Tx.write (.insertAudit ⟨none, "system", "onboarding.rescreened", "onboarding_application",
    app.row.id, some (.riskRating (app.row.approvedSummary.map (·.riskRatingLabel))),
    some (.riskLimit label limit)⟩)

/-- Rescreen one loaded application. -/
def rescreen (lower : String → String) (app : Application) (business : BusinessDetails)
    (serial : String) : Tx RescreenOutcome := do
  let outcome := runChecks lower app
  writeBack app outcome (rescreenedSummary app business outcome.riskRating.label serial)
  Tx.commit
  return ⟨app.row.customerId, app.row.id, outcome.riskRating.label,
    outcome.riskRating.transactionLimitMinor⟩

/-- Rescreen loaded applications one after another, those without business details apart. -/
def rescreenAll (lower : String → String) (serials : Uuid → String) :
    List Application → Tx (List RescreenOutcome)
  | [] => return []
  | app :: apps =>
    match app.row.business with
    | none => do
      Tx.mark fun l => l.withJob (l.job.filter (· ≠ app.row.id))
      rescreenAll lower serials apps
    | some business => do
      let outcome ← rescreen lower app business (serials app.row.id)
      Tx.mark fun l => l.withJob (l.job.filter (· ≠ app.row.id))
      let outcomes ← rescreenAll lower serials apps
      return outcome :: outcomes

/-- The rescreening job. -/
def rescreenApprovedCustomers (lower : String → String) (serials : Uuid → String) :
    Tx (List RescreenOutcome) := do
  let apps ← Repo.listApproved
  rescreenAll lower serials apps

/-! ### Calls -/

/-- The calls that work on applications. -/
inductive Op
  | saveBusinessDetails (session : Session) (business : BusinessDetails)
      (applicationId : Option Uuid)
  | savePrincipals (session : Session) (principals : List Principal) (applicationId : Option Uuid)
  | uploadDocument (session : Session) (upload : DocumentUpload) (applicationId : Option Uuid)
      (millis : ℕ) (os : Os)
  | retryDocumentUpload (session : Session) (documentId : Uuid)
  | removeDocument (session : Session) (documentId : Uuid) (os : Os)
  | submit (session : Session) (applicationId : Option Uuid) (serial : String)
  | rescreenApprovedCustomers (serials : Uuid → String)

/-- What a program answers does not matter. -/
def silently {A : Type} (p : Tx A) : Tx Unit := p.bind fun _ => .ret ()

/-- The program of a call; `isDigit` and `lower` are Unicode's digits and lower case. -/
def Op.prog (isDigit : Char → Bool) (lower : String → String) : Op → Tx Unit
  | saveBusinessDetails session business applicationId =>
    silently (Onboarding.saveBusinessDetails isDigit session business applicationId)
  | savePrincipals session principals applicationId =>
    silently (Onboarding.savePrincipals isDigit session principals applicationId)
  | uploadDocument session upload applicationId millis os =>
    silently (Onboarding.uploadDocument session upload applicationId millis os)
  | retryDocumentUpload session documentId =>
    silently (Onboarding.retryDocumentUpload session documentId)
  | removeDocument session documentId os =>
    silently (Onboarding.removeDocument session documentId os)
  | submit session applicationId serial =>
    silently (Onboarding.submit lower session applicationId serial)
  | rescreenApprovedCustomers serials =>
    silently (Onboarding.rescreenApprovedCustomers lower serials)

/-- Time passes. -/
def Env (d d' : Records) : Prop := ∃ t, d.clock ≤ t ∧ d' = { d with clock := t }

/-! ### Samples -/

/-- ASCII lower case. -/
def sampleLower (s : String) : String := .ofList (s.toList.map Char.toLower)

/-- A customer. -/
def sampleSession : Session := ⟨1, 1, "customer"⟩

/-- A Nigerian farm business. -/
def sampleBusiness (legalName : String) : BusinessDetails :=
  { legalName
    cacNumber := "RC-1234567"
    businessType := .limitedLiabilityCompany
    industry := .agricultureAgroExport
    tradingAddress := { state := "Lagos", country := "NG" }
    countryOfIncorporation := "NG" }

/-- The records of a customer with a new application. -/
def sampleRecords : Records :=
  { nextId := 100
    applications := [{ id := 7, customerId := 1 }]
    customers := [⟨1, none⟩] }

end Kimana.Onboarding
