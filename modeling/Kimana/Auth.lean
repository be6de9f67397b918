import Kimana.AppState
import Kimana.Table
import Kimana.Util
import Kimana.Util.Luhn
import Kimana.World
import Kimana.ReadCommitted.Prog

/-!
# Registration, login and sessions

A registration stores a user, the customer that belongs to it, a draft application, an audit row and
a session in one transaction.  A session is known by the hash of a random token, and a request is
carried out for the user whose session its cookie names.

Password hashing, token hashing and SQL's `lower` are arguments of the operations, and so is what is
drawn at random.
-/

namespace Kimana.Auth

open ReadCommitted Table Util

/-! ### State -/

/-- Functions taken from libraries. -/
structure Library where
  /-- Hash a password with a salt; hashing can fail. -/
  hashPassword : String → String → Option String
  verifyPassword : String → String → Bool
  hashToken : String → String
  /-- Lower case, as the unique index on emails has it. -/
  lower : String → String

/-- A row of `users`. -/
structure UserRow where
  id : Uuid
  role : String
  displayName : String
  operatorPermissions : List String
  email : Option String
  passwordHash : Option String
  deriving DecidableEq

/-- A row of `customers`. -/
structure CustomerRow where
  id : Uuid
  legalName : String
  primaryUserId : Uuid
  accountNumber : String
  deriving DecidableEq

/-- A row of `onboarding_applications` as a registration stores it. -/
structure ApplicationRow where
  id : Uuid
  customerId : Uuid
  status : String
  deriving DecidableEq

/-- A row of `sessions`. -/
structure SessionRow where
  id : Uuid
  userId : Uuid
  tokenHash : String
  expiresAt : Time
  revokedAt : Option Time
  deriving DecidableEq

/-- The tables. -/
structure Directory where
  nextId : ℕ := 0
  clock : Time := 0
  users : List UserRow := []
  customers : List CustomerRow := []
  applications : List ApplicationRow := []
  sessions : List SessionRow := []
  audit : List AuditRow := []

/-- The statements of a transaction that change the tables. -/
inductive Write
  | insertUser (row : UserRow)
  | insertCustomer (row : CustomerRow)
  | insertApplication (row : ApplicationRow)
  | insertSession (row : SessionRow)
  | insertAudit (row : AuditRow)

/-- Carry out one statement. -/
def Write.apply : Write → Directory → Directory
  | insertUser row, d => { d with users := d.users ++ [row] }
  | insertCustomer row, d => { d with customers := d.customers ++ [row] }
  | insertApplication row, d => { d with applications := d.applications ++ [row] }
  | insertSession row, d => { d with sessions := d.sessions ++ [row] }
  | insertAudit row, d => { d with audit := d.audit ++ [row] }

instance : Store Directory Write where
  apply := Write.apply
  seq d := d.nextId
  bump d := { d with nextId := d.nextId + 1 }
  seq_apply w d := by cases w <;> rfl
  seq_bump _ := rfl

/-- The unique keys an insert waits for. -/
inductive Key
  | email (lowered : String)
  | accountNumber (number : String)
  | tokenHash (hash : String)
  deriving DecidableEq

/-- Programs over these tables. -/
abbrev Tx := Prog Directory Write Key Unit ApiError

/-! ### Validation -/

/-- A character of an email's parts. -/
def emailChar (c : Char) : Bool := !isWhitespace c && c ≠ '@'

/-- The regular expression `^[^\s@]+@[^\s@]+\.[^\s@]+$`. -/
def isEmail (text : List Char) : Bool :=
  let name := text.takeWhile (· ≠ '@')
  match text.dropWhile (· ≠ '@') with
  | [] => false
  | _ :: domain => !name.isEmpty && name.all emailChar && domain.all emailChar &&
      -- A dot with something on both sides.
      (domain.drop 1).dropLast.contains '.'

/-- What is checked of a registration; the email is checked without the blanks around it. -/
def validateRegister (email password displayName legalName : String) : Except ApiError Unit :=
  if !isEmail (trim email).toList then .error (.validation "Enter a valid email address.")
  else if byteLen password < 8 then
    .error (.validation "Password must be at least 8 characters.")
  else if (trim displayName).toList.length < 2 then
    .error (.validation "Enter your full name.")
  else if (trim legalName).toList.length < 2 then
    .error (.validation "Enter your registered business name.")
  else .ok ()

/-! ### Account numbers -/

/-- What `random()` gives a number: its first digit, less one, and the eight that follow. -/
structure Draw where
  first : Fin 9
  rest : Fin 100000000

/-- `lpad`. -/
def lpad (n : ℕ) (fill : Char) (text : List Char) : List Char :=
  (List.replicate (n - text.length) fill ++ text).take n

/-- The nine digits that are drawn. -/
def Draw.body (draw : Draw) : List Char :=
  Nat.toDigits 10 (1 + draw.first.val) ++ lpad 8 '0' (Nat.toDigits 10 draw.rest.val)

/-- A character as a digit. -/
def digitOf (c : Char) : ℕ := c.toNat - '0'.toNat

/-- One turn of the loop over the digits, from the right. -/
def addDigit (body : List Char) (total i : ℕ) : ℕ :=
  let d := digitOf (body.getD (8 - i) '0')
  total + (if i % 2 = 0 then (if 9 < d * 2 then d * 2 - 9 else d * 2) else d)

/-- A number that may be handed out. -/
def Draw.candidate (draw : Draw) : String :=
  let total := (List.range 9).foldl (addDigit draw.body) 0
  .ofList (draw.body ++ Nat.toDigits 10 ((10 - total % 10) % 10))

/-- The check `account_number ~ '^[1-9][0-9]{9}$'`. -/
def accountNumberFormat (number : String) : Bool :=
  match number.toList with
  | [] => false
  | c :: cs => c.isDigit && c ≠ '0' && cs.length = 9 && cs.all Char.isDigit

/-! ### Statements -/

/-- The user with an email. -/
def Directory.userByEmail (lib : Library) (d : Directory) (email : String) : Option UserRow :=
  d.users.find? fun u => u.email.map lib.lower = some (lib.lower email)

/-- A user and the customer that belongs to it. -/
def Directory.context (d : Directory) (userId : Uuid) : Option (UserRow × CustomerRow) :=
  (d.users.find? fun u => u.id = userId).bind fun u =>
    (d.customers.find? fun c => c.primaryUserId = u.id).map fun c => (u, c)

/-- A number some customer has. -/
def Directory.numberTaken (d : Directory) (number : String) : Bool :=
  d.customers.any fun c => c.accountNumber = number

/-- Look a user up; a text with a zero character is an error of the statement. -/
def findUserByEmail (lib : Library) (email : String) : Tx (Option UserRow) := do
  if hasNul email then Prog.fail .serverError else do
  return (← Tx.query : Directory).userByEmail lib email

/-- Insert a user with an email; two users with one email are an error. -/
def insertUser (lib : Library) (id : Uuid) (displayName email passwordHash : String) : Tx Unit := do
  if hasNul displayName || hasNul email then Prog.fail .serverError else do
  Tx.lock (.email (lib.lower email))
  let d : Directory ← Tx.read
  if (d.userByEmail lib email).isSome then Prog.fail .serverError
  else Prog.write (.insertUser
    { id
      role := "customer"
      displayName
      operatorPermissions := []
      email := some email
      passwordHash := some passwordHash }) (.ret ())

/-- Draw numbers until one is free.  Each look at the table is a statement with a snapshot of its
own; a call that is out of draws goes on drawing until it is cancelled. -/
def generateAccountNumber : List Draw → Tx String
  | [] => Prog.fail .serverError
  | draw :: draws => do
    if (← Tx.read : Directory).numberTaken draw.candidate then generateAccountNumber draws
    else return draw.candidate

/-- Insert a customer, whose number is the column's default. -/
def insertCustomer (id : Uuid) (legalName : String) (primaryUserId : Uuid) (draws : List Draw) :
    Tx String := do
  if hasNul legalName then Prog.fail .serverError else do
  let accountNumber ← generateAccountNumber draws
  Tx.lock (.accountNumber accountNumber)
  let d : Directory ← Tx.read
  if d.numberTaken accountNumber || !accountNumberFormat accountNumber then Prog.fail .serverError
  else do
    Tx.write (.insertCustomer ⟨id, legalName, primaryUserId, accountNumber⟩)
    return accountNumber

/-- Insert a draft application for a new customer. -/
def insertDraftApplication (id customerId : Uuid) : Tx Unit :=
  Tx.write (.insertApplication ⟨id, customerId, "draft"⟩)

def sessionTtlDays : ℕ := 30

/-- How long a session lasts. -/
def sessionTtl : Time := sessionTtlDays * 86400

/-- Insert a session; two sessions with one token hash are an error. -/
def insertSession (id userId : Uuid) (tokenHash : String) (expiresAt : Time) : Tx Unit := do
  Tx.lock (.tokenHash tokenHash)
  let d : Directory ← Tx.read
  if d.sessions.any fun s => s.tokenHash = tokenHash then Prog.fail .serverError
  else Tx.write (.insertSession ⟨id, userId, tokenHash, expiresAt, none⟩)

/-- A session that is revoked now. -/
def SessionRow.revoke (now : Time) (s : SessionRow) : SessionRow := { s with revokedAt := some now }

/-- Revoke a session, unless that is done already. -/
def Directory.revokeSession (tokenHash : String) (d : Directory) : Directory :=
  { d with
    sessions := updateWhere (fun s => s.tokenHash = tokenHash && s.revokedAt.isNone)
      (.revoke d.clock) d.sessions }

/-! ### Operations -/

/-- The session of a request, with what the join of its user and customer says. -/
structure Session extends Kimana.Session where
  displayName : String
  operatorPermissions : List String
  accountNumber : String

/-- The session of a user and its customer. -/
def sessionOf (u : UserRow) (c : CustomerRow) : Session :=
  { userId := u.id
    customerId := c.id
    role := u.role
    displayName := u.displayName
    operatorPermissions := u.operatorPermissions
    accountNumber := c.accountNumber }

/-- A session and the token that names it. -/
structure Authenticated where
  session : Session
  rawToken : String

/-- What is asked for to register. -/
structure RegisterInput where
  email : String
  password : String
  displayName : String
  legalName : String

/-- What is drawn at random for a registration. -/
structure Randomness where
  salt : String
  draws : List Draw
  rawToken : String

/-- The audit row of a registration. -/
def registeredAudit (userId : Uuid) (input : RegisterInput) (accountNumber : String) : AuditRow :=
  { actorId := some userId
    actorRole := some "customer"
    action := "auth.user_registered"
    entityType := "user"
    entityId := userId
    before := none
    after := some [("email", .str input.email), ("displayName", .str input.displayName),
      ("legalName", .str input.legalName), ("accountNumber", .str accountNumber)] }

/-- Register a user. -/
def register (lib : Library) (input : RegisterInput) (random : Randomness) : Tx Authenticated := do
  match validateRegister input.email input.password input.displayName input.legalName with
  | .error e => Prog.fail e
  | .ok () => do
  if (← findUserByEmail lib input.email).isSome then
    Prog.fail (.conflict "An account with that email already exists.")
  else do
  match lib.hashPassword random.salt input.password with
  | none => Prog.fail .serverError
  | some passwordHash => do
  let userId ← Tx.fresh
  let customerId ← Tx.fresh
  let applicationId ← Tx.fresh
  insertUser lib userId input.displayName input.email passwordHash
  let accountNumber ← insertCustomer customerId input.legalName userId random.draws
  insertDraftApplication applicationId customerId
  Tx.write (.insertAudit (registeredAudit userId input accountNumber))
  let sessionId ← Tx.fresh
  let now ← Prog.read fun d : Directory => .ret d.clock
  insertSession sessionId userId (lib.hashToken random.rawToken) (now + sessionTtl)
  Tx.commit
  return {
    session :=
      { userId
        customerId
        role := "customer"
        displayName := input.displayName
        operatorPermissions := []
        accountNumber }
    rawToken := random.rawToken }

/-- The answer to a wrong email or password. -/
def invalidLogin : ApiError := .unauthorized "Invalid email or password."

/-- Log a user in. -/
def login (lib : Library) (email password rawToken : String) : Tx Authenticated := do
  match ← findUserByEmail lib email with
  | none => Prog.fail invalidLogin
  | some user =>
  match user.passwordHash with
  | none => Prog.fail invalidLogin
  | some hash =>
  if !lib.verifyPassword password hash then Prog.fail invalidLogin else do
  match (← Tx.query : Directory).context user.id with
  | none => Prog.fail invalidLogin
  | some (u, c) => do
  let sessionId ← Tx.fresh
  let now ← Prog.read fun d : Directory => .ret d.clock
  insertSession sessionId user.id (lib.hashToken rawToken) (now + sessionTtl)
  Tx.commit
  return { session := { sessionOf u c with userId := user.id }, rawToken }

/-- Log out, if the request has a cookie. -/
def logout (lib : Library) : Option String → Tx Unit
  | none => .ret ()
  | some rawToken => Prog.atomic (Directory.revokeSession (lib.hashToken rawToken)) fun _ => .ret ()

/-- The session with a token hash, not expired and not revoked, and whom it is for. -/
def Directory.resolve (d : Directory) (tokenHash : String) : Option Session :=
  (d.sessions.find? fun s => s.tokenHash = tokenHash && s.revokedAt.isNone && d.clock < s.expiresAt)
    |>.bind fun s => (d.context s.userId).map fun (u, c) => sessionOf u c

/-- Whom a request is carried out for. -/
def fromRequestParts (lib : Library) : Option String → Tx Session
  | none => Prog.fail (.unauthorized "Sign in to continue.")
  | some token => do
    match (← Tx.query : Directory).resolve (lib.hashToken token) with
    | none => Prog.fail (.unauthorized "Sign in to continue.")
    | some session => return session

/-! ### Calls -/

/-- The requests. -/
inductive Op
  | register (input : RegisterInput) (random : Randomness)
  | login (email password rawToken : String)
  | logout (cookie : Option String)
  /-- Any other request: whom it is for. -/
  | request (cookie : Option String)

/-- What they answer. -/
inductive Answer
  | authenticated (a : Authenticated)
  | loggedOut
  | session (s : Session)

/-- The program of a request. -/
def Op.prog (lib : Library) : Op → Tx Answer
  | register input random => do return .authenticated (← Auth.register lib input random)
  | login email password rawToken => do
    return .authenticated (← Auth.login lib email password rawToken)
  | logout cookie => do
    Auth.logout lib cookie
    return .loggedOut
  | request cookie => do return .session (← fromRequestParts lib cookie)

end Kimana.Auth
