import Mathlib.Algebra.Ring.Int.Defs
import Mathlib.Algebra.Ring.Nat

/-!
# Contract types

The enumerations, error values and JSON payloads that the rest of the backend exchanges.  A
column that stores `as_str` of an enumeration holds the enumeration itself: `parse` reads back
what `as_str` wrote (`CurrencyCode.parse_asStr`, `TransferStatus.parse_asStr`).

Money is a signed number of minor units (`ℤ`), a row id is the number drawn for it, and a time is
a number of seconds.
-/

namespace Kimana

/-- Row ids, drawn from one generator. -/
abbrev Uuid := ℕ

/-- Seconds. -/
abbrev Time := ℕ

/-- Hashes of transactions, and refs the vault knows transfers by. -/
abbrev B256 := ℕ

/-! ### Errors -/

/-- The error codes of the API. -/
inductive ErrorCode
  | network
  | timeout
  | validation
  | notFound
  | conflict
  | unauthorized
  | forbidden
  | complianceHold
  | partnerFailure
  | rateExpired
  | serverError
  deriving DecidableEq, Repr

/-- Whether an error with this code may be retried unless it says otherwise. -/
def ErrorCode.defaultRetryable : ErrorCode → Bool
  | .network | .timeout | .partnerFailure | .rateExpired | .serverError => true
  | _ => false

/-- What every service and handler returns on failure. -/
structure ApiError where
  code : ErrorCode
  message : String
  retryable : Bool
  deriving DecidableEq, Repr

namespace ApiError

/-- An error with the default retryability of its code. -/
def new (code : ErrorCode) (message : String) : ApiError :=
  ⟨code, message, code.defaultRetryable⟩

/-- Override the retryability. -/
def withRetryable (e : ApiError) (retryable : Bool) : ApiError := { e with retryable }

/-- Bad input. -/
def validation (message : String) : ApiError := new .validation message

/-- No such row, or not the caller's. -/
def notFound (message : String) : ApiError := new .notFound message

/-- The state does not allow the request. -/
def conflict (message : String) : ApiError := new .conflict message

/-- A bad signature. -/
def unauthorized (message : String) : ApiError := new .unauthorized message

/-- The quote is too old. -/
def rateExpired (message : String) : ApiError := new .rateExpired message

/-- Held for review. -/
def complianceHold (message : String) : ApiError := new .complianceHold message

/-- What a database error becomes. -/
def serverError : ApiError :=
  new .serverError "Something went wrong on our end. Try again in a moment."

end ApiError

/-! ### Currencies and money -/

/-- The currencies a customer can name. -/
inductive CurrencyCode
  | ngn
  | kes
  | ghs
  | zar
  | xof
  | xaf
  | egp
  | usd
  | eur
  | gbp
  deriving DecidableEq, Repr

namespace CurrencyCode

/-- The code as stored. -/
def asStr : CurrencyCode → String
  | ngn => "NGN"
  | kes => "KES"
  | ghs => "GHS"
  | zar => "ZAR"
  | xof => "XOF"
  | xaf => "XAF"
  | egp => "EGP"
  | usd => "USD"
  | eur => "EUR"
  | gbp => "GBP"

/-- Read a stored code. -/
def parse (value : String) : Except ApiError CurrencyCode :=
  match value with
  | "NGN" => .ok ngn
  | "KES" => .ok kes
  | "GHS" => .ok ghs
  | "ZAR" => .ok zar
  | "XOF" => .ok xof
  | "XAF" => .ok xaf
  | "EGP" => .ok egp
  | "USD" => .ok usd
  | "EUR" => .ok eur
  | "GBP" => .ok gbp
  | other => .error (.validation ("Unknown currency " ++ other ++ "."))

theorem parse_asStr (c : CurrencyCode) : parse c.asStr = .ok c := by
  cases c <;> rfl

end CurrencyCode

/-- The currency of a ledger account: a currency code, or the settlement wallet's `USDC`. -/
inductive LedgerCurrency
  | fiat (c : CurrencyCode)
  | usdc
  deriving DecidableEq, Repr

/-- Minor units of a currency. -/
structure Money where
  amountMinor : ℤ
  currency : CurrencyCode
  deriving DecidableEq, Repr

/-! ### Transfer status -/

/-- The status of a transfer. -/
inductive TransferStatus
  | created
  | quoted
  | screened
  | awaitingFunds
  | funded
  | settling
  | settled
  | payingOut
  | completed
  | rejected
  | expired
  | reversing
  | reversed
  deriving DecidableEq, Repr

namespace TransferStatus

/-- The status as stored. -/
def asStr : TransferStatus → String
  | created => "CREATED"
  | quoted => "QUOTED"
  | screened => "SCREENED"
  | awaitingFunds => "AWAITING_FUNDS"
  | funded => "FUNDED"
  | settling => "SETTLING"
  | settled => "SETTLED"
  | payingOut => "PAYING_OUT"
  | completed => "COMPLETED"
  | rejected => "REJECTED"
  | expired => "EXPIRED"
  | reversing => "REVERSING"
  | reversed => "REVERSED"

/-- Read a stored status. -/
def parse (value : String) : Except ApiError TransferStatus :=
  match value with
  | "CREATED" => .ok created
  | "QUOTED" => .ok quoted
  | "SCREENED" => .ok screened
  | "AWAITING_FUNDS" => .ok awaitingFunds
  | "FUNDED" => .ok funded
  | "SETTLING" => .ok settling
  | "SETTLED" => .ok settled
  | "PAYING_OUT" => .ok payingOut
  | "COMPLETED" => .ok completed
  | "REJECTED" => .ok rejected
  | "EXPIRED" => .ok expired
  | "REVERSING" => .ok reversing
  | "REVERSED" => .ok reversed
  | other => .error (.validation ("Unknown transfer status " ++ other ++ "."))

theorem parse_asStr (s : TransferStatus) : parse s.asStr = .ok s := by
  cases s <;> rfl

/-- The statuses a drive loop stops at. -/
def isTerminal : TransferStatus → Bool
  | completed | rejected | expired | reversed => true
  | _ => false

end TransferStatus

/-! ### Quotes -/

/-- Whether a rate came from the feed or from the cache that stands in for it. -/
inductive RateSource
  | live
  | cachedProvisional
  deriving DecidableEq, Repr

/-- A rate with eight decimal places, as a whole number of 10⁻⁸. -/
abbrev Rate := ℤ

/-- What a quote costs. -/
structure CostBreakdown where
  rate : Rate
  fee : Money
  sendAmount : Money
  receiveAmount : Money
  source : RateSource
  deriving DecidableEq, Repr

/-- A firm quote, as the customer sees it and as a transfer keeps it. -/
structure FirmQuote where
  id : Uuid
  sendCurrency : CurrencyCode
  receiveCurrency : CurrencyCode
  breakdown : CostBreakdown
  issuedAt : Time
  expiresAt : Time
  deriving DecidableEq, Repr

/-! ### JSON payloads -/

/-- The JSON values the payloads hold.  Ids, times, hashes and decimal texts are kept as what
they print. -/
inductive JVal
  | null
  | bool (b : Bool)
  | num (n : ℤ)
  | str (s : String)
  | id (n : Uuid)
  | time (t : Time)
  | hash (h : B256)
  | dec (n : ℕ)
  | strs (ss : List String)
  deriving DecidableEq, Repr

/-- A text has a zero character, which no column takes. -/
def hasNul (s : String) : Bool := s.toList.any fun c => c = Char.ofNat 0

/-- Some text in the value has a zero character. -/
def JVal.hasNul : JVal → Bool
  | str s => Kimana.hasNul s
  | strs ss => ss.any Kimana.hasNul
  | _ => false

/-- A JSON object. -/
abbrev JObj := List (String × JVal)

namespace JObj

/-- The value of a key. -/
def get (o : JObj) (key : String) : Option JVal := o.lookup key

/-- Set a key. -/
def insert (o : JObj) (key : String) (v : JVal) : JObj :=
  o.filter (fun f => f.1 != key) ++ [(key, v)]

theorem get_insert_of_ne {o : JObj} {key key' : String} (h : key ≠ key') (v : JVal) :
    (o.insert key v).get key' = o.get key' := by
  have hne : (key' == key) = false := by simpa using h.symm
  induction o with
  | nil => simp [insert, get, List.lookup_cons, hne]
  | cons f o ih =>
    simp only [insert, get] at ih ⊢
    by_cases hf : f.1 = key
    · have hk : (key' == f.1) = false := by rw [hf]; exact hne
      rw [List.filter_cons_of_neg (by simpa using hf), ih, List.lookup_cons, hk]
    · rw [List.filter_cons_of_pos (by simpa using hf), List.cons_append, List.lookup_cons,
        List.lookup_cons]
      split
      · rfl
      · exact ih

theorem get_insert (o : JObj) (key : String) (v : JVal) : (o.insert key v).get key = some v := by
  induction o with
  | nil => simp [insert, get]
  | cons f o ih =>
    simp only [insert, get] at ih ⊢
    by_cases hf : f.1 = key
    · rw [List.filter_cons_of_neg (by simpa using hf), ih]
    · have hk : (key == f.1) = false := by simpa using Ne.symm hf
      rw [List.filter_cons_of_pos (by simpa using hf), List.cons_append, List.lookup_cons, hk]
      exact ih

/-- Some name or value has a zero character. -/
def hasNul (o : JObj) : Bool := o.any fun f => Kimana.hasNul f.1 || f.2.hasNul

/-- A boolean field. -/
def getBool (o : JObj) (key : String) : Option Bool :=
  match o.get key with
  | some (.bool b) => some b
  | _ => none

end JObj

end Kimana
