import Kimana.Contract

/-!
# The state of a transfer, as the API shows it

`buildState` reads a transfer's state from its status and the payload of its last history row, with
a default for whatever the payload lacks; `readState` is the reader without defaults.
-/

namespace Kimana

/-- `TransferFailureCategory`. -/
inductive TransferFailureCategory
  | network
  | validation
  | complianceHold
  | partnerFailure
  deriving DecidableEq

/-- A category by its name. -/
def TransferFailureCategory.parse : String → Option TransferFailureCategory
  | "network" => some .network
  | "validation" => some .validation
  | "compliance_hold" => some .complianceHold
  | "partner_failure" => some .partnerFailure
  | _ => none

/-- `TransferState`; a text is kept as the value that prints it. -/
inductive TransferState
  | created (enteredAt : Time)
  | quoted (enteredAt : Time)
  | screened (enteredAt : Time) (hold : Bool) (holdReason expectedResolutionBy : Option JVal)
  | awaitingFunds (enteredAt : Time) (fundingReference : JVal)
  | funded (enteredAt : Time)
  | settling (enteredAt : Time)
  | settled (enteredAt : Time)
  | payingOut (enteredAt : Time)
  | completed (enteredAt : Time) (payoutReference : JVal)
  | rejected (enteredAt : Time) (failureCategory : TransferFailureCategory) (reasonCode : JVal)
  | expired (enteredAt : Time)
  | reversing (enteredAt : Time) (reason : JVal)
  | reversed (enteredAt : Time) (reason reversalLedgerEntryId : JVal)
  deriving DecidableEq

/-- The value prints as a text. -/
def JVal.isText : JVal → Bool
  | str _ | id _ | time _ | hash _ | dec _ => true
  | _ => false

namespace Repo

/-- A text field. -/
def strField (p : JObj) (key : String) : Option JVal := (p.get key).filter JVal.isText

/-- A failure category. -/
def categoryField (p : JObj) (key : String) : Option TransferFailureCategory :=
  match strField p key with
  | some (.str s) => TransferFailureCategory.parse s
  | _ => none

/-- The state of a transfer, from its status and the payload of its last history row. -/
def buildState (status : TransferStatus) (enteredAt : Time) (payload : Option JObj) :
    TransferState :=
  let p := payload.getD []
  match status with
  | .created => .created enteredAt
  | .quoted => .quoted enteredAt
  | .screened => .screened enteredAt ((p.getBool "hold").getD false) (strField p "holdReason")
      (strField p "expectedResolutionBy")
  | .awaitingFunds => .awaitingFunds enteredAt ((strField p "fundingReference").getD (.str ""))
  | .funded => .funded enteredAt
  | .settling => .settling enteredAt
  | .settled => .settled enteredAt
  | .payingOut => .payingOut enteredAt
  | .completed => .completed enteredAt ((strField p "payoutReference").getD (.str ""))
  | .rejected => .rejected enteredAt ((categoryField p "failureCategory").getD .partnerFailure)
      ((strField p "reasonCode").getD (.str "UNKNOWN"))
  | .expired => .expired enteredAt
  | .reversing => .reversing enteredAt ((strField p "reason").getD (.str ""))
  | .reversed => .reversed enteredAt ((strField p "reason").getD (.str ""))
      ((strField p "reversalLedgerEntryId").getD (.str ""))

/-- The state of a transfer when the payload has all that is read from it. -/
def readState (status : TransferStatus) (enteredAt : Time) (payload : Option JObj) :
    Option TransferState :=
  let p := payload.getD []
  match status with
  | .screened => do
    return .screened enteredAt (← p.getBool "hold") (strField p "holdReason")
      (strField p "expectedResolutionBy")
  | .awaitingFunds => do return .awaitingFunds enteredAt (← strField p "fundingReference")
  | .completed => do return .completed enteredAt (← strField p "payoutReference")
  | .rejected => do
    return .rejected enteredAt (← categoryField p "failureCategory") (← strField p "reasonCode")
  | .reversing => do return .reversing enteredAt (← strField p "reason")
  | .reversed => do
    return .reversed enteredAt (← strField p "reason") (← strField p "reversalLedgerEntryId")
  | _ => some (buildState status enteredAt payload)

/-- A payload has all that is read from it at a status. -/
def Readable (status : TransferStatus) (payload : Option JObj) : Prop :=
  ∀ enteredAt, (readState status enteredAt payload).isSome

/-- A state that is read without defaults is the one that is shown. -/
theorem Readable.eq {status : TransferStatus} {payload : Option JObj} (h : Readable status payload)
    (enteredAt : Time) :
    readState status enteredAt payload = some (buildState status enteredAt payload) := by
  obtain ⟨st, hst⟩ := Option.isSome_iff_exists.1 (h enteredAt)
  rw [hst]
  cases status
  case screened | awaitingFunds | completed | reversing =>
    simp only [readState, Option.bind_eq_bind, Option.pure_def, Option.bind_eq_some_iff,
      Option.some.injEq] at hst
    obtain ⟨x, hx, rfl⟩ := hst
    simp [buildState, hx]
  case rejected | reversed =>
    simp only [readState, Option.bind_eq_bind, Option.pure_def, Option.bind_eq_some_iff,
      Option.some.injEq] at hst
    obtain ⟨x, hx, y, hy, rfl⟩ := hst
    simp [buildState, hx, hy]
  all_goals exact hst.symm

end Repo

end Kimana
