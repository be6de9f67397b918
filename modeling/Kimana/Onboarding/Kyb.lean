import Kimana.Onboarding
import Kimana.Util

/-!
# KYB checks

The stub checks of an application and its risk rating, both functions of the business details and
the principals.  `lower` is the Unicode lower case of a text.
-/

namespace Kimana.Onboarding

/-- An application as loaded, with its principals and documents. -/
structure Application where
  row : ApplicationRow
  principals : List Principal
  documents : List DocumentRow

namespace Kyb

open Util

/-- One check. -/
structure CheckResult where
  key : String
  passed : Bool
  detail : String
  deriving DecidableEq

inductive RiskRating
  | low
  | medium
  | high
  deriving DecidableEq

/-- The label stored. -/
def RiskRating.label : RiskRating → String
  | low => "Low"
  | medium => "Medium"
  | high => "High"

/-- The per-transfer ceiling of a rating; `none` leaves the platform's default. -/
def RiskRating.transactionLimitMinor : RiskRating → Option ℤ
  | low => none
  | medium => some 5000000
  | high => some 1000000

/-- Equal but for the case of ASCII letters. -/
def eqIgnoreAsciiCase (s t : String) : Bool := s.toList.map Char.toLower = t.toList.map Char.toLower

/-- Riskier sectors and foreign incorporation each add a step; a marker in the name decides. -/
def assessRiskRating (lower : String → String) (app : Application) : RiskRating :=
  match app.row.business with
  | none => .low
  | some business =>
    let legalName := lower business.legalName
    if contains "highrisk" legalName then .high
    else if contains "mediumrisk" legalName then .medium
    else
      let highRiskIndustry := match business.industry with
        | .oilGasServices | .solidMinerals | .tradingCommodities => true
        | _ => false
      let foreignIncorporated := !eqIgnoreAsciiCase business.countryOfIncorporation "NG"
      match highRiskIndustry, foreignIncorporated with
      | true, true => .high
      | true, false | false, true => .medium
      | false, false => .low

/-- What the checks come to. -/
structure KybOutcome where
  approved : Bool
  checks : List CheckResult
  rejectionReasons : List RejectionDetail
  riskRating : RiskRating

/-- A check that fails with one text and passes with another. -/
def check (key : String) (fails : Bool) (failed passed : String) : CheckResult :=
  ⟨key, !fails, if fails then failed else passed⟩

/-- The reason a failed check gives for a field. -/
def reasonFor (field : String) (c : CheckResult) : Option RejectionDetail :=
  if c.passed then none else some ⟨field, c.detail⟩

/-- Run the checks. -/
def runChecks (lower : String → String) (app : Application) : KybOutcome :=
  let legalName := match app.row.business with
    | some b => lower b.legalName
    | none => ""
  let cac := check "cac_lookup" (contains "reject" legalName)
    "RC number could not be verified with the Corporate Affairs Commission."
    "RC number verified with the Corporate Affairs Commission."
  let bvn := check "director_identity" (app.principals.any fun p => p.bvn = some "00000000000")
    "A director's BVN did not resolve at NIBSS."
    "Director identities cross-referenced with NIBSS."
  let sanctions := check "sanctions_pep"
    (app.principals.any fun p =>
      contains "sanction" (lower p.fullName) || contains "pep" (lower p.fullName))
    "A principal matched a sanctions list or PEP screening entry."
    "No matches on OFAC SDN, EU Consolidated, UN sanctions lists, or PEP databases."
  let media := check "adverse_media" (contains "adverse" legalName)
    "Adverse media coverage found for the business name."
    "No adverse media or enforcement records found."
  let risk := check "risk_rating" false "" "Segment, corridor, and volume risk model applied."
  let rejectionReasons :=
    [reasonFor "business.cacNumber" cac, reasonFor "principals[].bvn" bvn,
      reasonFor "principals[].fullName" sanctions,
        reasonFor "business.legalName" media].reduceOption
  { approved := rejectionReasons.isEmpty
    checks := [cac, bvn, sanctions, media, risk]
    rejectionReasons
    riskRating := assessRiskRating lower app }

end Kyb

end Kimana.Onboarding
