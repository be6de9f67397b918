import Kimana.Util

/-!
# Compliance screening

A transfer is held when the recipient's country is on the watchlist or the amount is at or above
the review threshold.
-/

namespace Kimana.Screening

open Util

/-- Countries under comprehensive sanctions programs. -/
def watchlistedCountries : List String := ["IR", "KP", "SY", "CU", "RU"]

/-- What screening looks at. -/
structure ScreeningInput where
  recipientCountry : String
  sendAmountMinor : ℤ
  sendCurrency : CurrencyCode

/-- What screening decides. -/
structure ScreeningOutcome where
  hold : Bool
  holdReason : Option String
  deriving DecidableEq

/-- Screen a transfer. -/
def screen (input : ScreeningInput) (amountThresholdMinor : ℤ) : ScreeningOutcome :=
  let country := toUppercase (trim input.recipientCountry)
  if country ∈ watchlistedCountries then
    ⟨true, some ("Recipient country " ++ country ++ " is on the sanctioned-country watchlist.")⟩
  else if amountThresholdMinor ≤ input.sendAmountMinor then
    ⟨true, some ("Send amount " ++ toString input.sendAmountMinor ++ " " ++
      input.sendCurrency.asStr ++ " is at or above the compliance review threshold.")⟩
  else ⟨false, none⟩

end Kimana.Screening
