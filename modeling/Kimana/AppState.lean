import Kimana.Contract

/-!
# Request context

What a request sees besides the database: the configuration, which partners are configured, and
two functions the backend takes from libraries.
-/

namespace Kimana

/-- Configuration and library functions. -/
structure AppState where
  /-- Confirmed vault events, not the simulator, move a transfer from SETTLING onwards. -/
  settlementOnchain : Bool
  complianceAmountThresholdMinor : ℤ
  maxTransferAmountMinor : ℤ
  maxAggregateExposureMinor : ℤ
  /-- A Yellow Card client is configured. -/
  yellowcard : Bool
  /-- A key for Bridge's webhook signatures is configured. -/
  bridgeWebhookKey : Bool
  /-- The vault's key for a transfer id: a hash of it. -/
  transferRef : Uuid → B256
  /-- Unicode word characters, as the regular-expression library knows them. -/
  isWord : Char → Bool

/-- The caller of a request. -/
structure Session where
  userId : Uuid
  customerId : Uuid
  role : String

end Kimana
