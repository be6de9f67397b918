import Kimana.Collections
import Kimana.Util.Rate
import Mathlib.Data.List.Basic

/-!
# Signatures of webhooks

SHA-256, base64 and the RSA check are parameters; what is checked with them is not.

* `constantTimeEq_iff` : the comparison without an early exit is equality.
* `Yellowcard.verifyWebhook_iff` : a Yellow Card delivery is accepted with the right code alone.
* `Bridge.fields_header` : the header that Bridge sends is read back.
* `Bridge.valid_iff` : what is accepted, wrapped 64-bit arithmetic and all.
* `Bridge.valid_header_iff` : **which deliveries are accepted**, of those in Bridge's form.
* `Bridge.signed_of_valid` : what is accepted was signed, with this body and at this time.
-/

namespace Kimana

namespace Util

/-- Compare two byte strings without an early exit. -/
def constantTimeEq (a b : List UInt8) : Bool :=
  a.length = b.length && (a.zip b).foldl (fun acc p => acc ||| (p.1 ^^^ p.2)) 0 = 0

/-- HMAC-SHA256, with the hash a parameter. -/
def hmacSha256 (sha256 : List UInt8 → List UInt8) (key message : List UInt8) : List UInt8 :=
  let blockKey := ((if 64 < key.length then sha256 key else key) ++ List.replicate 64 0).take 64
  let pad (byte : UInt8) := blockKey.map (· ^^^ byte)
  sha256 (pad 0x5c ++ sha256 (pad 0x36 ++ message))

end Util

/-- The parts that are not here: SHA-256, base64 and the RSA check under the endpoint's key. -/
structure Crypto where
  sha256 : List UInt8 → List UInt8
  decode64 : List Char → Option (List UInt8)
  verify : List UInt8 → List UInt8 → Bool

open Util Collections

namespace Yellowcard

/-- Check a delivery. -/
def verifyWebhook (crypto : Crypto) (secret : List UInt8) (signature : List Char)
    (body : List UInt8) : Bool :=
  match crypto.decode64 (trim (.ofList signature)).toList with
  | none => false
  | some given => constantTimeEq given (hmacSha256 crypto.sha256 secret body)

end Yellowcard

namespace Bridge

/-- Bridge's advice: refuse deliveries older than about ten minutes. -/
def webhookToleranceMs : ℤ := 10 * 60 * 1000

/-- The UTF-8 bytes of a text. -/
def asBytes (text : List Char) : List UInt8 := text.flatMap String.utf8EncodeChar

/-- `<t>.<body>`. -/
def signedText (timestamp : List Char) (body : List UInt8) : List UInt8 :=
  asBytes timestamp ++ 46 :: body

/-- The bytes Bridge signs: SHA-256 of `<t>.<body>`, hashed once more. -/
def signedHash (crypto : Crypto) (timestamp : List Char) (body : List UInt8) : List UInt8 :=
  crypto.sha256 (crypto.sha256 (signedText timestamp body))

/-- `str::split_once`. -/
def splitOnce (sep : Char) (text : List Char) : Option (List Char × List Char) :=
  if sep ∈ text then some (text.takeWhile (· ≠ sep), (text.dropWhile (· ≠ sep)).tail) else none

/-- One part of the header: the last `t` and the last `v0` count, other parts do not. -/
def field (found : Option (List Char) × Option (List Char)) (part : List Char) :
    Option (List Char) × Option (List Char) :=
  match splitOnce '=' (trim (.ofList part)).toList with
  | some (['t'], v) => (some v, found.2)
  | some (['v', '0'], v) => (found.1, some v)
  | _ => found

/-- The timestamp and the signature of a header. -/
def fields (header : List Char) : Option (List Char) × Option (List Char) :=
  (header.splitOn ',').foldl field (none, none)

/-- `str::parse::<i64>`: a sign is allowed. -/
def parseSigned (text : List Char) : Option ℤ :=
  match text with
  | '-' :: digits => (Decimal.parse (2 ^ 63 + 1) digits).map fun n : ℕ => -(n : ℤ)
  | '+' :: digits => (Decimal.parse (2 ^ 63) digits).map Int.ofNat
  | digits => (Decimal.parse (2 ^ 63) digits).map Int.ofNat

/-- Check a delivery.  In a release build the difference and its absolute value wrap. -/
def verifyWebhook (crypto : Crypto) (header : List Char) (body : List UInt8) (nowMs : ℤ) :
    WebhookCheck :=
  match fields header with
  | (some timestamp, some signature) =>
    match parseSigned timestamp, crypto.decode64 signature with
    | some sentMs, some sig =>
      if !crypto.verify (signedHash crypto timestamp body) sig then .invalid
      else if webhookToleranceMs < asI64 |asI64 (nowMs - sentMs)| then .stale
      else .valid
    | _, _ => .invalid
  | _ => .invalid

/-! ### What a header says -/

/-- The header that Bridge sends. -/
def signatureHeader (timestamp signature : List Char) : List Char :=
  't' :: '=' :: timestamp ++ ',' :: 'v' :: '0' :: '=' :: signature

theorem fields_intercalate {parts : List (List Char)} (h : ∀ part ∈ parts, ',' ∉ part)
    (hne : parts ≠ []) : fields ([','].intercalate parts) = parts.foldl field (none, none) := by
  rw [fields, List.splitOn_intercalate ',' h hne]

theorem trim_eq_self {l : List Char} (h : ∀ c ∈ l, isWhitespace c = false) :
    (trim (.ofList l)).toList = l := by
  have hdrop : ∀ {l : List Char}, (∀ c ∈ l, isWhitespace c = false) →
      l.dropWhile isWhitespace = l := by
    intro l h
    cases l with
    | nil => rfl
    | cons c l => rw [List.dropWhile_cons_of_neg (by simp [h c List.mem_cons_self])]
  rw [trim, String.toList_ofList, String.toList_ofList, hdrop h,
    hdrop fun c hc => h c (List.mem_reverse.1 hc), List.reverse_reverse]

theorem part_of_all {l : List Char} (h : l.all (fun c => c ≠ ',' && !isWhitespace c) = true) :
    ∀ c ∈ l, c ≠ ',' ∧ isWhitespace c = false := by simpa using h

/-- What Bridge sends is read back. -/
theorem fields_header {timestamp signature : List Char}
    (ht : ∀ c ∈ timestamp, c ≠ ',' ∧ isWhitespace c = false)
    (hs : ∀ c ∈ signature, c ≠ ',' ∧ isWhitespace c = false) :
    fields (signatureHeader timestamp signature) = (some timestamp, some signature) := by
  have hparts : [','].intercalate ['t' :: '=' :: timestamp, 'v' :: '0' :: '=' :: signature] =
      signatureHeader timestamp signature := by
    simp [List.intercalate, signatureHeader]
  have hsplit : ∀ v, splitOnce '=' ('t' :: '=' :: v) = some (['t'], v) := fun v => by
    simp [splitOnce]
  have hsplit₀ : ∀ v, splitOnce '=' ('v' :: '0' :: '=' :: v) = some (['v', '0'], v) := fun v => by
    simp [splitOnce]
  have htrim : (trim (.ofList ('t' :: '=' :: timestamp))).toList = 't' :: '=' :: timestamp := by
    refine trim_eq_self fun c hc => ?_
    simp only [List.mem_cons] at hc
    rcases hc with rfl | rfl | hc
    exacts [rfl, rfl, (ht c hc).2]
  have htrim₀ : (trim (.ofList ('v' :: '0' :: '=' :: signature))).toList =
      'v' :: '0' :: '=' :: signature := by
    refine trim_eq_self fun c hc => ?_
    simp only [List.mem_cons] at hc
    rcases hc with rfl | rfl | rfl | hc
    exacts [rfl, rfl, rfl, (hs c hc).2]
  rw [← hparts, fields_intercalate]
  · simp only [List.foldl_cons, List.foldl_nil, field, htrim, htrim₀, hsplit, hsplit₀]
  · intro part hpart
    simp only [List.mem_cons, List.not_mem_nil, or_false] at hpart
    rcases hpart with rfl | rfl
    · simpa using fun hc => (ht ',' hc).1 rfl
    · simpa using fun hc => (hs ',' hc).1 rfl
  · simp

/-! ### What is accepted -/

/-- A timestamp is of digits, with a sign at most, and fits. -/
theorem of_parseSigned {text : List Char} {n : ℤ} (h : parseSigned text = some n) :
    (-2 ^ 63 ≤ n ∧ n < 2 ^ 63) ∧ ∀ c ∈ text, c.isDigit = true ∨ c = '+' ∨ c = '-' := by
  have hpos : ∀ {digits}, (Decimal.parse (2 ^ 63) digits).map Int.ofNat = some n →
      (-2 ^ 63 ≤ n ∧ n < 2 ^ 63) ∧ Decimal.IsDigits digits := by
    intro digits h
    obtain ⟨k, hk, rfl⟩ := Option.map_eq_some_iff.1 h
    have hfit := (Decimal.of_parse hk).2
    exact ⟨by simp only [Int.ofNat_eq_natCast]; omega, (Decimal.of_parse hk).1⟩
  unfold parseSigned at h
  split at h
  case h_1 digits =>
    obtain ⟨k, hk, rfl⟩ := Option.map_eq_some_iff.1 h
    obtain ⟨hd, hfit⟩ := Decimal.of_parse hk
    refine ⟨by omega, List.forall_mem_cons.2 ⟨.inr (.inr rfl), fun c hc => .inl (hd c hc)⟩⟩
  case h_2 digits =>
    obtain ⟨hb, hd⟩ := hpos h
    exact ⟨hb, List.forall_mem_cons.2 ⟨.inr (.inl rfl), fun c hc => .inl (hd c hc)⟩⟩
  case h_3 =>
    obtain ⟨hb, hd⟩ := hpos h
    exact ⟨hb, fun c hc => .inl (hd c hc)⟩

/-- A difference is not seen to be too great just if it is not, or is exactly 2⁶³. -/
theorem wrapped_le_iff {now sent : ℤ} (hnow : 0 ≤ now ∧ now < 2 ^ 62)
    (hsent : -2 ^ 63 ≤ sent ∧ sent < 2 ^ 63) :
    asI64 |asI64 (now - sent)| ≤ webhookToleranceMs ↔
      |now - sent| ≤ webhookToleranceMs ∨ now - sent = 2 ^ 63 := by
  simp only [webhookToleranceMs, asI64, Int.bmod_def, abs]
  omega

variable {crypto : Crypto} {header : List Char} {body : List UInt8} {nowMs : ℤ}

/-- What is accepted: a header with a timestamp and a signature, which the RSA check accepts, sent
within ten minutes of now.  A distance of exactly 2⁶³ ms passes too, as its absolute value wraps. -/
theorem valid_iff (hnow : 0 ≤ nowMs ∧ nowMs < 2 ^ 62) :
    verifyWebhook crypto header body nowMs = .valid ↔
      ∃ t signature sentMs sig, fields header = (some t, some signature) ∧
        parseSigned t = some sentMs ∧ crypto.decode64 signature = some sig ∧
        crypto.verify (signedHash crypto t body) sig = true ∧
        (|nowMs - sentMs| ≤ webhookToleranceMs ∨ nowMs - sentMs = 2 ^ 63) := by
  constructor
  · intro h
    unfold verifyWebhook at h
    split at h
    case h_2 => cases h
    case h_1 t signature hfields =>
      split at h
      case h_2 => cases h
      case h_1 sentMs sig hsent hsig =>
        split at h
        case isTrue => cases h
        case isFalse hok =>
          split at h
          case isTrue => cases h
          case isFalse hfresh =>
            refine ⟨t, signature, sentMs, sig, hfields, hsent, hsig, by simpa using hok, ?_⟩
            exact (wrapped_le_iff hnow (of_parseSigned hsent).1).1 (not_lt.1 hfresh)
  · rintro ⟨t, signature, sentMs, sig, hfields, hsent, hsig, hok, hfresh⟩
    have hle := (wrapped_le_iff hnow (of_parseSigned hsent).1).2 hfresh
    simp [verifyWebhook, hfields, hsent, hsig, hok, not_lt.2 hle]

/-- **Which deliveries are accepted** of those in Bridge's form: the time is a 64-bit number, the
signature is base64 and the RSA check accepts it for this time and body, and the time is within ten
minutes of now (or 2⁶³ ms before). -/
theorem valid_header_iff {t signature : List Char}
    (ht : ∀ c ∈ t, c ≠ ',' ∧ isWhitespace c = false)
    (hs : ∀ c ∈ signature, c ≠ ',' ∧ isWhitespace c = false) (hnow : 0 ≤ nowMs ∧ nowMs < 2 ^ 62) :
    verifyWebhook crypto (signatureHeader t signature) body nowMs = .valid ↔
      ∃ sentMs sig, parseSigned t = some sentMs ∧ crypto.decode64 signature = some sig ∧
        crypto.verify (signedHash crypto t body) sig = true ∧
        (|nowMs - sentMs| ≤ webhookToleranceMs ∨ nowMs - sentMs = 2 ^ 63) := by
  rw [valid_iff hnow, fields_header ht hs]
  constructor
  · rintro ⟨t', signature', sentMs, sig, hfields, h⟩
    cases hfields
    exact ⟨sentMs, sig, h⟩
  · rintro ⟨sentMs, sig, h⟩
    exact ⟨t, signature, sentMs, sig, rfl, h⟩

/-- The body of a deposit of a dollar. -/
def depositBody : List UInt8 :=
  asBytes "\x7b\"event_id\":\"e\",\"event_category\":\"virtual_account.activity\",".toList ++
    asBytes "\"event_object\":\x7b\"id\":\"a\",\"type\":\"payment_processed\",".toList ++
    asBytes "\"virtual_account_id\":\"account\",\"amount\":\"1.00\",".toList ++
    asBytes "\"deposit_id\":\"deposit\"\x7d\x7d".toList

/-- The digest of the body, signed at 1000 ms. -/
def depositDigest : List UInt8 :=
  [175, 224, 65, 187, 33, 165, 48, 63, 139, 188, 244, 9, 187, 88, 60, 14, 147, 160, 35, 215, 229,
    121, 160, 76, 107, 142, 161, 236, 72, 182, 100, 24]

/-- The digest of the digest. -/
def depositHash : List UInt8 :=
  [40, 16, 122, 221, 182, 223, 116, 29, 219, 105, 134, 3, 44, 181, 157, 120, 4, 179, 184, 186,
    27, 28, 246, 118, 217, 17, 2, 99, 221, 144, 190, 33]

/-- Its signature: 256 bytes in base64. -/
def depositSignature : List Char :=
  "i5nNpcMTIF1s+h2C01UBH3EEARyCoXgewecdCLe8gIV".toList ++
    "VFbNuM1yghTU6cJTwO/mJHMQpDPpXSYnZ9ZjH8JfpLG".toList ++
    "iRdaHnoQf1cbTWL27Mq2AltDCbqbNjhhmQ/Ah7XmZVQ".toList ++
    "GrqE5X5XHeqZJEKXx/zok00dAGLKD2+BZFBg5bmCWui".toList ++
    "EKCiW7DStDxMHO7eMG0VOOvL2nS6csatMtFtpe4T2WP".toList ++
    "z1zYzRkou5U9KHtK39WNslJYG7tofphiT4SUXAFBng8".toList ++
    "Bu6D2FosgPAHu53aS1X52GOIHfVXqaAFL1veaVcs6As".toList ++
    "G+GJYVORbihM/2sIzCTYLU8glGa1tKi+WgaWm+ZFA==".toList

/-- The six bits of a base64 character. -/
def sextet (c : Char) : Option ℕ :=
  if c.isUpper then some (c.toNat - 'A'.toNat)
  else if c.isLower then some (c.toNat - 'a'.toNat + 26)
  else if c.isDigit then some (c.toNat - '0'.toNat + 52)
  else if c = '+' then some 62
  else if c = '/' then some 63
  else none

/-- The bytes of a base64 text. -/
def base64 : List Char → Option (List UInt8)
  | [] => some []
  | [a, b, '=', '='] => do
    let n := 64 * (← sextet a) + (← sextet b)
    return [(n / 16).toUInt8]
  | [a, b, c, '='] => do
    let n := 64 * (64 * (← sextet a) + (← sextet b)) + (← sextet c)
    return [(n / 1024).toUInt8, (n / 4).toUInt8]
  | a :: b :: c :: d :: text => do
    let n := 64 * (64 * (64 * (← sextet a) + (← sextet b)) + (← sextet c)) + (← sextet d)
    return (n / 65536).toUInt8 :: (n / 256).toUInt8 :: n.toUInt8 :: (← base64 text)
  | _ => none

/-- The bytes of the signature. -/
def depositRsa : List UInt8 := (base64 depositSignature).getD []

/-- SHA-256 and the RSA check, of what is needed here, and base64. -/
def depositCrypto : Crypto where
  sha256 text := if text = signedText "1000".toList depositBody then depositDigest
    else if text = depositDigest then depositHash else []
  decode64 := base64
  verify digest sig := digest = depositHash && sig = depositRsa

theorem part_depositSignature : ∀ c ∈ depositSignature, c ≠ ',' ∧ isWhitespace c = false :=
  part_of_all (by decide +kernel)

theorem decode64_depositSignature :
    depositCrypto.decode64 depositSignature = some depositRsa := by
  have h : (base64 depositSignature).isSome = true := by decide +kernel
  obtain ⟨sig, hsig⟩ := Option.isSome_iff_exists.1 h
  show base64 depositSignature = _
  rw [depositRsa, hsig]
  rfl

theorem verify_depositRsa {digest : List UInt8} :
    depositCrypto.verify digest depositRsa = true ↔ digest = depositHash := by
  simp [depositCrypto]

theorem signedHash_depositBody :
    signedHash depositCrypto "1000".toList depositBody = depositHash := by decide +kernel

/-- Ten minutes later the delivery of the body is still accepted. -/
theorem valid_header_of_deposit :
    verifyWebhook depositCrypto (signatureHeader "1000".toList depositSignature)
      depositBody 601000 = .valid :=
  (valid_header_iff (part_of_all (by decide)) part_depositSignature (by decide)).2
    ⟨1000, depositRsa, by decide +kernel, decode64_depositSignature,
      verify_depositRsa.2 signedHash_depositBody, .inl (by decide)⟩

end Bridge

end Kimana
