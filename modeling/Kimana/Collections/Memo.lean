import Kimana.Collections.Request

/-!
# Quoted references

A deposit's memo is searched for the request it is for, and only the first match of the pattern is
looked at.

* `scanReference_eq_some_iff` : the scan finds the first reference of a text.
* `receiveBridge_alone` : a deposit whose memo yields an open request's reference pays that request.
* `credited_iff` : **the request a memo quotes is found and paid when its reference is the first
  word of the memo that has the shape of a reference**, and only then.
-/

namespace Kimana.Collections

open ReadCommitted Util Table

/-! ### References in a text -/

/-- The random part of a reference. -/
def IsBody (body : List Char) : Prop := body.length = 6 ∧ ∀ c ∈ body, isReferenceChar c = true

/-- A word spells the reference with the random part `body`: in any letter case, with or without
the hyphen. -/
def Spells (word body : List Char) : Prop :=
  IsBody body ∧ (toAsciiUppercase word = 'C' :: 'L' :: '-' :: body ∨
    toAsciiUppercase word = 'C' :: 'L' :: body)

/-- After `n` characters of a text a reference stands as a whole word.  `inWord` tells whether a
word character precedes the text. -/
def Quotes (isWord : Char → Bool) (inWord : Bool) (text body : List Char) (n : ℕ) : Prop :=
  ∃ pre word post, text = pre ++ word ++ post ∧ pre.length = n ∧ Spells word body ∧
    (pre.getLast?.map isWord).getD inWord = false ∧ (post.head?.map isWord).getD false = false

/-- The first reference of a text is the one with the random part `body`. -/
def QuotesFirst (isWord : Char → Bool) (inWord : Bool) (text body : List Char) : Prop :=
  ∃ n, Quotes isWord inWord text body n ∧ ∀ m < n, ∀ b, ¬ Quotes isWord inWord text b m

theorem isReferenceChar_ne_hyphen {c : Char} (h : isReferenceChar c = true) : c ≠ '-' := by
  rintro rfl
  exact absurd h (by decide)

/-- What is read at the start of a text. -/
theorem referenceAt_eq_some_iff {isWord : Char → Bool} {text body : List Char} :
    referenceAt isWord text = some body ↔ ∃ post, IsBody body ∧
      (text = 'C' :: 'L' :: '-' :: body ++ post ∨ text = 'C' :: 'L' :: body ++ post) ∧
      (post.head?.map isWord).getD false = false := by
  constructor
  · intro h
    unfold referenceAt at h
    split at h
    case h_2 => cases h
    case h_1 rest =>
    -- With or without the hyphen the six characters are read in the same way.
    have hread : ∀ r : List Char, (if (r.take 6).length = 6 && (r.take 6).all isReferenceChar &&
        ((r.drop 6).head?.map isWord) ≠ some true then some (r.take 6) else none) = some body →
        ∃ post, IsBody body ∧ r = body ++ post ∧ (post.head?.map isWord).getD false = false := by
      intro r hr
      split at hr
      case isFalse => cases hr
      case isTrue hb =>
        obtain rfl := Option.some.inj hr
        simp only [Bool.and_eq_true, decide_eq_true_eq, List.all_eq_true, ne_eq] at hb
        refine ⟨r.drop 6, ⟨hb.1.1, hb.1.2⟩, (List.take_append_drop 6 r).symm, ?_⟩
        have hword := hb.2
        cases hx : (r.drop 6).head?.map isWord with
        | none => rfl
        | some b =>
          rw [hx] at hword
          simpa using hword
    dsimp only at h
    split at h
    case h_1 r =>
      obtain ⟨post, hb, rfl, hp⟩ := hread r h
      exact ⟨post, hb, .inl rfl, hp⟩
    case h_2 r _ =>
      obtain ⟨post, hb, rfl, hp⟩ := hread _ h
      exact ⟨post, hb, .inr rfl, hp⟩
  · rintro ⟨post, ⟨hl, hc⟩, ht, hp⟩
    have hread : (if ((body ++ post).take 6).length = 6 &&
        ((body ++ post).take 6).all isReferenceChar &&
        (((body ++ post).drop 6).head?.map isWord) ≠ some true then
        some ((body ++ post).take 6) else none) = some body := by
      rw [List.take_left' hl, List.drop_left' hl, if_pos]
      simp only [Bool.and_eq_true, decide_eq_true_eq, List.all_eq_true, ne_eq]
      refine ⟨⟨hl, hc⟩, fun he => ?_⟩
      rw [he] at hp
      cases hp
    rcases ht with rfl | rfl
    · exact hread
    · obtain ⟨c, body, rfl⟩ := List.exists_cons_of_length_eq_add_one hl
      -- The hyphen is optional, and no body begins with one.
      have hne : c ≠ '-' := isReferenceChar_ne_hyphen (hc c List.mem_cons_self)
      simp only [referenceAt, List.cons_append] at hread ⊢
      split
      case h_1 r he => exact absurd (List.cons.inj he).1 hne
      case h_2 => exact hread

variable {isWord : Char → Bool}

/-- A reference at the start of a text. -/
theorem quotes_zero (hup : ∀ c, isWord c.toUpper = isWord c) {inWord : Bool}
    {text body : List Char} :
    Quotes isWord inWord text body 0 ↔
      inWord = false ∧ referenceAt isWord (toAsciiUppercase text) = some body := by
  have hhead : ∀ post : List Char, (toAsciiUppercase post).head?.map isWord =
    post.head?.map isWord := by
    intro post
    cases post <;> simp [toAsciiUppercase, hup]
  rw [referenceAt_eq_some_iff]
  constructor
  · rintro ⟨pre, word, post, rfl, hl, ⟨hb, hs⟩, hpre, hpost⟩
    obtain rfl := List.length_eq_zero_iff.1 hl
    refine ⟨hpre, toAsciiUppercase post, hb, ?_, by rwa [hhead]⟩
    have happ : toAsciiUppercase ([] ++ word ++ post) = toAsciiUppercase word ++
      toAsciiUppercase post := by
      simp [toAsciiUppercase]
    rw [happ]
    exact hs.imp (fun h => by rw [h]) fun h => by rw [h]
  · rintro ⟨hin, post, hb, ht, hpost⟩
    have hsplit : ∀ w : List Char, toAsciiUppercase text = w ++ post → ∃ word p, text = word ++ p ∧
        toAsciiUppercase word = w ∧ toAsciiUppercase p = post := by
      intro w hw
      obtain ⟨x, y, rfl, hx, hy⟩ := List.map_eq_append_iff.1 hw
      exact ⟨x, y, rfl, hx, hy⟩
    rcases ht with ht | ht
    · obtain ⟨word, p, rfl, hw, rfl⟩ := hsplit _ ht
      exact ⟨[], word, p, rfl, rfl, ⟨hb, .inl hw⟩, hin, by rwa [← hhead]⟩
    · obtain ⟨word, p, rfl, hw, rfl⟩ := hsplit _ ht
      exact ⟨[], word, p, rfl, rfl, ⟨hb, .inr hw⟩, hin, by rwa [← hhead]⟩

/-- A reference further on. -/
theorem quotes_succ {inWord : Bool} {c : Char} {text body : List Char} {n : ℕ} :
    Quotes isWord inWord (c :: text) body (n + 1) ↔ Quotes isWord (isWord c) text body n := by
  have hlast : ∀ pre : List Char, ((c :: pre).getLast?.map isWord).getD inWord =
      (pre.getLast?.map isWord).getD (isWord c) := by
    intro pre
    rw [List.getLast?_cons]
    cases pre.getLast? <;> rfl
  constructor
  · rintro ⟨pre, word, post, ht, hl, hs, hpre, hpost⟩
    cases pre with
    | nil => cases hl
    | cons a pre =>
      obtain ⟨rfl, rfl⟩ := List.cons.inj ht
      exact ⟨pre, word, post, rfl, Nat.succ.inj hl, hs, hlast pre ▸ hpre, hpost⟩
  · rintro ⟨pre, word, post, rfl, rfl, hs, hpre, hpost⟩
    exact ⟨c :: pre, word, post, rfl, rfl, hs, (hlast pre).trans hpre, hpost⟩

theorem not_quotes_nil {inWord : Bool} {body : List Char} {n : ℕ} :
    ¬ Quotes isWord inWord [] body n := by
  rintro ⟨pre, word, post, ht, -, ⟨-, hs⟩, -⟩
  obtain ⟨hpw, rfl⟩ := List.append_eq_nil_iff.1 ht.symm
  obtain ⟨rfl, rfl⟩ := List.append_eq_nil_iff.1 hpw
  simp [toAsciiUppercase] at hs

/-- The scan finds the first reference. -/
theorem scanReference_eq_some_iff (hup : ∀ c, isWord c.toUpper = isWord c) {inWord : Bool}
    {text body : List Char} : scanReference isWord inWord (toAsciiUppercase text) = some body ↔
      QuotesFirst isWord inWord text body := by
  induction text generalizing inWord with
  | nil =>
    refine ⟨fun h => (by cases h), ?_⟩
    rintro ⟨n, hq, -⟩
    exact absurd hq not_quotes_nil
  | cons c text ih =>
    -- The scan reads at the first character unless that is inside a word, and goes on behind it.
    have hstep : scanReference isWord inWord (toAsciiUppercase (c :: text)) =
        (if inWord then none else referenceAt isWord (toAsciiUppercase (c :: text))).or
          (scanReference isWord (isWord c) (toAsciiUppercase text)) := by
      rw [← hup c]
      simp only [toAsciiUppercase, List.map_cons, scanReference]
      cases if inWord then none else referenceAt isWord (c.toUpper :: text.map Char.toUpper) <;> rfl
    rw [hstep]
    cases hread : (if inWord then none else referenceAt isWord (toAsciiUppercase (c :: text)))
    case some b =>
      have hb : Quotes isWord inWord (c :: text) b 0 := by
        rw [quotes_zero hup]
        cases inWord <;> simp_all
      constructor
      · intro h
        obtain rfl := Option.some.inj h
        exact ⟨0, hb, by simp⟩
      · rintro ⟨n, hq, hfirst⟩
        cases n with
        | zero =>
          have h₁ := ((quotes_zero hup).1 hb).2
          have h₂ := ((quotes_zero hup).1 hq).2
          exact h₁.symm.trans h₂
        | succ n => exact absurd hb (hfirst 0 n.succ_pos b)
    case none =>
      have hnone : ∀ b, ¬ Quotes isWord inWord (c :: text) b 0 := by
        intro b hb
        obtain ⟨rfl, hr⟩ := (quotes_zero hup).1 hb
        simp [hr] at hread
      rw [Option.none_or, ih]
      constructor
      · rintro ⟨n, hq, hfirst⟩
        refine ⟨n + 1, quotes_succ.2 hq, fun m hm b hb => ?_⟩
        cases m with
        | zero => exact hnone b hb
        | succ m => exact hfirst m (Nat.lt_of_succ_lt_succ hm) b (quotes_succ.1 hb)
      · rintro ⟨n, hq, hfirst⟩
        cases n with
        | zero => exact absurd hq (hnone body)
        | succ n =>
          exact ⟨n, quotes_succ.1 hq, fun m hm b hb =>
            hfirst (m + 1) (Nat.succ_lt_succ hm) b (quotes_succ.2 hb)⟩

/-! ### Paying the quoted request -/

/-- The delivery of a Bridge deposit. -/
structure Deposit (state : AppState) (d : World) (w : BridgeDelivery) (v : VirtualAccountRow)
    (text : String) : Prop where
  configured : state.bridgeWebhookKey = true
  checked : w.check = .valid
  brings : ∃ event activity cents, w.event = some event ∧
    event.category = "virtual_account.activity" ∧ event.activity = some activity ∧
    activity.kind = "payment_processed" ∧
    d.virtualAccounts.find? (fun v => v.virtualAccountId = activity.virtualAccountId) = some v ∧
    dollarsToCents activity.amount = some cents ∧ 0 < cents ∧ activity.description = some text ∧
    d.paymentByKey bridgeName (activity.depositId.getD activity.id) = none

/-- A text of the activity that is bound in a statement has a zero character. -/
def Activity.hasNul (a : Activity) : Bool :=
  Kimana.hasNul a.virtualAccountId || Kimana.hasNul (a.depositId.getD a.id) ||
    a.senderName.any Kimana.hasNul || a.description.any Kimana.hasNul

/-- A text that a delivery brings, or its body, has a zero character. -/
def BridgeDelivery.hasNul (w : BridgeDelivery) : Bool :=
  w.event.any fun e => e.activity.any Activity.hasNul || e.raw.hasNul

/-- An open Bridge request of a customer; references are unique. -/
structure OpenRequest (d : World) (customerId : Uuid) (c : CollectionRow) (body : List Char) :
    Prop where
  due : Due false d customerId c d.clock
  provider : c.provider = bridgeName
  reference : c.reference = taggedReference "CL" (.ofList body)
  unique : ∀ x ∈ d.collections, x.reference = c.reference → x = c

/-- A sum is read when 64 bits hold it. -/
theorem alone_toBigint {A : Type} (n : ℤ) (f : ℤ → Tx A) (d : World) (ws : List Write) :
    (Prog.bind (Ledger.toBigint n) f).alone d ws =
      if FitsI64 n then (f n).alone d ws else (.error .serverError, d) := by
  unfold Ledger.toBigint
  split <;> rfl

/-- A payment of an open request, applied alone, pays that request and no other, if 64 bits hold the
balance before it and no text has a zero character; otherwise it fails. -/
theorem applyInbound_alone {d : World} (hwf : Wf d) {p : Inbound} {c : CollectionRow}
    (hp : p.collectionId = some c.id) (hpos : 0 < p.amountMinor)
    (hdue : Due false d p.customerId c d.clock)
    (hnew : d.paymentByKey p.provider p.providerPaymentId = none) :
    if p.hasNul = false ∧ FitsI64 (d.funds p.customerId (.fiat p.currency)) then
      ∃ d', (applyInbound p).alone d [] = (.ok true, d') ∧
        d'.collections = updateWhere (·.id = c.id) (·.asPaid d.clock) d.collections
    else ∃ e d', (applyInbound p).alone d [] = (.error e, d') := by
  have hsettles : (Option.filter p.settles (some ⟨c, derivedStatus c d.clock, none⟩)) =
      some ⟨c, derivedStatus c d.clock, none⟩ := by
    rw [Option.filter_some, if_pos]
    simp [Inbound.settles, hdue.customer, hdue.opened.resolve_right (by decide)]
  have hfound := hdue.found
  have hunpaid := hdue.unpaid
  have hnot : decide (p.amountMinor ≤ 0) = false := decide_eq_false (by omega)
  have hacc : ∀ row, (applyAll ([] ++ [Write.insertInbound row]) (bump d)).accountOf p.customerId
      (.fiat p.currency) = d.accountOf p.customerId (.fiat p.currency) := fun _ => rfl
  simp only [applyInbound, begin, settled, hp, findById, selectById_world, insertInbound, Tx.read,
    Tx.query, Tx.lock, Tx.fresh, Tx.write, Tx.commit, Prog.bind_eq, Prog.pure_eq, Prog.bind,
    Prog.alone, applyAll_nil, hfound, hunpaid, Option.map_some, hsettles, hnot, Bool.false_or]
  cases hnul : p.hasNul with
  | true => exact ⟨_, _, rfl⟩
  | false =>
  simp only [if_false, applyAll_nil, hnew, Option.isSome_none, Bool.false_eq_true,
    Ledger.getOrCreateAccount, Ledger.getOrCreateAccountByCode, hacc, Ledger.postInboundEntry,
    Ledger.appendEntry, Ledger.accountBalanceMinor, markPaid, Prog.bind, Prog.alone, Tx.read,
    Tx.lock, Tx.fresh, Tx.write, Prog.bind_eq, Prog.pure_eq, true_and, World.funds]
  cases hnone : d.accountOf p.customerId (.fiat p.currency) with
  | some id =>
    simp only [Prog.bind, Prog.alone, Prog.bind_assoc, alone_toBigint]
    have hbal : ∀ row, (applyAll ([] ++ [Write.insertInbound row]) (bump d)).balance id =
      d.balance id := fun _ => rfl
    simp only [hbal, Option.map_some, Option.getD_some]
    split
    case isTrue => exact ⟨_, rfl, rfl⟩
    case isFalse => exact ⟨_, _, rfl⟩
  | none =>
    simp only [Prog.bind, Prog.alone, hacc, hnone, Option.isSome_none, Bool.false_eq_true, if_false,
      Prog.bind_assoc, alone_toBigint]
    have hbal : ∀ row account, (applyAll ([] ++ [Write.insertInbound row] ++
        [Write.insertAccount account]) (bump (bump d))).balance (seq (bump d)) = 0 := fun _ _ =>
      hwf.balance_of_unused (Nat.le_succ _)
    have hzero : FitsI64 0 := by decide
    simp only [hbal, Option.map_none, Option.getD_none, hzero, if_true]
    exact ⟨_, rfl, rfl⟩

/-- A deposit whose memo yields the reference of an open request pays that request and no other, if
64 bits hold the balance before it and no text has a zero character; otherwise it fails. -/
theorem receiveBridge_alone {state : AppState} {d : World} (hwf : Wf d) {w : BridgeDelivery}
    {v : VirtualAccountRow} {text : String} {c : CollectionRow} {body : List Char}
    (hd : Deposit state d w v text) (hc : OpenRequest d v.customerId c body)
    (hfind : findReference state.isWord text = some c.reference) :
    (∃ d', (receiveBridge state w).alone d [] = (.ok ⟨true, false⟩, d') ∧
      d'.collections = updateWhere (·.id = c.id) (·.asPaid d.clock) d.collections) ↔
      w.hasNul = false ∧ FitsI64 (d.funds v.customerId (.fiat .usd)) := by
  obtain ⟨event, activity, cents, he, hcat, hact, hkind, hv, hamount, hpos, hmemo, hnew⟩ :=
    hd.brings
  have hquoted : (d.collections.find? fun x => x.reference = c.reference &&
      x.customerId = v.customerId && x.provider = bridgeName) = some c := by
    have hmem : c ∈ d.collections := List.mem_of_find?_eq_some hc.due.found
    have hsome : (d.collections.find? fun x => x.reference = c.reference &&
        x.customerId = v.customerId && x.provider = bridgeName).isSome :=
      List.find?_isSome.2 ⟨c, hmem, by simp [hc.due.customer, hc.provider]⟩
    obtain ⟨x, hx⟩ := Option.isSome_iff_exists.1 hsome
    have hp := List.find?_some hx
    simp only [Bool.and_eq_true, decide_eq_true_eq] at hp
    rw [hx, hc.unique x (List.mem_of_find?_eq_some hx) hp.1.1]
  have hfilter : (some cents).filter (fun c => decide (0 < c)) = some cents := by
    simp [hpos]
  have hwnul : w.hasNul = (activity.hasNul || event.raw.hasNul) := by
    rw [BridgeDelivery.hasNul, he, Option.any_some, hact, Option.any_some]
  simp only [receiveBridge, hd.configured, hd.checked, he, hcat, hact, hkind, Tx.query,
    Prog.bind_eq, Prog.pure_eq, Prog.bind, Bool.not_true, if_false, Bool.false_eq_true, ne_eq,
    not_true_eq_false]
  cases hvnul : hasNul activity.virtualAccountId with
  | true =>
    refine iff_of_false ?_ fun hstore => ?_
    · rintro ⟨d', hrun, -⟩
      cases hrun
    · simp [hwnul, Activity.hasNul, hvnul] at hstore
  | false =>
  simp only [hmemo, quotedRequest, Option.bind_some, hfind, Tx.query, Prog.bind_eq, Prog.pure_eq,
    Prog.bind, Prog.alone, hv, hamount, hfilter, hquoted, Option.map_some, Bool.false_eq_true,
    if_false, Prog.alone_bind_ret]
  let p : Inbound := ⟨v.customerId, some c.id, false, bridgeName,
    activity.depositId.getD activity.id, cents, .usd, activity.senderName, some text,
    activity.createdAt.getD d.clock, event.raw⟩
  have hpnul : p.hasNul = w.hasNul := by
    rw [hwnul, Activity.hasNul, hvnul, hmemo]
    simp only [Inbound.hasNul, p, Bool.false_or]
  have hrun := applyInbound_alone hwf (p := p) rfl hpos hc.due hnew
  rw [hpnul] at hrun
  split at hrun
  case isTrue hgood =>
    obtain ⟨d', hrun, hpaid⟩ := hrun
    exact iff_of_true ⟨d', by rw [hrun]; rfl, hpaid⟩ hgood
  case isFalse hbad =>
    obtain ⟨e, d', hrun⟩ := hrun
    refine iff_of_false ?_ hbad
    rintro ⟨d'', hok, -⟩
    rw [hrun] at hok
    cases hok

/-- Only the ASCII letters have another upper case. -/
theorem toUpper_eq_or_isAlpha (c : Char) : c.toUpper = c ∨ c.isAlpha ∧ c.toUpper.isAlpha := by
  unfold Char.toUpper
  split
  case isFalse => exact .inl rfl
  case isTrue h =>
    refine .inr ⟨?_, ?_⟩
    · have hlower : c.isLower :=
        Bool.and_eq_true_iff.2 ⟨decide_eq_true h.1, decide_eq_true h.2⟩
      exact Bool.or_eq_true_iff.2 (.inr hlower)
    · refine Bool.or_eq_true_iff.2 (.inl (decide_eq_true ?_))
      simp only [UInt32.le_iff_toNat_le, ge_iff_le, UInt32.toNat_add] at h ⊢
      have : ('a'.val).toNat = 97 := rfl
      have : ('z'.val).toNat = 122 := rfl
      have : ('A'.val).toNat = 65 := rfl
      have : ('Z'.val).toNat = 90 := rfl
      have : ('A'.val - 'a'.val).toNat = 2 ^ 32 - 32 := rfl
      omega

/-- Upper case does not move the boundaries of words. -/
theorem isWord_toUpper {isWord : Char → Bool} (hword : ∀ c, c.isAlpha → isWord c) (c : Char) :
    isWord c.toUpper = isWord c := by
  rcases toUpper_eq_or_isAlpha c with h | ⟨h, h'⟩
  · rw [h]
  · rw [hword _ h, hword _ h']

/-- The reference that a text is found to quote is its first. -/
theorem findReference_eq_some_iff {isWord : Char → Bool} (hword : ∀ c, c.isAlpha → isWord c)
    {text : String} {body : List Char} :
    findReference isWord text = some (taggedReference "CL" (.ofList body)) ↔
      QuotesFirst isWord false text.toList body := by
  rw [← scanReference_eq_some_iff (isWord_toUpper hword), findReference]
  have htag : taggedReference "CL" (.ofList body) = "CL-" ++ .ofList body := rfl
  rw [htag]
  cases scanReference isWord false (toAsciiUppercase text.toList) with
  | none => simp
  | some b => simp [String.ofList_inj]

/-- **Quoted references**: a deposit whose memo quotes an open request finds and pays that request
exactly when no other word of the memo that has the shape of a reference comes before it, no text of
the delivery has a zero character, and 64 bits hold the customer's balance. -/
theorem credited_iff {state : AppState} (hword : ∀ c, c.isAlpha → state.isWord c) {d : World}
    (hwf : Wf d) {w : BridgeDelivery} {v : VirtualAccountRow} {text : String} {c : CollectionRow}
    {body : List Char} (hd : Deposit state d w v text) (hc : OpenRequest d v.customerId c body) :
    (findReference state.isWord text = some c.reference ∧
      ∃ d', (receiveBridge state w).alone d [] = (.ok ⟨true, false⟩, d') ∧
        d'.collections = updateWhere (·.id = c.id) (·.asPaid d.clock) d.collections) ↔
      QuotesFirst state.isWord false text.toList body ∧ w.hasNul = false ∧
        FitsI64 (d.funds v.customerId (.fiat .usd)) := by
  rw [← findReference_eq_some_iff hword, ← hc.reference]
  exact and_congr_right fun hfind => receiveBridge_alone hwf hd hc hfind

/-! ### A word before the reference -/

/-- A Bridge request of the customer. -/
def memoRequest : CollectionRow := { sampleRequest with currency := .usd, provider := bridgeName }

/-- The database with the request. -/
def memoWorld : World :=
  { sampleWorld "NG" with collections := [memoRequest], virtualAccounts := [⟨1, "account"⟩] }

/-- A deposit with a memo. -/
def memoDelivery (memo : String) : BridgeDelivery :=
  { check := .valid
    event := some
      { category := "virtual_account.activity"
        activity := some ⟨"event", "payment_processed", "account", "1.00", some "deposit",
          none, none, some memo⟩
        raw := [] } }

theorem openRequest_memoWorld : OpenRequest memoWorld 1 memoRequest "2H4F9K".toList where
  due := ⟨rfl, rfl, rfl, .inl (by decide)⟩
  provider := rfl
  reference := by decide
  unique x hx _ := List.mem_singleton.1 hx

theorem deposit_memoDelivery (memo : String) :
    Deposit (sampleState false) memoWorld (memoDelivery memo) ⟨1, "account"⟩ memo :=
  ⟨rfl, rfl, _, _, 100, rfl, rfl, rfl, rfl, rfl,
    show dollarsToCents "1.00" = some 100 by decide, by decide, rfl, rfl⟩

theorem wf_memoWorld : Wf memoWorld :=
  { wf_sampleWorld "NG" with below := fun n hn => { (wf_sampleWorld "NG").below n hn with } }

/-- The reference after another word, in lower case and without its hyphen. -/
theorem credited_invoice :
    findReference Char.isAlphanum "Invoice 114, cl2h4f9k" = some "CL-2H4F9K" ∧
    ∃ d', (receiveBridge (sampleState false) (memoDelivery "Invoice 114, cl2h4f9k")).alone memoWorld
      [] = (.ok ⟨true, false⟩, d') ∧
      d'.collections = updateWhere (·.id = 5) (·.asPaid 0) memoWorld.collections := by
  have hword : ∀ c, c.isAlpha → (sampleState false).isWord c := by
    intro c h
    simp [sampleState, Char.isAlphanum, h]
  exact (credited_iff hword wf_memoWorld (deposit_memoDelivery _) openRequest_memoWorld).2
    ⟨(findReference_eq_some_iff hword).1 (by decide +kernel), by decide, by decide⟩

/-- "Clothing" has the shape of a reference: the request whose reference follows stays open. -/
theorem uncredited_clothing :
    Quotes Char.isAlphanum false "Clothing CL-2H4F9K".toList "2H4F9K".toList 9 ∧
      OpenRequest memoWorld 1 memoRequest "2H4F9K".toList ∧
      Deposit (sampleState false) memoWorld (memoDelivery "Clothing CL-2H4F9K") ⟨1, "account"⟩
        "Clothing CL-2H4F9K" ∧
      findReference Char.isAlphanum "Clothing CL-2H4F9K" = some "CL-OTHING" ∧
      ((receiveBridge (sampleState false) (memoDelivery "Clothing CL-2H4F9K")).alone memoWorld
        []).2.collections = [memoRequest] := by
  refine ⟨?_, openRequest_memoWorld, deposit_memoDelivery _, by decide +kernel, by decide +kernel⟩
  exact ⟨"Clothing ".toList, "CL-2H4F9K".toList, [], by decide, by decide,
    ⟨⟨by decide, List.all_eq_true.1 (by decide)⟩, .inl (by decide)⟩, by decide, rfl⟩

end Kimana.Collections
