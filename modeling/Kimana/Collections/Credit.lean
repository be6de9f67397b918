import Kimana.Op.Effect

/-!
# Inbound money is credited once

The inbound entries of the ledger are, one for one, the credits of the recorded payments.

* `Credited` : that correspondence, in brief.
* `credit_of_payment`, `payment_of_credit`, `sum_credits` : what it says of one payment, one entry
  and one account.
* `credited_of_reach` : **inbound money**: it holds in every reachable state, and the answer to a
  delivery tells whether its own commit was the one that recorded the payment.
-/

namespace Kimana.Collections

open ReadCommitted Table Engine

/-- The entry is the credit of a payment. -/
def isCredit (e : LedgerEntry) : Bool :=
  match e.source with
  | .inboundPayment _ => true
  | _ => false

/-- The inbound entries are the credits of the recorded payments. -/
def Credited (d : World) : Prop :=
  (d.ledger.map .strip).filter isCredit = d.inbound.map creditEntry

theorem isCredit_strip (e : LedgerEntry) : isCredit e.strip = isCredit e := rfl

/-! ### One commit -/

/-- A commit adds as many credits as payments. -/
theorem credits_brief {A : Assumed} {op : Op} {d : World} {ws : List Write}
    (h : op.Commits A d ws) :
    ((brief ws).filterMap Write.entry).filter isCredit =
      ((brief ws).filterMap Write.payment).map creditEntry := by
  have hpath : ∀ {t steps tail}, Moves d ws t steps tail →
      (tail = [] ∨ ∃ ev, tail = [.insertEvent ev]) →
      ((brief ws).filterMap Write.entry).filter isCredit =
        ((brief ws).filterMap Write.payment).map creditEntry := fun hm ht => by
    have hnone : (brief ws).filterMap Write.payment = [] :=
      hm.filterMap ht (fun _ => rfl) (fun _ => rfl) (fun _ _ _ => rfl) (fun _ => rfl) fun _ => rfl
    rw [hnone, List.map_nil, List.filter_eq_nil_iff]
    exact fun e he => by simp [isCredit, hm.source ht e he]
  cases op with
  | executeTrade =>
    obtain ⟨row, -, ht⟩ := h
    rw [ht.brief]
    simp only [SettlementWallet.tradeEntries, Ledger.posted]
    rfl
  | cancelCollection state session id answer =>
    have hb : brief ws = [.cancelCollection id 0] := h.1
    rw [hb]
    rfl
  | applyInbound | receiveYellowcard | receiveBridge =>
    obtain ⟨row, -, hb⟩ := h
    rw [hb]
    cases row.collectionId <;> rfl
  | _ =>
    cases h.kind with
    | path hm htail => exact hpath hm htail
    | create hop hc => rw [hc.brief]; rfl
    | apart ha =>
      first
        | (obtain ⟨t, steps, -, hm, -⟩ := h; exact hpath hm (.inl rfl))
        | (obtain ⟨_, _, _, _, hc⟩ | ⟨_, t, steps, -, hm, -⟩ := h
           · rw [hc.brief]; rfl
           · exact hpath hm (.inl rfl))
        | (obtain ⟨_, _, _, _, _, _, t, steps, hr⟩ | ⟨_, _, rfl⟩ := h
           · exact hpath hr.moves (.inr ⟨_, rfl⟩)
           · rfl)

theorem Credited.commit {A : Assumed} {op : Op} {d : World} {ws : List Write} (h : Credited d)
    (hk : op.Commits A d ws) : Credited (applyAll ws d) := by
  have hb := credits_brief hk
  rw [entries_brief, payments_brief] at hb
  rw [Credited, ledger_applyAll, inbound_applyAll, List.map_append, List.filter_append, hb, h,
    List.map_append]

/-! ### What it says -/

section Facts

variable {d : World}

/-- A payment has exactly one entry, of its customer, currency and amount. -/
theorem credit_of_payment (hwf : Wf d) (h : Credited d) {p : InboundPayment} (hp : p ∈ d.inbound) :
    ∃ e, (d.ledger.filter fun e => e.source = .inboundPayment p.id) = [e] ∧
      e.amountMinor = p.amountMinor ∧
        ⟨e.accountId, p.customerId, .fiat p.currency⟩ ∈ d.accounts := by
  have hone : (d.ledger.filter fun e => e.source = .inboundPayment p.id).map .strip =
      [creditEntry p] := by
    have hsub : (d.ledger.filter fun e => e.source = .inboundPayment p.id).map .strip =
        ((d.ledger.map .strip).filter isCredit).filter
          fun e => e.source = .inboundPayment p.id := by
      rw [List.filter_filter, List.filter_map]
      congr 1
      refine List.filter_congr fun e _ => ?_
      by_cases hs : e.source = .inboundPayment p.id <;> simp [isCredit, LedgerEntry.strip, hs]
    rw [hsub, h, List.filter_map]
    have := filter_of_nodup_map hwf.paymentIds hp
    simp only [Function.comp_def, creditEntry, Ledger.posted, EntrySource.inboundPayment.injEq]
    rw [this]
    rfl
  obtain ⟨e, he, hs⟩ := List.map_eq_singleton_iff.1 hone
  have hmem := List.mem_filter.1 (he ▸ List.mem_singleton_self e)
  obtain ⟨a, ha, hid, hcur, ho⟩ := hwf.entries e hmem.1
  rw [of_decide_eq_true hmem.2] at ho
  obtain ⟨p', hp', hpid, hcust⟩ := ho
  obtain rfl : p' = p := of_nodup_map hwf.paymentIds hp' hp hpid
  have hamount : e.amountMinor = p'.amountMinor := (congrArg LedgerEntry.amountMinor hs :)
  have hcurrency : e.currency = .fiat p'.currency := (congrArg LedgerEntry.currency hs :)
  refine ⟨e, he, hamount, ?_⟩
  rw [← hid, hcust, ← hcurrency, ← hcur]
  exact ha

/-- An inbound entry is the credit of a payment. -/
theorem payment_of_credit (h : Credited d) {e : LedgerEntry} (he : e ∈ d.ledger) {id : Uuid}
    (hs : e.source = .inboundPayment id) : ∃ p ∈ d.inbound, p.id = id := by
  have hmem : e.strip ∈ (d.ledger.map .strip).filter isCredit :=
    List.mem_filter.2 ⟨List.mem_map_of_mem he, by simp [isCredit, LedgerEntry.strip, hs]⟩
  rw [h, List.mem_map] at hmem
  obtain ⟨p, hp, hpe⟩ := hmem
  have hsource : EntrySource.inboundPayment p.id = e.source := (congrArg LedgerEntry.source hpe :)
  rw [hs] at hsource
  exact ⟨p, hp, EntrySource.inboundPayment.inj hsource⟩

/-- The entry, in brief, is a credit for an account: told from its payment. -/
def forAccount (d : World) (a : AccountRow) (e : LedgerEntry) : Bool :=
  (d.inbound.any fun p => e.source = .inboundPayment p.id && p.customerId = a.customerId) &&
    e.currency = a.currency

/-- The credit of a payment is for the account of the payment's customer and currency. -/
theorem forAccount_iff (hwf : Wf d) {a : AccountRow} {e : LedgerEntry} {p : InboundPayment}
    (hp : p ∈ d.inbound) (hs : e.source = .inboundPayment p.id) :
    forAccount d a e = true ↔ p.customerId = a.customerId ∧ e.currency = a.currency := by
  simp only [forAccount, hs, Bool.and_eq_true, List.any_eq_true, decide_eq_true_eq,
    EntrySource.inboundPayment.injEq]
  refine and_congr_left fun _ => ⟨?_, fun hc => ⟨p, hp, rfl, hc⟩⟩
  rintro ⟨q, hq, hpq, hc⟩
  rwa [of_nodup_map hwf.paymentIds hp hq hpq]

/-- The credits of an account are those of its customer's payments in its currency. -/
theorem forAccount_eq (hwf : Wf d) {a : AccountRow} (ha : a ∈ d.accounts) {e : LedgerEntry}
    (he : e ∈ d.ledger) (hc : isCredit e = true) :
    forAccount d a e.strip = decide (e.accountId = a.id) := by
  obtain ⟨b, hb, hid, hcur, ho⟩ := hwf.entries e he
  cases hs : e.source with
  | inboundPayment id =>
    rw [hs] at ho
    obtain ⟨p, hp, rfl, hcust⟩ := ho
    rw [Bool.eq_iff_iff, forAccount_iff hwf (e := e.strip) hp hs, decide_eq_true_iff, hcust]
    change b.customerId = a.customerId ∧ e.currency = a.currency ↔ _
    rw [← hid, ← hcur]
    constructor
    · rintro ⟨h₁, h₂⟩
      rw [of_nodup_map hwf.accountKeys hb ha (Prod.ext h₁ h₂)]
    · intro h
      rw [of_nodup_map hwf.accountIds hb ha h]
      exact ⟨rfl, rfl⟩
  | transfer | settlementTrade => simp [isCredit, hs] at hc

/-- The inbound credits of an account sum to the payments of its customer in its currency. -/
theorem sum_credits (hwf : Wf d) (h : Credited d) {a : AccountRow} (ha : a ∈ d.accounts) :
    (((d.entriesOf a.id).filter isCredit).map (·.amountMinor)).sum =
      ((d.inbound.filter fun p => p.customerId = a.customerId && .fiat p.currency = a.currency).map
        (·.amountMinor)).sum := by
  have hleft : ((d.entriesOf a.id).filter isCredit).map (·.amountMinor) =
      (((d.ledger.map .strip).filter isCredit).filter (forAccount d a)).map (·.amountMinor) := by
    rw [List.filter_map, List.filter_map, List.map_map, World.entriesOf, List.filter_filter,
      List.filter_filter]
    have : (d.ledger.filter fun e => isCredit e && decide (e.accountId = a.id)) =
        d.ledger.filter fun e => (forAccount d a ∘ LedgerEntry.strip) e &&
          (isCredit ∘ LedgerEntry.strip) e := by
      refine List.filter_congr fun e he => ?_
      cases hc : isCredit e with
      | false => simp [isCredit_strip, hc]
      | true => simp [isCredit_strip, hc, forAccount_eq hwf ha he hc]
    rw [this]
    rfl
  have hright : (d.inbound.filter fun p =>
      decide (p.customerId = a.customerId) && decide (.fiat p.currency = a.currency)) =
      d.inbound.filter (forAccount d a ∘ creditEntry) := by
    refine List.filter_congr fun p hp => ?_
    rw [Bool.eq_iff_iff, Function.comp_apply, forAccount_iff (e := creditEntry p) hwf hp rfl]
    simp [creditEntry, Ledger.posted]
  rw [hleft, h, List.filter_map, List.map_map, hright]
  rfl

end Facts

/-! ### Every reachable state -/

/-- The partner and its id of the payment that an operation delivers. -/
def paymentOf : Op → Option (String × String)
  | .applyInbound p => some (p.provider, p.providerPaymentId)
  | .receiveYellowcard _ w => w.key.map fun i => (yellowcardName, i)
  | .receiveBridge _ w => w.key.map fun i => (bridgeName, i)
  | _ => none

/-- The answer to a delivery says that its payment is credited, and whether it was before. -/
def creditAnswer : Op → Except Failure Answer → Option Bool
  | .applyInbound _, .ok (.applied first) => some !first
  | .receiveYellowcard .., .ok (.ack a) => if a.applied then some a.duplicate else none
  | .receiveBridge .., .ok (.ack a) => if a.applied then some a.duplicate else none
  | _, _ => none

/-- What a delivery answered is what it did. -/
theorem recorded_of_answer {op : Op} {r : Except Failure Answer} {made : List (World × World)}
    {d : World} (h : op.Post r made d) {duplicate : Bool}
    (ha : creditAnswer op r = some duplicate) :
    ∃ k, paymentOf op = some k ∧ Recorded k.1 k.2 (!duplicate) [] made d := by
  have hack : ∀ {p : String} {key : Option String} {a : WebhookAck},
      Acknowledged p key a [] made d →
        (if a.applied then some a.duplicate else none) = some duplicate →
      ∃ k, (key.map fun i => (p, i)) = some k ∧ Recorded k.1 k.2 (!duplicate) [] made d := by
    intro p key a hk ha
    split at ha
    case isFalse => cases ha
    case isTrue happlied =>
      rw [Acknowledged, if_pos happlied] at hk
      obtain ⟨i, rfl, hrec⟩ := hk
      cases ha
      exact ⟨(p, i), rfl, hrec⟩
  cases op <;> rcases r with (e | l) | (a | t | b | o | w | x | a | first | n) <;> try cases ha
  case applyInbound.ok.applied.refl p =>
    refine ⟨_, rfl, ?_⟩
    rw [Bool.not_not]
    exact h
  case receiveYellowcard.ok.ack => exact hack h ha
  case receiveBridge.ok.ack => exact hack h ha

variable {ι : Type} [DecidableEq ι] {ops : ι → Op} {d₀ : World}

/-- **Inbound money** is credited once: in every state that any calls reach, each recorded payment
has one entry, no other inbound entry exists, and the credits of an account are its payments.  A
delivery that says its payment is credited leaves one row for it: it says `duplicate` when it
changed nothing, and otherwise its own commit was the first to record the payment. -/
theorem credited_of_reach (hwf : Wf d₀) (h₀ : Credited d₀)
    {s : Sys ι World Write Key Label Failure Answer} (hr : Reach (Step Env) (system ops d₀) s) :
    (∀ p ∈ s.shared.inbound, ∃ e, (s.shared.ledger.filter fun e => e.source = .inboundPayment p.id)
        = [e] ∧ e.amountMinor = p.amountMinor ∧
      ⟨e.accountId, p.customerId, .fiat p.currency⟩ ∈ s.shared.accounts) ∧
    (∀ e ∈ s.shared.ledger, ∀ id, e.source = .inboundPayment id →
      ∃ p ∈ s.shared.inbound, p.id = id) ∧
    (∀ a ∈ s.shared.accounts,
      (((s.shared.entriesOf a.id).filter isCredit).map (·.amountMinor)).sum =
        ((s.shared.inbound.filter fun p => p.customerId = a.customerId &&
          .fiat p.currency = a.currency).map (·.amountMinor)).sum) ∧
    ∀ i r made duplicate, s.calls i = .done r made → creditAnswer (ops i) r = some duplicate →
      ∃ k, paymentOf (ops i) = some k ∧
        (∃ row, (s.shared.inbound.filter fun p => (p.provider, p.providerPaymentId) = k) = [row]) ∧
        if duplicate then made = []
        else ∃ d d', made = [(d, d')] ∧ d.paymentByKey k.1 k.2 = none ∧
          (d'.paymentByKey k.1 k.2).isSome := by
  have h := invariant_of_reach (I := Credited) lax_anyChange granted_noAssumption hwf h₀
    (fun _ h => h) (fun d d' h he => by cases he <;> exact h) (fun _ _ _ => True)
    (fun i ℓ ids d ws _ _ hi _ hk _ => hi.commit hk)
      (fun e s s' h => ⟨stepIf_of_step h, trivial⟩) hr
  refine ⟨fun p hp => credit_of_payment h.1 h.2 hp, fun e he id hs => payment_of_credit h.2 he hs,
    fun a ha => sum_credits h.1 h.2 ha, fun i r made duplicate hi ha => ?_⟩
  have hok := sysOk_of_reach lax_anyChange
    (granted_noAssumption (R := rules noAssumption ops anyChange))
    hwf (hr.mono fun _ _ _ h => stepIf_of_step h)
  obtain ⟨k, hk, hmade, hpay⟩ := recorded_of_answer (hok.answer hi) ha
  refine ⟨k, hk, ?_, ?_⟩
  · obtain ⟨row, hrow⟩ := Option.isSome_iff_exists.1 hpay
    have hkey : (row.provider, row.providerPaymentId) = k := by
      simpa [Prod.ext_iff] using List.find?_some hrow
    exact ⟨row, hkey ▸ filter_of_nodup_map h.1.paymentKeys (List.mem_of_find?_eq_some hrow)⟩
  · cases duplicate <;> simpa using hmade

/-- A payment delivered twice. -/
def redeliveredOps : Fin 2 → Op
  | 0 => .applyInbound (samplePayment "payment" 100)
  | 1 => .applyInbound (samplePayment "payment" 100)

/-- The second delivery of a payment changes nothing. -/
theorem credited_of_redelivery :
    ∃ s made, Reach (Step Env) (system redeliveredOps (sampleWorld "NG")) s ∧
      s.calls 1 = .done (.ok (.applied false)) made ∧ made = [] := by
  obtain ⟨s, hr, hs⟩ := exists_reach redeliveredOps (sampleWorld "NG") [0, 1] [(0, 15), (1, 5)]
    (fun s => decide ((s.calls 1).result? = some (.ok (.applied false)))) (by decide)
    (by decide +kernel)
  obtain ⟨made, hdone⟩ := Call.eq_done_of_result (of_decide_eq_true hs)
  obtain ⟨-, -, -, h⟩ := credited_of_reach (wf_sampleWorld "NG") rfl hr
  obtain ⟨k, -, -, hmade⟩ := h 1 _ made true hdone rfl
  exact ⟨s, made, hr, hdone, hmade⟩

end Kimana.Collections
