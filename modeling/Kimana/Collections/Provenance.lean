import Kimana.Collections.Credit
import Kimana.Collections.Memo
import Kimana.Collections.Webhook
import Kimana.ReadCommitted.Never
import Kimana.Transfers.Walk

/-!
# Where inbound money comes from

* `YellowCardDelivery.Brought`, `BridgeDelivery.Brought` : what a delivery says of its payment.
* `never_receiveYellowcard`, `never_receiveBridge` : a webhook records nothing else.
* `brought_of_reach` : every payment that a run records was brought by one of its calls.
* `signed_of_reach` : **inbound money was signed for**: a Bridge payment was in a body that Bridge
  has signed, a Yellow Card payment in Yellow Card's own answer.
-/

namespace Kimana.Collections

open ReadCommitted Table Engine Bridge

/-- No operation changes what the webhooks look up: the linked accounts, and the requests but for
their status. -/
structure Filed (d₀ d : World) : Prop where
  virtualAccounts : d.virtualAccounts = d₀.virtualAccounts
  collections : d.collections.map CollectionRow.core = d₀.collections.map CollectionRow.core

theorem Filed.applyAll {d₀ d : World} (h : Filed d₀ d) (ws : List Write) :
    Filed d₀ (applyAll ws d) := by
  induction ws generalizing d with
  | nil => exact h
  | cons w ws ih =>
    refine ih ?_
    cases w <;> refine ⟨h.virtualAccounts, ?_⟩ <;> rw [← h.collections] <;>
      first | rfl | exact map_updateWhere fun _ => rfl

theorem Filed.request {d₀ d : World} (h : Filed d₀ d) {c : CollectionRow} (hc : c ∈ d.collections) :
    ∃ c₀ ∈ d₀.collections, c₀.core = c.core := by
  have hmem : c.core ∈ d₀.collections.map CollectionRow.core :=
    h.collections ▸ List.mem_map_of_mem hc
  exact List.mem_map.1 hmem

/-! ### What a delivery says -/

/-- Yellow Card's own answer has the payment: a completed receive in naira for a request of the
customer. -/
structure YellowCardDelivery.Brought (d₀ : World) (w : YellowCardDelivery) (p : InboundPayment) :
    Prop where
  signed : w.signed = true
  provider : p.provider = yellowcardName
  currency : p.currency = .ngn
  fetched : ∃ receive, w.fetched = .ok (receive, p.raw) ∧ receive.status = "complete" ∧
    receive.id = p.providerPaymentId ∧ receive.convertedMinor = some p.amountMinor ∧
    ∃ c ∈ d₀.collections, c.provider = yellowcardName ∧ c.providerRef = some receive.id ∧
      c.customerId = p.customerId

/-- An event has the payment: a processed deposit on the account that is linked to the customer. -/
def BridgeEvent.Has (d₀ : World) (event : BridgeEvent) (p : InboundPayment) : Prop :=
  event.category = "virtual_account.activity" ∧ event.raw = p.raw ∧
    ∃ activity v, event.activity = some activity ∧ activity.kind = "payment_processed" ∧
      activity.depositId.getD activity.id = p.providerPaymentId ∧
      dollarsToCents activity.amount = some p.amountMinor ∧ 0 < p.amountMinor ∧
      v ∈ d₀.virtualAccounts ∧ v.virtualAccountId = activity.virtualAccountId ∧
      v.customerId = p.customerId

/-- A checked event has the payment. -/
structure BridgeDelivery.Brought (d₀ : World) (w : BridgeDelivery) (p : InboundPayment) : Prop where
  checked : w.check = .valid
  provider : p.provider = bridgeName
  currency : p.currency = .usd
  event : ∃ event, w.event = some event ∧ event.Has d₀ p

/-- The operation has the payment. -/
def Brings (d₀ : World) : Op → InboundPayment → Prop
  | .applyInbound q, p => ∃ id settles, p = q.row id settles
  | .receiveYellowcard _ w, p => w.Brought d₀ p
  | .receiveBridge _ w, p => w.Brought d₀ p
  | _, _ => False

/-- An operation that may record a payment. -/
def records : Op → Bool
  | .applyInbound _ | .receiveYellowcard .. | .receiveBridge .. => true
  | _ => false

/-- A payment that the write records, if any, is of kind `Q`. -/
def RecordsOnly (Q : InboundPayment → Prop) (x : Write) : Prop := ∀ p, x = .insertInbound p → Q p

/-! ### What the webhooks record -/

section Webhooks

variable {S : World → Prop} {Q : InboundPayment → Prop}

/-- `applyInbound` records its payment only. -/
theorem writes_applyInbound {q : Inbound} (h : ∀ id settles, Q (q.row id settles)) :
    Walks (RecordsOnly Q) (fun _ => True) (applyInbound q) := by
  have hposts : Walks.Posts (RecordsOnly Q) fun _ => True := by
    refine ⟨fun w hw _ p he => ?_, fun _ _ => trivial⟩
    subst he
    exact hw.elim
  refine (Walks.query.bind fun _ => .ret _).bind fun conn => .bind ?_ fun settles =>
    .bind ?_ fun r => ?_
  · rw [settled]
    split
    · exact .ret _
    · exact (Walks.lock trivial).bind fun _ =>
        (Walks.read.bind fun _ => .ret _).bind fun _ => .ret _
  · rw [insertInbound]
    split
    · exact .fail _
    refine (Walks.lock trivial).bind fun _ => Walks.read.bind fun _ => ?_
    split
    · exact .ret _
    · refine Walks.fresh.bind fun id => (Walks.write fun p he => ?_).bind fun _ => .ret _
      cases he
      exact h id _
  · split
    · exact Walks.rollback.bind fun _ => .ret _
    refine (Walks.getOrCreateAccountByCode hposts _ _).bind fun _ =>
      (Walks.appendEntry hposts ..).bind fun _ => .bind ?_ fun _ =>
      (Walks.write fun p he => (by cases he)).bind fun _ => Walks.commit.bind fun _ => .ret _
    unfold markPaid
    split
    · exact .write fun p he => (by cases he)
    · exact .ret _

theorem never_applyInbound {q : Inbound} (h : ∀ id settles, Q (q.row id settles)) :
    (applyInbound q).Never S fun x => ¬RecordsOnly Q x :=
  never_of_writes (fun _ hx => not_not.2 hx) (writes_applyInbound h).writes

variable {d₀ : World}

/-- A Yellow Card webhook records what Yellow Card has answered. -/
theorem never_receiveYellowcard (state : AppState) (w : YellowCardDelivery) :
    (receiveYellowcard state w).Never (Filed d₀) fun x => ¬RecordsOnly (w.Brought d₀) x := by
  unfold receiveYellowcard
  split
  · trivial
  split
  · trivial
  next hsigned =>
  split
  · trivial
  split
  · trivial
  split
  · trivial
  next receive raw hfetched =>
  split
  · trivial
  next hstatus =>
  split
  · trivial
  intro d hd
  simp only [Prog.pure_eq, Prog.bind]
  split
  · trivial
  next c hc =>
  split
  · trivial
  split
  · trivial
  next amountMinor hamount =>
  intro d' _
  simp only [Prog.bind_eq, Prog.bind]
  refine .bind (never_applyInbound fun id settles => ?_) fun _ => trivial
  -- The request was found as it was filed, whatever its status is by now.
  have hkey := List.find?_some hc
  simp only [Bool.and_eq_true, decide_eq_true_eq] at hkey
  obtain ⟨c₀, hc₀, hcore⟩ := hd.request (List.mem_of_find?_eq_some hc)
  refine ⟨by simpa using hsigned, rfl, rfl, receive, hfetched, by simpa using hstatus, rfl, hamount,
    c₀, hc₀, ?_, ?_, ?_⟩
  · exact (congrArg CollectionRow.provider hcore :).trans hkey.1
  · exact (congrArg CollectionRow.providerRef hcore :).trans hkey.2
  · exact (congrArg CollectionRow.customerId hcore :)

/-- A Bridge webhook records what the event says, if its check says that it is valid. -/
theorem never_receiveBridge (state : AppState) (w : BridgeDelivery) :
    (receiveBridge state w).Never (Filed d₀) fun x => ¬RecordsOnly (w.Brought d₀) x := by
  unfold receiveBridge
  split
  · trivial
  split
  · trivial
  · trivial
  next hvalid =>
  split
  · trivial
  next event hevent =>
  split
  · trivial
  next hcategory =>
  split
  · trivial
  next activity hactivity =>
  split
  · trivial
  next hkind =>
  split
  · trivial
  intro d hd
  simp only [Prog.pure_eq, Prog.bind]
  split
  · trivial
  next v hv =>
  split
  · trivial
  next amountMinor hamount =>
  refine .bind ?_ fun collectionId => ?_
  · rw [quotedRequest]
    split
    · trivial
    · exact fun _ _ => trivial
  intro d' _
  simp only [Prog.bind_eq, Prog.bind]
  refine .bind (never_applyInbound fun id settles => ?_) fun _ => trivial
  obtain ⟨hcents, hpos⟩ := Option.filter_eq_some_iff.1 hamount
  refine ⟨hvalid, rfl, rfl, event, hevent, by simpa using hcategory, rfl, activity, v, hactivity,
    by simpa using hkind, rfl, hcents, of_decide_eq_true hpos, ?_, ?_, rfl⟩
  · exact hd.virtualAccounts ▸ List.mem_of_find?_eq_some hv
  · simpa using List.find?_some hv

/-- An operation that may record a payment records those that it has. -/
theorem never_prog {op : Op} (hop : records op = true) :
    op.prog.Never (Filed d₀) fun x => ¬RecordsOnly (Brings d₀ op) x := by
  cases op with
  | applyInbound q =>
    exact .bind (.mapError (never_applyInbound fun id settles => ⟨id, settles, rfl⟩))
      fun _ => trivial
  | receiveYellowcard state w =>
    exact .bind (.mapError (never_receiveYellowcard state w)) fun _ => trivial
  | receiveBridge state w =>
    exact .bind (.mapError (never_receiveBridge state w)) fun _ => trivial
  | _ => cases hop

end Webhooks

/-! ### Every run -/

/-- Operations that are no deliveries record no payment. -/
theorem payments_of_commit {A : Assumed} {op : Op} {d : World} {ws : List Write}
    (h : op.Commits A d ws) (hop : records op = false) : ws.filterMap Write.payment = [] := by
  rw [← payments_brief]
  cases htr : op.ofTransfers with
  | true =>
    refine List.filterMap_eq_nil_iff.2 fun w hw => ?_
    have := h.ofTransfers htr w hw
    cases w <;> first | rfl | cases this
  | false =>
    cases op with
    | executeTrade =>
      obtain ⟨row, -, ht⟩ := h
      rw [ht.brief]
      rfl
    | cancelCollection =>
      rw [h.1]
      rfl
    | applyInbound | receiveYellowcard | receiveBridge => cases hop
    | _ => cases htr

variable {ι : Type} [DecidableEq ι] {ops : ι → Op} {d₀ : World}

/-- What a run keeps: deliveries write what they bring, and all payments were brought. -/
structure Accounted (ops : ι → Op) (d₀ : World) (s : Sys ι World Write Key Label Failure Answer) :
    Prop where
  filed : Filed d₀ s.shared
  calls : ∀ i, records (ops i) = true →
    (s.calls i).Only (Filed d₀) (RecordsOnly (Brings d₀ (ops i)))
  payments : ∀ p ∈ s.shared.inbound, p ∈ d₀.inbound ∨ ∃ i, Brings d₀ (ops i) p

omit [DecidableEq ι] in
theorem Accounted.start : Accounted ops d₀ (system ops d₀) where
  filed := ⟨rfl, rfl⟩
  calls _ hop := Call.only_start (never_prog hop)
  payments _ hp := .inl hp

/-- The payments that a delivery publishes are those it brings. -/
theorem Accounted.published {s s' : Sys ι World Write Key Label Failure Answer} {i : ι}
    (h : Accounted ops d₀ s) (hop : records (ops i) = true) (hst : Step Env (.go i) s s') :
    ∀ p ∈ s'.shared.inbound, p ∈ s.shared.inbound ∨ Brings d₀ (ops i) p := by
  intro p hp
  rcases (h.calls i hop).published hst with hd | hd | ⟨ws, hws, hd⟩ <;> rw [hd] at hp
  · exact .inl hp
  · exact .inl hp
  · rw [inbound_applyAll, List.mem_append] at hp
    refine hp.imp id fun hp => ?_
    obtain ⟨w, hw, hwp⟩ := List.mem_filterMap.1 hp
    cases w <;> cases hwp
    exact hws _ hw p rfl

theorem Accounted.step (hwf : Wf d₀) {s s' : Sys ι World Write Key Label Failure Answer}
    {e : Event ι} (hr : Reach (Step Env) (system ops d₀) s) (h : Accounted ops d₀ s)
    (hst : Step Env e s s') : Accounted ops d₀ s' := by
  have hfiled : Filed d₀ s'.shared ∧
      ∀ p ∈ s'.shared.inbound, p ∈ s.shared.inbound ∨ ∃ i, Brings d₀ (ops i) p := by
    have hm := moved_of_reach hwf hr hst
    have hpub : ∀ i, e = .go i → records (ops i) = true →
        ∀ p ∈ s'.shared.inbound, p ∈ s.shared.inbound ∨ Brings d₀ (ops i) p := by
      rintro i rfl hop
      exact h.published hop hst
    generalize s'.shared = d' at hm hpub ⊢
    cases hm with
    | go i d _ hch =>
      rcases hch with rfl | rfl | ⟨ws, rfl, -, hk⟩
      · exact ⟨h.filed, fun p hp => .inl hp⟩
      · exact ⟨⟨h.filed.virtualAccounts, h.filed.collections⟩, fun p hp => .inl hp⟩
      · refine ⟨h.filed.applyAll ws, fun p hp => ?_⟩
        -- A delivery is known by its program, any other operation by what it commits.
        cases hop : records (ops i) with
        | true => exact (hpub i rfl hop p hp).imp id fun hb => ⟨i, hb⟩
        | false =>
          rw [inbound_applyAll, payments_of_commit hk hop, List.append_nil] at hp
          exact .inl hp
    | crash i => exact ⟨h.filed, fun p hp => .inl hp⟩
    | env d he =>
      cases he <;> exact ⟨⟨h.filed.virtualAccounts, h.filed.collections⟩, fun p hp => .inl hp⟩
  refine ⟨hfiled.1, fun i hop => (h.calls i hop).step (fun ws d hd => hd.applyAll ws) h.filed hst,
    fun p hp => ?_⟩
  rcases hfiled.2 p hp with hp | hb
  · exact h.payments p hp
  · exact .inr hb

end Kimana.Collections
