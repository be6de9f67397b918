import Kimana.Collections
import Kimana.Ledger.Posting

/-!
# Inbound money under interference

* `applyInbound_spec` : a payment commits once (`Credit`), and an answer `false` means that some
  commit had recorded it.
* `receiveYellowcard_spec`, `receiveBridge_spec` : the same for the webhooks.
* `cancelCollection_spec` : a cancellation moves no money.
-/

namespace Kimana.Collections

open ReadCommitted Table Ledger

/-- The entry of a payment. -/
def creditEntry (p : InboundPayment) : LedgerEntry :=
  posted (.inboundPayment p.id) p.amountMinor (.fiat p.currency) "Payment received"

/-- The request that a payment settles: it is of the payment's customer, no payment has settled it,
and it was open when the transaction began, unless the payment may settle it when closed. -/
structure Due (closed : Bool) (d : World) (customerId : Uuid) (c : CollectionRow) (now : Time) :
    Prop where
  found : d.collection c.id = some c
  customer : c.customerId = customerId
  unpaid : d.paymentFor c.id = none
  opened : derivedStatus c now = .pending ∨ closed = true

/-- What a payment commits: the row, its entry, and the request it settles marked paid. -/
def CreditCommits (provider : String) (closed : Bool) (d : World) (ws : List Write) : Prop :=
  ∃ row : InboundPayment, (d.paymentByKey row.provider row.providerPaymentId = none ∧
      row.provider = provider ∧ ∀ id, row.collectionId = some id → ∃ c now, c.id = id ∧
        Due closed d row.customerId c now ∧ .payCollection id now ∈ ws) ∧
    brief ws = [.insertInbound row, .insertEntry (creditEntry row)] ++
      (row.collectionId.map fun id => .payCollection id 0).toList

/-- What a cancellation commits: the customer's request, which was pending, is cancelled; a partner
that has to close it has agreed. -/
def CancelCommits (session : Session) (id : Uuid) (answer : Except ApiError Unit) (d : World)
    (ws : List Write) : Prop :=
  brief ws = [.cancelCollection id 0] ∧ ∃ c, d.collection id = some c ∧
    c.customerId = session.customerId ∧ c.status = .pending ∧
    (c.provider = yellowcardName → answer = .ok ())

theorem brief_paymentAudit (p : Inbound) (id : Uuid) (settles : Option CollectionRow)
    (balance : ℤ) : (Write.insertAudit (paymentAudit p id settles balance)).brief = none :=
  Write.brief_of_action (by simp [paymentAudit, stateChange])

theorem brief_cancelAudit (session : Session) (id : Uuid) :
    (Write.insertAudit (cancelAudit session id)).brief = none :=
  Write.brief_of_action (by simp [cancelAudit, stateChange])

theorem paymentByKey_ext {d d' : World} (h : Ext d d') {p i : String}
    (hk : (d.paymentByKey p i).isSome) : (d'.paymentByKey p i).isSome := by
  simp only [World.paymentByKey, List.find?_isSome] at hk ⊢
  obtain ⟨x, hx, hp⟩ := hk
  exact ⟨x, h.inbound x hx, hp⟩

theorem collection_ext {d d' : World} (h : Ext d d') {id : Uuid} {c : CollectionRow}
    (hc : d.collection id = some c) : ∃ c', d'.collection id = some c' := by
  have hid : c.id = id := by simpa using List.find?_some hc
  obtain ⟨c', hc', hcore⟩ := h.collections c (List.mem_of_find?_eq_some hc)
  have hid' : c'.id = c.id := (congrArg CollectionRow.id hcore :)
  exact Option.isSome_iff_exists.1 (List.find?_isSome.2 ⟨c', hc', by simp [hid', hid]⟩)

/-- A payment of a key was recorded: by the last of the changes `after` made by a call that had made
the changes `before`, or by somebody else. -/
def Recorded (p i : String) (first : Bool) (before after : List (World × World)) (d' : World) :
    Prop :=
  (if first then ∃ d₀ d₁, after = (d₀, d₁) :: before ∧ d₀.paymentByKey p i = none ∧
    (d₁.paymentByKey p i).isSome
  else after = before) ∧ (d'.paymentByKey p i).isSome

variable {ι : Type} {R : Rules ι World Key Label} {i : ι} {loc : Loc} {d : World}

/-- A request as selected, by id. -/
theorem findById_spec (hR : Framed R) (h : InTx loc d) {conn : Conn} {id : Uuid} :
    wp R i (fun r loc' d' => loc' = loc ∧ Ran R loc d loc d' [] ∧
        r = ((view loc d').collection id).map fun c =>
          ⟨c, derivedStatus c conn.now, (view loc d').paymentFor id⟩)
      (fun _ _ _ => False) (findById conn id) loc d := by
  simp only [findById, Prog.bind_eq, Tx.read, Prog.pure_eq, Prog.bind]
  exact (Ran.refl h).wp_read hR fun d₁ _ h₁ => ⟨rfl, h₁, rfl⟩

/-- The request that a payment settles is locked, is of the payment's customer, and no payment
has settled it. -/
theorem settled_spec (hR : Framed R) (h : InTx loc d) {conn : Conn} {p : Inbound} :
    wp R i (fun r loc' d' => Ran R loc d loc' d' [] ∧ ∀ c, r = some c →
        .collection c.id ∈ loc'.locks ∧ Due p.settlesClosed (view loc' d') p.customerId c conn.now)
      (fun _ _ _ => False) (settled conn p) loc d := by
  simp only [settled]
  split
  case h_1 => exact ⟨.refl h, by simp⟩
  case h_2 id _ =>
    simp only [Prog.bind_eq, Tx.lock, Prog.pure_eq, Prog.bind]
    refine (Ran.refl h).wp_lock hR fun _ d₁ _ _ h₁ => ?_
    refine wp_bind_of (findById_spec hR h₁.inTx) (fun _ _ _ he => he.elim) ?_
    rintro r loc₂ d₂ ⟨rfl, h₂, rfl⟩
    refine ⟨h₁.trans h₂, fun c hc => ?_⟩
    obtain ⟨s, hs, rfl⟩ := Option.map_eq_some_iff.1 hc
    obtain ⟨hs, hp⟩ := Option.filter_eq_some_iff.1 hs
    obtain ⟨c, hrow, rfl⟩ := Option.map_eq_some_iff.1 hs
    have hid : c.id = id := by simpa using List.find?_some hrow
    simp only [Inbound.settles, Bool.and_eq_true, Bool.or_eq_true, decide_eq_true_eq,
      Option.isNone_iff_eq_none] at hp
    exact ⟨hid ▸ List.mem_cons_self, hid ▸ hrow, hp.1.1, hid ▸ hp.1.2, hp.2⟩

/-- The insert of a payment takes the partner's key, or finds it taken. -/
theorem insertInbound_spec (hR : Framed R) (h : InTx loc d) {p : Inbound} {settles : Option Uuid}
    (hc : ∀ c, settles = some c → .collection c ∈ loc.locks ∧ (view loc d).paymentFor c = none ∧
      ∃ r, (view loc d).collection c = some r ∧ r.customerId = p.customerId) :
    wp R i (fun r loc' d' => (r = none ∧ Ran R loc d loc' d' [] ∧
          ((view loc d').paymentByKey p.provider p.providerPaymentId).isSome) ∨
        ∃ id, r = some id ∧ Ran R loc d loc' d' [.insertInbound (p.row id settles)] ∧
          (view loc d').paymentByKey p.provider p.providerPaymentId = none ∧
          .paymentKey p.provider p.providerPaymentId ∈ loc'.locks)
      (fun _ loc' d' => Failed loc loc' d') (insertInbound p settles) loc d := by
  simp only [insertInbound, Prog.bind_eq, Tx.lock, Tx.read, Tx.fresh, Tx.write, Prog.pure_eq,
    Prog.bind]
  split
  case isTrue => exact (Ran.refl (R := R) h).failed
  case isFalse hstored =>
  have hpos : ¬ p.amountMinor ≤ 0 := by
    simp only [Bool.or_eq_true, decide_eq_true_eq, not_or] at hstored
    exact hstored.1
  refine (Ran.refl h).wp_lock hR fun _ d₁ _ _ h₁ => h₁.wp_read hR fun d₂ _ h₂ => ?_
  split
  case isTrue htaken => exact .inl ⟨rfl, h₂, htaken⟩
  case isFalse hfree =>
    refine (Ran.refl h₂.inTx).wp_fresh hR fun id d₃ hr₃ hu h₃ => ?_
    have hnone : (view loc d₃).paymentByKey p.provider p.providerPaymentId = none :=
      (Seen.payment.inj ((h₂.inTx.agree_view hR hr₃).seen
        (.paymentKey p.provider p.providerPaymentId) List.mem_cons_self)).symm.trans
        (by simpa using hfree)
    have ha := (h₂.trans h₃).agree_view hR
    refine h₃.wp_write (w := .insertInbound (p.row id settles))
      ⟨?_, ⟨hnone, Int.not_le.1 hpos, ?_⟩, ?_⟩
      fun h₄ => .inr ⟨id, rfl, h₂.trans h₄, hnone, List.mem_cons_self⟩
    · simp only [Write.keys, Inbound.row, List.mem_cons, Option.mem_toList, Option.map_eq_some_iff]
      rintro k (rfl | ⟨c, hs, rfl⟩)
      · exact List.mem_cons_self
      · exact List.mem_cons_of_mem _ (hc c hs).1
    · intro c hs
      obtain ⟨hk, hp, r, hr, hcust⟩ := hc c hs
      obtain ⟨hs₁, hs₂⟩ := Seen.collection.inj (ha.seen _ hk)
      exact ⟨hs₂.symm.trans hp, r, hs₁.symm.trans hr, hcust⟩
    · rintro _ ⟨⟩
      exact ⟨List.mem_cons_self, hu⟩

/-- **Inbound money**: one commit for each key. -/
theorem applyInbound_spec (hR : Framed R) {p : Inbound}
    (hg : Grants R i (CreditCommits p.provider p.settlesClosed))
    (h : Idle loc d) :
    wp R i (fun first loc' d' => Wf d' ∧
        Recorded p.provider p.providerPaymentId first loc.made loc'.made d') (fun _ _ _ => True)
      (applyInbound p) loc d := by
  refine wp_begin hR h fun conn d₁ _ h₁ => ?_
  refine wp_bind_of (settled_spec hR h₁.inTx) (fun _ _ _ he => he.elim) ?_
  rintro settles loc₂ d₂ ⟨h₂, hsettles⟩
  have hp₂ : loc₂.pending = [] := by rw [h₂.pending, h.pending]; rfl
  refine wp_bind_of (insertInbound_spec hR h₂.inTx fun c hc => ?_) (fun _ _ _ _ => trivial) ?_
  · obtain ⟨row, hrow, rfl⟩ := Option.map_eq_some_iff.1 hc
    obtain ⟨hk, hdue⟩ := hsettles row hrow
    exact ⟨hk, hdue.unpaid, row, hdue.found, hdue.customer⟩
  simp only [Prog.bind_eq, Tx.rollback, Tx.write, Tx.commit, Prog.pure_eq, Prog.bind]
  rintro r loc₃ d₃ (⟨rfl, h₃, htaken⟩ | ⟨id, rfl, h₃, hnone, hk⟩)
  · -- The partner's id is taken: nothing is written, and the payment is there.
    rw [view_of_pending _ hp₂] at htaken
    refine h₃.wp_rollback hR fun d₄ hr₄ h₄ => ⟨h₄.wf, ?_, ?_⟩
    · exact h₃.made.trans h₂.made
    · exact paymentByKey_ext (hR.rely hr₄ h₃.inTx.wf).1.ext htaken
  have hmem : p.row id (settles.map (·.id)) ∈ (view loc₃ d₃).inbound := by
    rw [h₃.view_eq]
    simp [Write.apply]
  refine wp_bind_of (getOrCreateAccount_spec hR h₃.inTx _ _) (fun _ _ _ _ => trivial) ?_
  rintro acct loc₄ d₄ ⟨ws₄, h₄, hb₄, hacct⟩
  have hmem₄ := (h₄.ext_view hR).inbound _ hmem
  refine wp_bind_of (appendEntry_spec hR h₄.inTx hacct ⟨_, hmem₄, rfl, rfl⟩)
    (fun _ _ _ _ => trivial) ?_
  rintro ⟨entryId, balance⟩ loc₅ d₅ ⟨e, h₅, he, -⟩
  have h₃₅ := h₄.trans h₅
  -- The request is still locked, so it may be marked paid.
  have hmark : wp R i (fun _ loc' d' => ∃ ws, Ran R loc₅ d₅ loc' d' ws ∧
      (∀ c, settles = some c → .payCollection c.id conn.now ∈ ws) ∧
      brief ws = (settles.map fun c => .payCollection c.id 0).toList) (fun _ _ _ => False)
      (markPaid conn settles) loc₅ d₅ := by
    cases hs : settles with
    | none => exact ⟨[], .refl h₅.inTx, by simp, rfl⟩
    | some row =>
      obtain ⟨hk₂, hdue⟩ := hsettles row hs
      have hcol₅ := collection_ext ((h₃.trans h₃₅).ext_view hR) hdue.found
      simp only [markPaid, Tx.write]
      refine (Ran.refl h₅.inTx).wp_write (w := .payCollection _ _)
        ⟨by simpa [Write.keys] using (h₃.trans h₃₅).locks _ hk₂, ⟨hcol₅, ?_⟩,
          by simp [Write.publishes]⟩ fun h₆ => ⟨_, h₆, by simp, rfl⟩
      simp only [World.paymentFor, List.find?_isSome]
      exact ⟨_, (h₃₅.ext_view hR).inbound _ hmem, by simp [Inbound.row, hs]⟩
  refine wp_bind_of hmark (fun _ _ _ he => he.elim) ?_
  rintro _ loc₆ d₆ ⟨ws₆, h₆, hpaid, hb₆⟩
  refine (h₃₅.trans h₆).wp_write (w := .insertAudit _)
    ⟨by simp [Write.keys], trivial, by simp [Write.publishes]⟩ fun h₇ => ?_
  have hpend := h₇.pending
  rw [h₃.pending, hp₂] at hpend
  -- What the locks kept until the commit: the key is free, and the request is due.
  have hfree : ∀ d₈ ws,
      Ran R loc₃ d₃ (loc₆.wrote (.insertAudit (paymentAudit p id settles balance))) d₈ ws →
      d₈.paymentByKey p.provider p.providerPaymentId = none := fun d₈ ws h₈ => by
    rw [view_of_pending _ hp₂] at hnone
    exact (Seen.payment.inj ((h₈.agree hR).seen _ hk)).symm.trans hnone
  have hthere : ∀ d₈ ws,
      Ran R loc₃ d₃ (loc₆.wrote (.insertAudit (paymentAudit p id settles balance))) d₈ ws →
      ((view (loc₆.wrote (.insertAudit (paymentAudit p id settles balance))) d₈).paymentByKey
        p.provider p.providerPaymentId).isSome := fun d₈ ws h₈ => by
    simp only [World.paymentByKey, List.find?_isSome]
    exact ⟨_, (h₈.ext_view hR).inbound _ hmem, by simp [Inbound.row]⟩
  have hdue : ∀ d₈ ws, Ran R loc₃ d₃ (loc₆.wrote (.insertAudit (paymentAudit p id settles balance)))
      d₈ ws → ∀ c, settles = some c → Due p.settlesClosed d₈ p.customerId c conn.now :=
    fun d₈ ws h₈ c hs => by
      obtain ⟨hk₂, hdue⟩ := hsettles c hs
      rw [view_of_pending _ hp₂] at hdue
      obtain ⟨hs₁, hs₂⟩ := Seen.collection.inj (((h₃.trans h₈).agree hR).seen _ hk₂)
      exact ⟨hs₁.symm.trans hdue.found, hdue.customer, hs₂.symm.trans hdue.unpaid, hdue.opened⟩
  refine h₇.wp_commit_of hR hg (fun d₈ h₈ => ⟨p.row id (settles.map (·.id)),
      ⟨hfree d₈ _ h₈, rfl, fun k hs => ?_⟩, ?_⟩)
    fun d₈ h₈ hc => ⟨hc.wf, ⟨d₈,
      view (loc₆.wrote (.insertAudit (paymentAudit p id settles balance))) d₈, ?_,
      hfree d₈ _ h₈, hthere d₈ _ h₈⟩, hthere d₈ _ h₈⟩
  · obtain ⟨c, hc, rfl⟩ := Option.map_eq_some_iff.1 hs
    refine ⟨c, conn.now, rfl, hdue d₈ _ h₈ c hc, ?_⟩
    rw [hpend]
    have := hpaid c hc
    simp [this]
  · rw [hpend]
    simp only [brief_append, brief_cons, brief_paymentAudit, Write.brief_insertEntry, hb₄, hb₆, he]
    cases settles <;> rfl
  · exact congrArg _ (h₈.made.trans (h₃.made.trans h₂.made))

/-- The partner's id of a Yellow Card delivery. -/
def YellowCardDelivery.key (w : YellowCardDelivery) : Option String :=
  match w.fetched with
  | .ok (receive, _) => some receive.id
  | .error _ => none

/-- The partner's id of a Bridge delivery. -/
def BridgeDelivery.key (w : BridgeDelivery) : Option String :=
  (w.event.bind (·.activity)).map fun a => a.depositId.getD a.id

/-- What the answer to a delivery means: money was credited for its key, by this delivery or by an
earlier commit; or no money moved. -/
def Acknowledged (p : String) (key : Option String) (ack : WebhookAck)
    (before after : List (World × World)) (d' : World) : Prop :=
  if ack.applied then ∃ i, key = some i ∧ Recorded p i (!ack.duplicate) before after d'
  else ack.duplicate = false ∧ after = before

/-- A Yellow Card webhook. -/
theorem receiveYellowcard_spec (hR : Framed R) {state : AppState} {w : YellowCardDelivery}
    (hg : Grants R i (CreditCommits yellowcardName true)) (h : Idle loc d) :
    wp R i (fun ack loc' d' => Wf d' ∧ Acknowledged yellowcardName w.key ack loc.made loc'.made d')
      (fun _ _ _ => True) (receiveYellowcard state w) loc d := by
  have hign : wp R i (fun ack loc' d' => Wf d' ∧
    Acknowledged yellowcardName w.key ack loc.made loc'.made d')
      (fun _ _ _ => True) (pure ignored : Tx WebhookAck) loc d := ⟨h.wf, rfl, rfl⟩
  simp only [receiveYellowcard]
  split
  case isTrue => trivial
  split
  case isTrue => trivial
  split
  case h_1 => trivial
  case h_2 event _ =>
  generalize (Option.map isReceiveEvent event.event).getD false = isReceive
  split
  case isTrue => exact hign
  split
  case h_1 => trivial
  case h_2 receive raw hfetched =>
  split
  case isTrue => exact hign
  split
  case isTrue => trivial
  simp only [Prog.bind_eq, Tx.query, Prog.pure_eq, Prog.bind]
  refine (Ran.refl h.inTx).wp_query hR fun d₁ hr₁ h₁ => ?_
  split
  case h_1 => trivial
  case h_2 c _ =>
  split
  case isTrue => trivial
  split
  case h_1 => trivial
  case h_2 amountMinor _ =>
  refine h₁.wp_query hR fun d₂ hr₂ h₂ => ?_
  refine wp_bind_of (applyInbound_spec hR hg ((h.rely hR hr₁).rely hR hr₂))
    (fun _ _ _ _ => trivial) ?_
  rintro first loc₃ d₃ ⟨hwf, hrec⟩
  exact ⟨hwf, receive.id, by simp [YellowCardDelivery.key, hfetched], by simpa using hrec⟩

/-- The request that a memo quotes writes nothing. -/
theorem quotedRequest_spec (hR : Framed R) (h : InTx loc d) (state : AppState) (customerId : Uuid)
    (description : Option String) :
    wp R i (fun _ loc' d' => loc' = loc ∧ Ran R loc d loc' d' []) (fun _ _ _ => False)
      (quotedRequest state customerId description) loc d := by
  simp only [quotedRequest]
  split
  case h_1 => exact ⟨rfl, .refl h⟩
  case h_2 =>
    simp only [Prog.bind_eq, Tx.query, Prog.pure_eq, Prog.bind]
    exact (Ran.refl h).wp_query hR fun d₁ _ h₁ => ⟨rfl, h₁⟩

/-- A Bridge webhook. -/
theorem receiveBridge_spec (hR : Framed R) {state : AppState} {w : BridgeDelivery}
    (hg : Grants R i (CreditCommits bridgeName false)) (h : Idle loc d) :
    wp R i (fun ack loc' d' => Wf d' ∧ Acknowledged bridgeName w.key ack loc.made loc'.made d')
      (fun _ _ _ => True) (receiveBridge state w) loc d := by
  have hign : wp R i (fun ack loc' d' => Wf d' ∧
    Acknowledged bridgeName w.key ack loc.made loc'.made d')
      (fun _ _ _ => True) (pure ignored : Tx WebhookAck) loc d := ⟨h.wf, rfl, rfl⟩
  simp only [receiveBridge]
  split
  case isTrue => trivial
  split
  case h_1 => trivial
  case h_2 => trivial
  case h_3 =>
  split
  case h_1 => trivial
  case h_2 event hevent =>
  split
  case isTrue => exact hign
  split
  case h_1 => trivial
  case h_2 activity hactivity =>
  split
  case isTrue => exact hign
  split
  case isTrue => trivial
  simp only [Prog.bind_eq, Tx.query, Prog.pure_eq, Prog.bind]
  refine (Ran.refl h.inTx).wp_query hR fun d₁ hr₁ h₁ => ?_
  split
  case h_1 => trivial
  case h_2 v _ =>
  generalize Option.filter _ _ = cents
  split
  case h_1 => trivial
  case h_2 amountMinor =>
  refine wp_bind_of (quotedRequest_spec hR h₁.inTx _ _ _) (fun _ _ _ _ => trivial) ?_
  rintro collectionId loc₂ d₂ ⟨rfl, h₂⟩
  refine h₂.wp_query hR fun d₃ hr₃ h₃ => ?_
  refine wp_bind_of (applyInbound_spec hR hg { h with wf := h₃.inTx.wf })
    (fun _ _ _ _ => trivial) ?_
  rintro first loc₃ d₃ ⟨hwf, hrec⟩
  exact ⟨hwf, activity.depositId.getD activity.id,
    by simp [BridgeDelivery.key, hevent, hactivity], by simpa using hrec⟩

/-! ### Cancelling a request -/

/-- The session customer's request, under its lock. -/
theorem ownedRow_spec (hR : Framed R) (h : InTx loc d) {conn : Conn} {session : Session}
    {id : Uuid} :
    wp R i (fun s loc' d' => Ran R loc d loc' d' [] ∧ .collection id ∈ loc'.locks ∧
        (view loc' d').collection id = some s.row ∧ s.status = derivedStatus s.row conn.now ∧
        s.row.customerId = session.customerId)
      (fun _ _ _ => True) (ownedRow conn session id) loc d := by
  simp only [ownedRow]
  refine (Ran.refl h).wp_lock hR fun _ d₁ _ _ h₁ => ?_
  simp only [Prog.bind_eq]
  refine wp_bind_of (findById_spec hR h₁.inTx) (fun _ _ _ he => he.elim) ?_
  rintro r loc₂ d₂ ⟨rfl, h₂, rfl⟩
  split
  case h_2 => trivial
  case h_1 s hs =>
    obtain ⟨hs, hcust⟩ := Option.filter_eq_some_iff.1 hs
    obtain ⟨c, hc, rfl⟩ := Option.map_eq_some_iff.1 hs
    exact ⟨h₁.trans h₂, List.mem_cons_self, hc, rfl, of_decide_eq_true hcust⟩

/-- A cancellation commits nothing else. -/
theorem cancelCollection_spec (hR : Framed R) {state : AppState} {session : Session} {id : Uuid}
    {answer : Except ApiError Unit} (hg : Grants R i (CancelCommits session id answer))
    (h : Idle loc d) :
    wp R i (fun _ _ _ => True) (fun _ _ _ => True)
      (cancelCollection state session id answer) loc d := by
  refine wp_begin hR h fun conn d₁ _ h₁ => ?_
  refine wp_bind_of (ownedRow_spec hR h₁.inTx) (fun _ _ _ he => he) ?_
  rintro s loc₂ d₂ ⟨h₂, hk, hrow, hs, hcust⟩
  have hp₂ : loc₂.pending = [] := by rw [h₂.pending, h.pending]; rfl
  split
  case h_2 => exact h₂.wp_rollback hR fun _ _ _ => trivial
  case h_3 => trivial
  case h_4 => trivial
  case h_1 hpending =>
  -- A request past its expiry reads as expired, so one that reads as pending is stored so.
  have hstored : s.row.status = .pending := by
    rw [hs, derivedStatus] at hpending
    split at hpending
    · cases hpending
    · exact hpending
  have hclose : wp R i (fun _ loc' d' => loc' = loc₂ ∧ d' = d₂ ∧
        (s.row.provider = yellowcardName → answer = .ok ())) (fun _ _ _ => True)
      (closePartner state s answer) loc₂ d₂ := by
    simp only [closePartner]
    split
    · split
      · split
        · exact ⟨rfl, rfl, fun _ => rfl⟩
        · trivial
      · trivial
    case isFalse hp => exact ⟨rfl, rfl, fun h => absurd h hp⟩
  refine wp_bind_of hclose (fun _ _ _ he => he) ?_
  rintro _ loc₃ d₃ ⟨rfl, rfl, hagreed⟩
  simp only [Prog.bind_eq, Tx.write, Tx.commit, Prog.pure_eq, Prog.bind]
  refine (Ran.refl h₂.inTx).wp_write (w := .cancelCollection id conn.now)
    ⟨by simpa [Write.keys] using hk, ⟨s.row, hrow, hstored⟩, by simp [Write.publishes]⟩
    fun h₃ => ?_
  refine h₃.wp_write (w := .insertAudit _) ⟨by simp [Write.keys], trivial,
    by simp [Write.publishes]⟩ fun h₄ => ?_
  refine wp_bind_of (findById_spec hR h₄.inTx) (fun _ _ _ _ => trivial) ?_
  rintro r loc₅ d₅ ⟨rfl, h₅, rfl⟩
  split
  case h_2 => trivial
  case h_1 =>
    have hpend := (h₄.trans h₅).pending
    rw [hp₂] at hpend
    refine (h₄.trans h₅).wp_commit_of hR hg (fun d₆ h₆ => ?_) fun d₆ h₆ _ => trivial
    rw [view_of_pending _ hp₂] at hrow
    -- The row lock keeps the request as it was when it was selected.
    have hk₆ := (h₆.agree hR).seen (.collection id) hk
    refine ⟨?_, s.row, (Seen.collection.inj hk₆).1.symm.trans hrow, hcust, hstored, hagreed⟩
    rw [hpend]
    change brief ([.cancelCollection id conn.now] ++ [.insertAudit (cancelAudit session id)]) = _
    rw [brief_append, brief_cons (.insertAudit _), brief_cancelAudit]
    rfl

end Kimana.Collections
