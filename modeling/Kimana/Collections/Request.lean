import Kimana.Op.Effect

/-!
# Payment requests

A request is paid by one payment, or cancelled, or first the one and then the other.

* `Turn` : what one step may do to a request.
* `Settles` : a stored request is paid when one payment, of its customer, is recorded for it.
* `request_of_step` : **in every reachable state requests are settled so, and every step is a
  turn**; a cancellation that the partner refuses leaves its request.
-/

namespace Kimana.Collections

open ReadCommitted Table Engine

/-- The payments recorded for a request. -/
def paymentsOf (d : World) (id : Uuid) : List InboundPayment :=
  d.inbound.filter fun p => p.collectionId = some id

/-- A stored request is paid when one payment, of its customer, is recorded for it; otherwise none
is. -/
structure Settles (d : World) (c : CollectionRow) : Prop where
  stored : c.status ≠ .expired
  paid : c.status = .paid → ∃ p, paymentsOf d c.id = [p] ∧ p.customerId = c.customerId
  unpaid : c.status ≠ .paid → paymentsOf d c.id = []

/-- What a change may do to a stored request: nothing, cancel it while it is pending, or pay it
while it is pending or cancelled, with a payment that is recorded by the same change.  When it is
cancelled, or expired as the paying transaction begins at `now`, only Yellow Card may pay it. -/
inductive Turn (d d' : World) (c : CollectionRow) : CollectionRow → Prop
  | same : paymentsOf d' c.id = paymentsOf d c.id → Turn d d' c c
  | cancelled (now : Time) : c.status = .pending → paymentsOf d' c.id = paymentsOf d c.id →
      Turn d d' c (c.asCancelled now)
  | paid (now : Time) (p : InboundPayment) : c.status = .pending ∨ c.status = .cancelled →
      d'.inbound = d.inbound ++ [p] → p.collectionId = some c.id → p.customerId = c.customerId →
      (c.status = .cancelled ∨ c.expiresAt ≤ now → p.provider = yellowcardName) →
      Turn d d' c (c.asPaid now)

theorem Settles.of_inbound {d d' : World} {c : CollectionRow} (h : Settles d c)
    (he : d'.inbound = d.inbound) : Settles d' c := by
  have hp : paymentsOf d' c.id = paymentsOf d c.id := by rw [paymentsOf, he, paymentsOf]
  exact ⟨h.stored, hp ▸ h.paid, hp ▸ h.unpaid⟩

theorem Turn.settles {d d' : World} {c c' : CollectionRow} (h : Turn d d' c c')
    (hs : Settles d c) : Settles d' c' := by
  cases h with
  | same hp => exact ⟨hs.stored, hp ▸ hs.paid, hp ▸ hs.unpaid⟩
  | cancelled now hc hp =>
    refine ⟨by simp [CollectionRow.asCancelled], by simp [CollectionRow.asCancelled], fun _ => ?_⟩
    exact hp.trans (hs.unpaid (by simp [hc]))
  | paid now p hc hin hp hcust _ =>
    refine ⟨by simp [CollectionRow.asPaid], fun _ => ⟨p, ?_, hcust⟩, by simp [CollectionRow.asPaid]⟩
    have hnone : paymentsOf d c.id = [] := hs.unpaid (by rcases hc with h | h <;> simp [h])
    show paymentsOf d' c.id = [p]
    rw [paymentsOf, hin, List.filter_append, ← paymentsOf, hnone]
    simp [hp]

/-! ### What a commit does to a request -/

/-- The request that a statement closes, the status it gets, and when. -/
def Write.closing : Write → Option (Uuid × CollectionStatus × Time)
  | .payCollection id now => some (id, .paid, now)
  | .cancelCollection id now => some (id, .cancelled, now)
  | _ => none

/-- The row after a statement that closes a request. -/
def closedBy (c : CollectionRow) (v : Uuid × CollectionStatus × Time) : CollectionRow :=
  if c.id = v.1 then if v.2.1 = .paid then c.asPaid v.2.2 else c.asCancelled v.2.2 else c

theorem collection_applyAll (ws : List Write) (d : World) (id : Uuid) :
    (applyAll ws d).collection id =
      (d.collection id).map fun c => (ws.filterMap Write.closing).foldl closedBy c := by
  induction ws generalizing d with
  | nil => simp
  | cons w ws ih =>
    rw [applyAll_cons, ih]
    cases w
    case payCollection k now =>
      rw [store_apply, World.collection_payCollection]
      simp [Write.closing, Function.comp_def, closedBy]
    case cancelCollection k now =>
      rw [store_apply, World.collection_cancelCollection]
      simp [Write.closing, Function.comp_def, closedBy]
    all_goals rfl

theorem closings_brief (ws : List Write) : (brief ws).filterMap Write.closing =
    (ws.filterMap Write.closing).map fun v => (v.1, v.2.1, 0) :=
  filterMap_brief_of_audit (fun _ => rfl)
    (fun w => by cases w <;> first | exact .inr rfl | exact .inl ⟨_, rfl⟩) ws

theorem payments_applyAll (ws : List Write) (d : World) (id : Uuid) :
    paymentsOf (applyAll ws d) id = paymentsOf d id ++
      ((brief ws).filterMap Write.payment).filter fun p => p.collectionId = some id := by
  rw [payments_brief, paymentsOf, inbound_applyAll, List.filter_append, paymentsOf]

section Commit

variable {A : Assumed} {op : Op} {d : World} {ws : List Write} {id : Uuid} {c : CollectionRow}

theorem id_of_collection (h : d.collection id = some c) : c.id = id := by
  simpa using List.find?_some h

/-- A commit that records no payment for a request and does not close it. -/
theorem turn_of_quiet (hc : d.collection id = some c)
    (hv : ∀ v ∈ ws.filterMap Write.closing, v.1 ≠ id)
    (hp : ∀ p ∈ (brief ws).filterMap Write.payment, p.collectionId ≠ some id) :
    ∃ c', (applyAll ws d).collection id = some c' ∧ Turn d (applyAll ws d) c c' ∧ c' = c := by
  obtain rfl := id_of_collection hc
  have hfold : (ws.filterMap Write.closing).foldl closedBy c = c := by
    generalize ws.filterMap Write.closing = vs at hv
    induction vs with
    | nil => rfl
    | cons v vs ih =>
      have hne : c.id ≠ v.1 := fun h => hv v List.mem_cons_self h.symm
      rw [List.foldl_cons, closedBy, if_neg hne]
      exact ih fun v hv' => hv v (List.mem_cons_of_mem _ hv')
  refine ⟨c, ?_, .same ?_, rfl⟩
  · rw [collection_applyAll, hc, Option.map_some, hfold]
  · rw [payments_applyAll, List.filter_eq_nil_iff.2, List.append_nil]
    exact fun p hp' => by simpa using hp p hp'

/-- A commit that closes one request. -/
theorem closings_of_brief {k : Uuid} {status : CollectionStatus}
    (h : (brief ws).filterMap Write.closing = [(k, status, 0)]) :
    ∃ now, ws.filterMap Write.closing = [(k, status, now)] := by
  rw [closings_brief] at h
  obtain ⟨⟨k', status', now⟩, hv, he⟩ := List.map_eq_singleton_iff.1 h
  simp only [Prod.mk.injEq, and_true] at he
  obtain ⟨rfl, rfl⟩ := he
  exact ⟨now, hv⟩

/-- A payment turns the request it settles. -/
theorem turn_of_credit {provider : String} {closed : Bool}
    (hclosed : closed = true → provider = yellowcardName)
    (h : CreditCommits provider closed d ws) (hc : d.collection id = some c) (hs : Settles d c) :
    ∃ c', (applyAll ws d).collection id = some c' ∧ Turn d (applyAll ws d) c c' := by
  obtain ⟨row, ⟨-, hprov, hdue⟩, hb⟩ := h
  have hpay : (brief ws).filterMap Write.payment = [row] := by
    rw [hb]
    cases row.collectionId <;> rfl
  by_cases hid : row.collectionId = some id
  -- The payment settles another request, or none.
  case neg =>
    have hother : ∀ v ∈ ws.filterMap Write.closing, v.1 ≠ id := fun v hv he => by
      have hmem : (v.1, v.2.1, 0) ∈ (brief ws).filterMap Write.closing := by
        rw [closings_brief]
        exact List.mem_map_of_mem hv
      rw [hb] at hmem
      cases hk : row.collectionId with
      | none => simp [hk, Write.closing] at hmem
      | some k =>
        simp [hk, Write.closing] at hmem
        exact hid (hk.trans (congrArg some (hmem.1.trans he)))
    obtain ⟨c', hc', ht, -⟩ := turn_of_quiet hc hother fun p hp => by
      rw [hpay, List.mem_singleton] at hp
      exact hp ▸ hid
    exact ⟨c', hc', ht⟩
  case pos =>
  obtain ⟨c₀, now, hid₀, hd, hpaid⟩ := hdue id hid
  subst hid₀
  cases hd.found.symm.trans hc
  have hclosing : (brief ws).filterMap Write.closing = [(c.id, .paid, 0)] := by
    rw [hb, hid]
    rfl
  obtain ⟨now', hv⟩ := closings_of_brief hclosing
  obtain rfl : now = now' := by
    have hmem : (c.id, CollectionStatus.paid, now) ∈ ws.filterMap Write.closing :=
      List.mem_filterMap.2 ⟨_, hpaid, rfl⟩
    rw [hv] at hmem
    simpa using hmem
  refine ⟨c.asPaid now, ?_, .paid now row ?_ ?_ hid hd.customer.symm fun hlate => ?_⟩
  · rw [collection_applyAll, hc, hv]
    simp [closedBy]
  · -- A paid request has its payment on file, and this one was found without.
    have hnot : c.status ≠ .paid := fun hp => by
      obtain ⟨p, hp, -⟩ := hs.paid hp
      have hmem : p ∈ paymentsOf d c.id := hp ▸ List.mem_singleton_self p
      have := List.find?_eq_none.1 hd.unpaid p (List.mem_filter.1 hmem).1
      exact this (List.mem_filter.1 hmem).2
    have := hs.stored
    cases hst : c.status with
    | pending => exact .inl rfl
    | cancelled => exact .inr rfl
    | paid => exact absurd hst hnot
    | expired => exact absurd hst this
  · rw [inbound_applyAll, ← payments_brief, hpay]
  · rw [hprov]
    refine hclosed (hd.opened.resolve_left fun hopen => ?_)
    rw [derivedStatus] at hopen
    rcases hlate with hl | hl
    · simp [hl] at hopen
    · by_cases hst : c.status = .pending <;> simp [hst, hl] at hopen

/-- Every commit turns requests. -/
theorem turn_of_commit (h : op.Commits A d ws)
    (hop : ∀ p, op = .applyInbound p → p.settlesClosed = true → p.provider = yellowcardName)
    (hc : d.collection id = some c) (hs : Settles d c) :
    ∃ c', (applyAll ws d).collection id = some c' ∧ Turn d (applyAll ws d) c c' := by
  -- A commit without payments and closings leaves every request as it is.
  have hquiet : (brief ws).filterMap Write.closing = [] → (brief ws).filterMap Write.payment = [] →
      ∃ c', (applyAll ws d).collection id = some c' ∧ Turn d (applyAll ws d) c c' := fun hv hp => by
    rw [closings_brief, List.map_eq_nil_iff] at hv
    obtain ⟨c', hc', ht, -⟩ := @turn_of_quiet d ws id c hc (by simp [hv]) (by simp [hp])
    exact ⟨c', hc', ht⟩
  by_cases htr : op.ofTransfers = true
  case pos =>
    have hw := h.ofTransfers htr
    refine hquiet ?_ ?_ <;> refine List.filterMap_eq_nil_iff.2 fun w hmem => ?_ <;>
      have := hw w hmem <;> cases w <;> first | rfl | cases this
  case neg =>
  cases op with
  | applyInbound p => exact turn_of_credit (hop p rfl) h hc hs
  | receiveYellowcard => exact turn_of_credit (fun _ => rfl) h hc hs
  | receiveBridge => exact turn_of_credit (fun h => by cases h) h hc hs
  | executeTrade =>
    obtain ⟨row, -, ht⟩ := h
    refine hquiet ?_ ?_ <;> rw [ht.brief] <;>
      simp only [SettlementWallet.tradeEntries, Ledger.posted] <;> rfl
  | cancelCollection state session k answer =>
    obtain ⟨hb, c₀, hc₀, -, hpending, -⟩ := h
    have hclosing : (brief ws).filterMap Write.closing = [(k, .cancelled, 0)] := by rw [hb]; rfl
    obtain ⟨now, hv⟩ := closings_of_brief hclosing
    have hpay : (brief ws).filterMap Write.payment = [] := by rw [hb]; rfl
    by_cases hid : k = id
    case neg =>
      obtain ⟨c', hc', ht, -⟩ :=
        @turn_of_quiet d ws id c hc (by simpa [hv] using hid) (by simp [hpay])
      exact ⟨c', hc', ht⟩
    case pos =>
      subst hid
      cases hc₀.symm.trans hc
      obtain rfl := id_of_collection hc
      refine ⟨c.asCancelled now, ?_, .cancelled now hpending ?_⟩
      · rw [collection_applyAll, hc, hv]
        simp [closedBy]
      · rw [payments_applyAll, hpay, List.filter_nil, List.append_nil]
  | _ => exact absurd rfl htr

end Commit

/-! ### Every reachable state -/

section Runs

variable {ι : Type} [DecidableEq ι] {ops : ι → Op} {d₀ : World}

/-- **A payment request** is paid exactly when one payment is recorded for it, of its customer, and
never more than one is.  A step cancels it while it is pending, or pays it while it is pending or
cancelled; a cancelled or expired one is paid by Yellow Card only; and a cancellation that Yellow
Card refuses leaves it. -/
theorem request_of_step
    (hops : ∀ i p, ops i = .applyInbound p → p.settlesClosed = true → p.provider = yellowcardName)
    (hwf : Wf d₀) (h₀ : ∀ id c, d₀.collection id = some c → Settles d₀ c) {e : Event ι}
    {s s' : Sys ι World Write Key Label Failure Answer} (hr : Reach (Step Env) (system ops d₀) s)
    (hst : Step Env e s s') {id : Uuid} {c : CollectionRow} (hc : s.shared.collection id = some c) :
    Settles s.shared c ∧ ∃ c', s'.shared.collection id = some c' ∧ Turn s.shared s'.shared c c' ∧
      ∀ i state session err, e = .go i → ops i = .cancelCollection state session id (.error err) →
        c.provider = yellowcardName → c' = c := by
  have h := invariant_of_reach (I := fun d => ∀ id c, d.collection id = some c → Settles d c)
    lax_anyChange granted_noAssumption hwf h₀ (fun _ h id c hc => (h id c hc).of_inbound rfl)
    (fun d d' h he id c hc => by cases he <;> exact (h id c hc).of_inbound rfl)
    (fun _ _ _ => True)
    (fun i ℓ ids d ws _ _ hi _ hk _ id c' hc' => by
      rw [collection_applyAll] at hc'
      obtain ⟨c, hc, -⟩ := Option.map_eq_some_iff.1 hc'
      obtain ⟨c'', hc'', ht⟩ := turn_of_commit hk (hops i) hc (hi id c hc)
      rw [← collection_applyAll, hc''] at hc'
      cases hc'
      exact ht.settles (hi id c hc)) (fun e s s' h => ⟨stepIf_of_step h, trivial⟩) hr
  have hs := h.2 id c hc
  refine ⟨hs, ?_⟩
  have hm := moved_of_reach hwf hr hst
  generalize s'.shared = d' at hm
  cases hm with
  | crash i => exact ⟨c, hc, .same rfl, fun _ _ _ _ _ _ _ => rfl⟩
  | env d he =>
    cases he <;> exact ⟨c, hc, .same rfl, fun _ _ _ _ _ _ _ => rfl⟩
  | go i d _ hch =>
    rcases hch with rfl | rfl | ⟨ws, rfl, -, hk⟩
    · exact ⟨c, hc, .same rfl, fun _ _ _ _ _ _ _ => rfl⟩
    · exact ⟨c, hc, .same rfl, fun _ _ _ _ _ _ _ => rfl⟩
    obtain ⟨c', hc', ht⟩ := turn_of_commit hk (hops i) hc hs
    refine ⟨c', hc', ht, fun j state session err hj hop hyc => ?_⟩
    cases hj
    rw [hop] at hk
    obtain ⟨-, c₀, hc₀, -, -, hagreed⟩ := hk
    cases hc₀.symm.trans hc
    cases hagreed hyc

end Runs

/-- A Yellow Card request of the customer. -/
def sampleRequest : CollectionRow :=
  { id := 5
    reference := "CL-2H4F9K"
    customerId := 1
    idempotencyKey := "request"
    amountMinor := 100
    currency := .ngn
    payerName := none
    note := none
    status := .pending
    provider := yellowcardName
    providerRef := some "receive"
    payIn := []
    expiresAt := 1000
    paidAt := none
    cancelledAt := none
    createdAt := 0 }

/-- The database with the request. -/
def requestWorld : World := { sampleWorld "NG" with collections := [sampleRequest] }

/-- The request is cancelled, then paid. -/
def requestOps : Fin 2 → Op
  | 0 => .cancelCollection (sampleState false) sampleSession 5 (.ok ())
  | 1 => .applyInbound { samplePayment "receive" 100 with
      collectionId := some 5
      settlesClosed := true
      provider := yellowcardName
      currency := .ngn }

/-- The cancelled request is paid, by Yellow Card. -/
theorem request_of_cancelled :
    ∃ s s' c c', Reach (Step Env) (system requestOps requestWorld) s ∧ Step Env (.go 1) s s' ∧
      s.shared.collection 5 = some c ∧ c.status = .cancelled ∧
      s'.shared.collection 5 = some c' ∧ c'.status = .paid ∧
      Settles s.shared c ∧ Turn s.shared s'.shared c c' := by
  obtain ⟨s, s', hr, hst, h⟩ := exists_step requestOps requestWorld [0, 1] [(0, 6), (1, 17)] 1
    (fun s s' => decide ((s.shared.collection 5).map (·.status) = some .cancelled) &&
      decide ((s'.shared.collection 5).map (·.status) = some .paid)) (by decide) (by decide +kernel)
  simp only [Bool.and_eq_true, decide_eq_true_eq, Option.map_eq_some_iff] at h
  obtain ⟨⟨c, hc, hs⟩, c', hc', hs'⟩ := h
  have hops : ∀ i p, requestOps i = .applyInbound p → p.settlesClosed = true →
      p.provider = yellowcardName := by
    intro i p hop _
    match i with
    | 0 => cases hop
    | 1 => cases hop; rfl
  have hwf : Wf requestWorld := .of_new rfl rfl rfl rfl rfl rfl rfl
    (by simp [requestWorld, sampleWorld, sampleQuote])
    (by simp [requestWorld, sampleWorld, sampleQuote])
  have h₀ : ∀ id c, requestWorld.collection id = some c → Settles requestWorld c := by
    intro id c hc
    obtain rfl : c = sampleRequest := by simpa [requestWorld] using List.mem_of_find?_eq_some hc
    exact ⟨by decide, fun h => absurd h (by decide), fun _ => rfl⟩
  obtain ⟨hset, c'', hc'', ht, -⟩ := request_of_step hops hwf h₀ hr hst hc
  cases hc''.symm.trans hc'
  exact ⟨s, s', c, c', hr, hst, hc, hs, hc', hs', hset, ht⟩

end Kimana.Collections
