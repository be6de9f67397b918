import Kimana.Op.Effect

/-!
# Keys and quotes of created transfers

A customer's idempotency key makes at most one transfer, and a transfer claims one quote.

* `OfQuote` : a transfer has the customer, currencies and amounts of a quote.
* `Claimed` : every transfer has claimed a quote, and no two quotes are claimed by one transfer.
* `claimed_of_reach` : **creation** is idempotent and quotes are used once, in every reachable
  state.
-/

namespace Kimana

open ReadCommitted Table Engine

/-- The transfer has the customer, the currencies and the amounts of the quote. -/
structure OfQuote (q : QuoteRow) (t : TransferRow) : Prop where
  customerId : t.customerId = q.customerId
  sendCurrency : t.sendCurrency = q.sendCurrency
  receiveCurrency : t.receiveCurrency = q.receiveCurrency
  sendAmountMinor : t.sendAmountMinor = q.sendAmountMinor
  receiveAmountMinor : t.receiveAmountMinor = q.receiveAmountMinor

/-- Every transfer has claimed its quote, and no two quotes are claimed by one transfer. -/
structure Claimed (d : World) : Prop where
  claimed : ∀ t ∈ d.transfers, ∃ q ∈ d.quotes, q.consumedByTransferId = some t.id ∧ OfQuote q t
  unique : ∀ q ∈ d.quotes, ∀ q' ∈ d.quotes, ∀ id, q.consumedByTransferId = some id →
    q'.consumedByTransferId = some id → q = q'

theorem OfQuote.of_core {q : QuoteRow} {t t' : TransferRow} (h : OfQuote q t)
    (hc : t'.core = t.core) : OfQuote q t' :=
  (TransferRow.eq_of_core (OfQuote q) (fun _ => propext ⟨fun h => { h with }, fun h => { h with }⟩)
    hc).mpr h

/-! ### Two tables after a commit -/

/-- The transfer a write inserts. -/
def Write.created : Write → Option TransferRow
  | insertTransfer row => some row
  | _ => none

/-- The claim a write makes: a quote and a transfer. -/
def Write.claim : Write → Option (Uuid × Uuid)
  | consumeQuote id transferId => some (id, transferId)
  | _ => none

/-- The quotes after a claim. -/
def claimQuote (quotes : List QuoteRow) (c : Uuid × Uuid) : List QuoteRow :=
  updateWhere (fun q => q.id = c.1 && q.consumedByTransferId.isNone) (·.consumedBy c.2) quotes

theorem quotes_claims (ws : List Write) (d : World) :
    (applyAll ws d).quotes = (ws.filterMap Write.claim).foldl claimQuote d.quotes := by
  induction ws generalizing d with
  | nil => rfl
  | cons w ws ih => cases w <;> exact ih _

theorem cores_applyAll (ws : List Write) (d : World) :
    (applyAll ws d).transfers.map (·.core) =
      d.transfers.map (·.core) ++ (ws.filterMap Write.created).map (·.core) := by
  induction ws generalizing d with
  | nil => simp
  | cons w ws ih =>
    rw [applyAll_cons, ih]
    cases w <;> try rfl
    case insertTransfer row => simp [Write.apply, Write.created]
    case setStatus id s now =>
      exact congrArg (· ++ _) (map_updateWhere fun _ => rfl)
    case setSettlementRef id ref =>
      exact congrArg (· ++ _) (map_updateWhere fun _ => rfl)

theorem claims_brief (ws : List Write) :
    (brief ws).filterMap Write.claim = ws.filterMap Write.claim := by
  rw [filterMap_brief_of_audit (g := id) (fun _ => rfl)
    (fun w => by cases w <;> first | exact .inr rfl | exact .inl ⟨_, rfl⟩), List.map_id]

theorem created_brief (ws : List Write) :
    (brief ws).filterMap Write.created = ws.filterMap Write.created := by
  rw [filterMap_brief_of_audit (g := id) (fun _ => rfl)
    (fun w => by cases w <;> first | exact .inr rfl | exact .inl ⟨_, rfl⟩), List.map_id]

/-! ### One commit -/

section Commit

variable {A : Assumed} {op : Op} {d : World} {ws : List Write}

/-- A commit that neither creates nor claims. -/
theorem Claimed.of_quiet (h : Claimed d) (hclaim : (brief ws).filterMap Write.claim = [])
    (hcreate : (brief ws).filterMap Write.created = []) : Claimed (applyAll ws d) := by
  rw [claims_brief] at hclaim
  rw [created_brief] at hcreate
  have hq : (applyAll ws d).quotes = d.quotes := by rw [quotes_claims, hclaim]; rfl
  have hc : (applyAll ws d).transfers.map (·.core) = d.transfers.map (·.core) := by
    rw [cores_applyAll, hcreate, List.map_nil, List.append_nil]
  refine ⟨fun t ht => ?_, hq ▸ h.unique⟩
  obtain ⟨t₀, ht₀, hcore⟩ := List.mem_map.1 (hc ▸ List.mem_map_of_mem ht)
  obtain ⟨q, hqm, hcons, hof⟩ := h.claimed t₀ ht₀
  have hcore' : t.core = t₀.core := hcore.symm
  exact ⟨q, hq ▸ hqm, by rw [hcons, TransferRow.id_of_core hcore'], hof.of_core hcore'⟩

/-- A creation claims its quote, which nobody had claimed. -/
theorem Claimed.of_creation (h : Claimed d) (hwf : Wf d) {ℓ : List Key} {ids : List ℕ}
    (hv : Valid ℓ ids d ws) {state : AppState} {session : Session}
    {input : Service.CreateTransferInput} {body : String} {q : QuoteRow} {recipientId id : Uuid}
    {now : Time} (hc : Service.Creation state session input body d ws q recipientId id now) :
    Claimed (applyAll ws d) := by
  have hu := hc.unused hv
  have hqs : (applyAll ws d).quotes = claimQuote d.quotes (input.quoteId, id) := by
    rw [quotes_claims, ← claims_brief, hc.brief]
    rfl
  have hts : (applyAll ws d).transfers.map (·.core) = d.transfers.map (·.core) ++
      [(Service.Creation.row session input body q recipientId id now).core] := by
    rw [cores_applyAll, ← created_brief, hc.brief]
    rfl
  have hq : q ∈ d.quotes := List.mem_of_find?_eq_some hc.quote
  have hqid : q.id = input.quoteId := by simpa using List.find?_some hc.quote
  refine ⟨fun t ht => ?_, ?_⟩
  · have hmem := List.mem_map_of_mem (f := (·.core)) ht
    rw [hts, List.mem_append, List.mem_singleton] at hmem
    rw [hqs]
    rcases hmem with hmem | hcore
    · -- An older transfer keeps its quote: it was consumed, so this creation does not claim it.
      obtain ⟨t₀, ht₀, hcore⟩ := List.mem_map.1 hmem
      obtain ⟨q₀, hq₀, hcons, hof⟩ := h.claimed t₀ ht₀
      have hkeep := mem_updateWhere (p := fun q : QuoteRow =>
        q.id = input.quoteId && q.consumedByTransferId.isNone) (f := (·.consumedBy id)) hq₀
      rw [if_neg (by simp [hcons])] at hkeep
      exact ⟨q₀, hkeep, by rw [hcons, TransferRow.id_of_core hcore.symm], hof.of_core hcore.symm⟩
    · -- The new transfer has the quote it claims.
      have hclaim := mem_updateWhere (p := fun q : QuoteRow =>
        q.id = input.quoteId && q.consumedByTransferId.isNone) (f := (·.consumedBy id)) hq
      rw [if_pos (by simp [hqid, hc.unclaimed])] at hclaim
      refine ⟨_, hclaim, congrArg some (TransferRow.id_of_core hcore).symm, ?_⟩
      exact OfQuote.of_core ⟨hc.customer.symm, rfl, rfl, rfl, rfl⟩ hcore
  · -- The new claim is of an id that no transfer had, so it repeats no earlier one.
    have hnew : ∀ r ∈ d.quotes, r.consumedByTransferId ≠ some id := fun r hr hcons => by
      obtain ⟨t, ht, hid⟩ := hwf.consumed r hr id hcons
      exact hu.transfer t ht hid
    intro q₁ h₁ q₂ h₂ x hx₁ hx₂
    rw [hqs] at h₁ h₂
    obtain ⟨r₁, hr₁, rfl⟩ := of_mem_updateWhere h₁
    obtain ⟨r₂, hr₂, rfl⟩ := of_mem_updateWhere h₂
    split at hx₁ <;> split at hx₂
    case isTrue.isTrue hp₁ hp₂ =>
      simp only [Bool.and_eq_true, decide_eq_true_eq] at hp₁ hp₂
      rw [of_nodup_map hwf.quoteIds hr₁ hr₂ (hp₁.1.trans hp₂.1.symm)]
    case isTrue.isFalse =>
      cases hx₁
      exact absurd hx₂ (hnew r₂ hr₂)
    case isFalse.isTrue =>
      cases hx₂
      exact absurd hx₁ (hnew r₁ hr₁)
    case isFalse.isFalse hp₁ hp₂ =>
      rw [if_neg hp₁, if_neg hp₂]
      exact h.unique r₁ hr₁ r₂ hr₂ x hx₁ hx₂

theorem Claimed.commit (h : Claimed d) (hwf : Wf d) {ℓ : List Key} {ids : List ℕ}
    (hv : Valid ℓ ids d ws) (hk : op.Commits A d ws) : Claimed (applyAll ws d) := by
  have hpath : ∀ {t steps tail}, Moves d ws t steps tail →
      (tail = [] ∨ ∃ ev, tail = [.insertEvent ev]) → Claimed (applyAll ws d) := fun hm ht =>
    h.of_quiet (hm.filterMap ht (fun _ => rfl) (fun _ => rfl) (fun _ _ _ => rfl) (fun _ => rfl)
      fun _ => rfl)
      (hm.filterMap ht (fun _ => rfl) (fun _ => rfl) (fun _ _ _ => rfl) (fun _ => rfl) fun _ => rfl)
  cases op with
  | executeTrade =>
    obtain ⟨row, -, ht⟩ := hk
    refine h.of_quiet ?_ ?_ <;> rw [ht.brief] <;> simp only [SettlementWallet.tradeEntries] <;> rfl
  | cancelCollection state session id answer =>
    have hb : brief ws = [.cancelCollection id 0] := hk.1
    refine h.of_quiet ?_ ?_ <;> rw [hb] <;> rfl
  | applyInbound | receiveYellowcard | receiveBridge =>
    obtain ⟨row, -, hb⟩ := hk
    refine h.of_quiet ?_ ?_ <;> rw [hb] <;> cases row.collectionId <;> rfl
  | createTransfer state session input body bodies =>
    obtain ⟨q, r, id, now, hc⟩ | ⟨id, t, steps, -, hm, -⟩ := hk
    · exact h.of_creation hwf hv hc
    · exact hpath hm (.inl rfl)
  | runOnce cfg =>
    obtain ⟨event, txHash, logIndex, block, hash, target, t, steps, hr⟩ | ⟨block, hash, rfl⟩ := hk
    · exact hpath hr.moves (.inr ⟨_, rfl⟩)
    · exact h.of_quiet rfl rfl
  | _ =>
    obtain ⟨t, steps, -, hm, -⟩ := hk
    exact hpath hm (.inl rfl)

end Commit

/-! ### Every reachable state -/

variable {ι : Type} [DecidableEq ι] {ops : ι → Op} {d₀ : World}

/-- **Creation**, in every state that any calls reach: a customer has one transfer for a key, and
all calls with the key that answer answer its id; the claims of quotes are one to one between the
transfers and the claimed quotes, and a transfer is of its own quote; and a call that answers
`CONFLICT` has changed nothing. -/
theorem claimed_of_reach (hwf : Wf d₀) (h₀ : Claimed d₀)
    {s : Sys ι World Write Key Label Failure Answer} (hr : Reach (Step Env) (system ops d₀) s) :
    (s.shared.transfers.map fun t => (t.customerId, t.idempotencyKey)).Nodup ∧
    (∀ t ∈ s.shared.transfers, ∃! q, q ∈ s.shared.quotes ∧ q.consumedByTransferId = some t.id) ∧
    (∀ q ∈ s.shared.quotes, ∀ id, q.consumedByTransferId = some id →
      ∃! t, t ∈ s.shared.transfers ∧ t.id = id ∧ OfQuote q t) ∧
    (∀ i j state state' session session' input input' body body' bodies bodies' t t' made made',
      ops i = .createTransfer state session input body bodies →
      ops j = .createTransfer state' session' input' body' bodies' →
      session.customerId = session'.customerId → input.idempotencyKey = input'.idempotencyKey →
      s.calls i = .done (.ok (.transfer t)) made → s.calls j = .done (.ok (.transfer t')) made' →
      t.row.id = t'.row.id) ∧
    ∀ i state session input body bodies e made,
      ops i = .createTransfer state session input body bodies →
      s.calls i = .done (.error (.api e)) made → e.code = .conflict → made = [] := by
  have h := invariant_of_reach (I := Claimed) lax_anyChange granted_noAssumption hwf h₀
    (fun _ h => ⟨h.claimed, h.unique⟩)
    (fun d d' h he => by cases he <;> exact ⟨h.claimed, h.unique⟩) (fun _ _ _ => True)
    (fun i ℓ ids d ws hwf _ hi hv hk _ => hi.commit hwf hv hk)
    (fun e s s' h => ⟨stepIf_of_step h, trivial⟩) hr
  have hok := sysOk_of_reach lax_anyChange
    (granted_noAssumption (R := rules noAssumption ops anyChange)) hwf
    (hr.mono fun _ _ _ h => stepIf_of_step h)
  refine ⟨h.1.transferKeys, fun t ht => ?_, fun q hq id hcons => ?_, ?_, ?_⟩
  · obtain ⟨q, hq, hcons, -⟩ := h.2.claimed t ht
    exact ⟨q, ⟨hq, hcons⟩, fun q' hq' => h.2.unique q' hq'.1 q hq _ hq'.2 hcons⟩
  · obtain ⟨t, ht, rfl⟩ := h.1.consumed q hq id hcons
    obtain ⟨q', hq', hcons', hof⟩ := h.2.claimed t ht
    cases h.2.unique q' hq' q hq _ hcons' hcons
    exact ⟨t, ⟨ht, rfl, hof⟩, fun t' ht' => of_nodup_map h.1.transferIds ht'.1 ht ht'.2.1⟩
  · intro i j _ _ session session' input input' _ _ _ _ t t' made made' hi hj hcust hkey hdi hdj
    have h₁ := hok.answer hdi
    have h₂ := hok.answer hdj
    rw [hi] at h₁
    rw [hj] at h₂
    have h₁ : Service.keyed s.shared session.customerId input.idempotencyKey = some t.row.id := h₁
    have h₂ : Service.keyed s.shared session'.customerId input'.idempotencyKey = some t'.row.id :=
      h₂
    rw [hcust, hkey, h₂] at h₁
    exact (Option.some.inj h₁).symm
  · intro i _ _ _ _ _ e made hi hdone hcode
    have h₁ := hok.answer hdone
    rw [hi] at h₁
    exact h₁ hcode

/-- The transfer that a call has answered. -/
def transferOf : Call World Write Key Label Failure Answer → Option Transfer
  | .done (.ok (.transfer t)) _ => some t
  | _ => none

theorem exists_of_transferOf {c : Call World Write Key Label Failure Answer}
    (h : (transferOf c).isSome = true) : ∃ t made, c = .done (.ok (.transfer t)) made := by
  unfold transferOf at h
  split at h
  case h_1 t made => exact ⟨t, made, rfl⟩
  case h_2 => cases h

/-- A creation, sent twice. -/
def repeatedOps : Fin 2 → Op
  | 0 => sampleCreate false "transfer" 3
  | 1 => sampleCreate false "transfer" 4

/-- The second creation with a key answers the first one's transfer. -/
theorem claimed_of_repeated :
    ∃ s t t' made made', Reach (Step Env) (system repeatedOps (sampleWorld "NG")) s ∧
      s.calls 0 = .done (.ok (.transfer t)) made ∧ s.calls 1 = .done (.ok (.transfer t')) made' ∧
      t.row.id = t'.row.id := by
  obtain ⟨s, hr, hs⟩ := exists_reach repeatedOps (sampleWorld "NG") [0, 1] [(0, 41), (1, 1)]
    (fun s => (transferOf (s.calls 0)).isSome && (transferOf (s.calls 1)).isSome) (by decide)
    (by decide +kernel)
  rw [Bool.and_eq_true] at hs
  obtain ⟨t, made, h₀⟩ := exists_of_transferOf hs.1
  obtain ⟨t', made', h₁⟩ := exists_of_transferOf hs.2
  have hclaimed : Claimed (sampleWorld "NG") :=
    ⟨by simp [sampleWorld], by simp [sampleWorld, sampleQuote]⟩
  obtain ⟨-, -, -, hsame, -⟩ := claimed_of_reach (wf_sampleWorld "NG") hclaimed hr
  exact ⟨s, t, t', made, made', hr, h₀, h₁,
    hsame 0 1 _ _ _ _ _ _ _ _ _ _ t t' made made' rfl rfl rfl rfl h₀ h₁⟩

end Kimana
