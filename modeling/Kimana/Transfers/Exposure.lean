import Kimana.ReadCommitted.Secured
import Kimana.Transfers.Claim
import Kimana.Transfers.Stranded
import Kimana.Transfers.Walk
import Mathlib.Algebra.Order.BigOperators.Group.List

/-!
# The exposure ceiling

What a customer has under way in one currency, and the ceilings that `createTransfer` checks under
the customer's row lock.

* `World.exposure` : the sum of a customer's open transfers in a currency.
* `Roomy` : no sum that a check of the limits makes outgrows 64 bits.
* `Exposes` : what a commit does to it: nothing but a creation raises it.
* `capped_createTransfer` : a creation commits what its check of the limits allows.
* `exposure_le_of_reach` : **the ceiling holds** in every state of a run with room.
-/

namespace Kimana

open ReadCommitted Table TransferStatus Engine Util

/-! ### Exposure -/

/-- The statuses that count against a customer's ceiling. -/
def countedStatuses : List TransferStatus :=
  [.created, .quoted, .screened, .awaitingFunds, .funded, .settling, .settled, .payingOut]

/-- What a transfer counts for. -/
def TransferRow.share (t : TransferRow) (c : Uuid) (cur : CurrencyCode) : ℤ :=
  if t.customerId = c ∧ t.sendCurrency = cur ∧ t.currentStatus ∈ countedStatuses then
    t.sendAmountMinor else 0

/-- The sum of a customer's open transfers in a currency. -/
def World.exposure (d : World) (c : Uuid) (cur : CurrencyCode) : ℤ :=
  ((d.transfers.filter fun t => t.customerId = c && t.sendCurrency = cur &&
    t.currentStatus ∈ countedStatuses).map (·.sendAmountMinor)).sum

/-- The sum that the code compares with the ceiling: it also counts what is being reversed. -/
def World.openExposure (d : World) (c : Uuid) (cur : CurrencyCode) : ℤ :=
  ((d.transfers.filter fun t => t.customerId = c && t.sendCurrency = cur &&
    t.currentStatus ∉ Ledger.terminalStatuses).map (·.sendAmountMinor)).sum

/-- What the transfer with an id counts for. -/
def World.shareOf (d : World) (c : Uuid) (cur : CurrencyCode) (id : Uuid) : ℤ :=
  ((d.transfer id).map (·.share c cur)).getD 0

/-- What is counted of a customer is not negative, and neither is what quotes will make count. -/
structure NonNeg (c : Uuid) (d : World) : Prop where
  transfers : ∀ t ∈ d.transfers, t.customerId = c → 0 ≤ t.sendAmountMinor
  quotes : ∀ q ∈ d.quotes, q.customerId = c → 0 ≤ q.sendAmountMinor

variable {c : Uuid} {cur : CurrencyCode} {d : World} {ws : List Write}

theorem sum_filter_map {α : Type} (p : α → Bool) (f : α → ℤ) (l : List α) :
    ((l.filter p).map f).sum = (l.map fun x => if p x then f x else 0).sum := by
  induction l with
  | nil => rfl
  | cons x l ih => by_cases hp : p x <;> simp [hp, ih]

theorem exposure_eq_sum (d : World) (c : Uuid) (cur : CurrencyCode) :
    d.exposure c cur = (d.transfers.map (·.share c cur)).sum := by
  rw [World.exposure, sum_filter_map]
  simp only [TransferRow.share, Bool.and_eq_true, decide_eq_true_eq, and_assoc]

theorem exposure_eq (hwf : Wf d) (c : Uuid) (cur : CurrencyCode) :
    d.exposure c cur = ((d.transfers.map (·.id)).map (d.shareOf c cur)).sum := by
  rw [exposure_eq_sum, List.map_map]
  congr 1
  refine List.map_congr_left fun t ht => ?_
  rw [Function.comp_apply, World.shareOf, hwf.of_transfer_mem ht]
  rfl

/-- The code counts at least as much. -/
theorem exposure_le_open (h : NonNeg c d) : d.exposure c cur ≤ d.openExposure c cur := by
  rw [World.exposure, World.openExposure, sum_filter_map, sum_filter_map]
  refine List.sum_le_sum fun t ht => ?_
  by_cases hc : t.customerId = c
  · have hpos := h.transfers t ht hc
    cases t.currentStatus <;> by_cases hcur : t.sendCurrency = cur <;>
      simp [hc, hcur, countedStatuses, Ledger.terminalStatuses, hpos]
  · simp [hc]

theorem share_of_core {t t' : TransferRow} (hcore : t'.core = t.core)
    (hst : t'.currentStatus ∈ countedStatuses → t.currentStatus ∈ countedStatuses)
    (hpos : t.customerId = c → 0 ≤ t.sendAmountMinor) : t'.share c cur ≤ t.share c cur := by
  rw [TransferRow.share, TransferRow.share, TransferRow.customerId_of_core hcore,
    TransferRow.sendCurrency_of_core hcore, TransferRow.sendAmountMinor_of_core hcore]
  split
  case isTrue h => rw [if_pos ⟨h.1, h.2.1, hst h.2.2⟩]
  case isFalse =>
    split
    case isTrue h => exact hpos h.1
    case isFalse => exact le_rfl

/-! ### Paths -/

/-- No transition leads back to a status that counts. -/
theorem counted_of_allowed {s s' : TransferStatus} (h : s' ∈ s.allowed)
    (hs : s' ∈ countedStatuses) : s ∈ countedStatuses := by
  cases s <;> cases s' <;> first | decide | exact absurd h (by decide) | exact absurd hs (by decide)

theorem counted_of_path {s : TransferStatus} {steps : List PathStep}
    (hp : pathAllowed s (steps.map (·.target)) = true) (hs : pathEnd s steps ∈ countedStatuses) :
    s ∈ countedStatuses := by
  induction steps generalizing s with
  | nil => exact hs
  | cons st steps ih =>
    simp only [List.map_cons, pathAllowed, Bool.and_eq_true, decide_eq_true_eq] at hp
    exact counted_of_allowed hp.1 (ih hp.2 hs)

/-! ### One commit -/

theorem ids_of_cores {ts ts' : List TransferRow} (h : ts.map (·.core) = ts'.map (·.core)) :
    ts.map (·.id) = ts'.map (·.id) := by
  have := congrArg (List.map TransferRow.id) h
  rwa [List.map_map, List.map_map] at this

/-- A commit that creates nothing and moves nothing back among the statuses that count. -/
theorem exposure_le_of_shares (hwf : Wf d) (hwf' : Wf (applyAll ws d))
    (hcreate : (brief ws).filterMap Write.created = [])
    (h : ∀ id, (applyAll ws d).shareOf c cur id ≤ d.shareOf c cur id) :
    (applyAll ws d).exposure c cur ≤ d.exposure c cur := by
  rw [created_brief] at hcreate
  have hids : (applyAll ws d).transfers.map (·.id) = d.transfers.map (·.id) :=
    ids_of_cores (by rw [cores_applyAll, hcreate, List.map_nil, List.append_nil])
  rw [exposure_eq hwf, exposure_eq hwf', hids]
  exact List.sum_le_sum fun id _ => h id

/-- The operation creates transfers for the customer. -/
def Op.CreatesFor (c : Uuid) : Op → Prop
  | createTransfer _ session .. => session.customerId = c
  | _ => False

/-- The transfer is not there yet. -/
def New (t : TransferRow) (d : World) : Prop := ∀ t₀ ∈ d.transfers, t₀.id ≠ t.id

/-- What a change does to a customer's exposure: nothing but a new transfer raises it. -/
def Exposes (c : Uuid) (op : Op) (d d' : World) : Prop :=
  (∀ cur, d'.exposure c cur ≤ d.exposure c cur) ∨ op.CreatesFor c ∧ ∃ t ∈ d'.transfers, New t d ∧
    ∀ cur, d'.exposure c cur ≤
      d.exposure c cur + if t.sendCurrency = cur then t.sendAmountMinor else 0

section Commit

variable {A : Assumed} {op : Op} {ℓ : List Key} {ids : List ℕ}

theorem shareOf_congr {id : Uuid} {d' : World} (h : d'.transfer id = d.transfer id) :
    d'.shareOf c cur id = d.shareOf c cur id := by rw [World.shareOf, World.shareOf, h]

/-- A path leaves every transfer to count for no more. -/
theorem shareOf_path {t : TransferRow} {steps : List PathStep} {tail : List Write}
    (hm : Moves d ws t steps tail) (htail : tail = [] ∨ ∃ ev, tail = [.insertEvent ev])
    (h : NonNeg c d) (id : Uuid) : (applyAll ws d).shareOf c cur id ≤ d.shareOf c cur id := by
  by_cases hid : t.id = id
  · subst hid
    obtain ⟨t', ht', hcore, hst⟩ := hm.transfer htail
    rw [World.shareOf, World.shareOf, ht', hm.found]
    refine share_of_core hcore (fun hs => ?_) (h.transfers t (World.transfer_mem hm.found).1)
    exact counted_of_path hm.allowed (hst ▸ hs)
  · exact (shareOf_congr (hm.transfer_ne htail hid)).le

theorem created_path {t : TransferRow} {steps : List PathStep} {tail : List Write}
    (hm : Moves d ws t steps tail) (htail : tail = [] ∨ ∃ ev, tail = [.insertEvent ev]) :
    (brief ws).filterMap Write.created = [] :=
  hm.filterMap htail (fun _ => rfl) (fun _ => rfl) (fun _ _ _ => rfl) (fun _ => rfl) fun _ => rfl

theorem created_apart (ha : Apart ws) : (brief ws).filterMap Write.created = [] := by
  refine List.filterMap_eq_nil_iff.2 fun w hw => ?_
  have := ha.transfer w hw
  cases w <;> first | rfl | cases this

/-- A creation adds what the new transfer counts for. -/
theorem exposure_creation (hwf : Wf d) (hwf' : Wf (applyAll ws d)) (hv : Valid ℓ ids d ws)
    {state : AppState} {session : Session} {input : Service.CreateTransferInput} {body : String}
    {q : QuoteRow} {recipientId id : Uuid} {now : Time}
    (hc : Service.Creation state session input body d ws q recipientId id now) :
    (applyAll ws d).exposure c cur = d.exposure c cur +
      if session.customerId = c ∧ q.sendCurrency = cur then q.sendAmountMinor else 0 := by
  have hids : (applyAll ws d).transfers.map (·.id) = d.transfers.map (·.id) ++ [id] := by
    have h : (applyAll ws d).transfers.map (·.core) = (d.transfers ++
        [Service.Creation.row session input body q recipientId id now]).map (·.core) := by
      rw [cores_applyAll, ← created_brief, hc.brief, List.map_append]
      rfl
    rw [ids_of_cores h, List.map_append]
    rfl
  have hold : (d.transfers.map (·.id)).map ((applyAll ws d).shareOf c cur) =
      (d.transfers.map (·.id)).map (d.shareOf c cur) := by
    refine List.map_congr_left fun id' hid' => shareOf_congr (hc.transfer_ne fun he => ?_)
    obtain ⟨t, ht, rfl⟩ := List.mem_map.1 hid'
    exact (hc.unused hv).transfer t ht he.symm
  rw [exposure_eq hwf, exposure_eq hwf', hids, List.map_append, List.sum_append, hold,
    List.map_singleton, List.sum_singleton]
  congr 1
  obtain ⟨t, ht, hcore, hst⟩ := hc.transfer hv
  have hcust : t.customerId = session.customerId := TransferRow.customerId_of_core hcore
  have hcur : t.sendCurrency = q.sendCurrency := TransferRow.sendCurrency_of_core hcore
  have hamount : t.sendAmountMinor = q.sendAmountMinor :=
    TransferRow.sendAmountMinor_of_core hcore
  rw [World.shareOf, ht, Option.map_some, Option.getD_some, TransferRow.share, hcust, hcur,
    hamount, hst]
  simp only [show created ∈ countedStatuses by decide, and_true]

/-- Nothing but a creation for the customer raises what counts. -/
theorem Op.Commits.exposes (hk : op.Commits A d ws) (hwf : Wf d) (hwf' : Wf (applyAll ws d))
    (hv : Valid ℓ ids d ws) (h : NonNeg c d) : Exposes c op d (applyAll ws d) := by
  cases hk.kind with
  | path hm htail _ =>
    exact .inl fun cur =>
      exposure_le_of_shares hwf hwf' (created_path hm htail) (shareOf_path hm htail h)
  | apart ha =>
    exact .inl fun cur => exposure_le_of_shares hwf hwf' (created_apart ha) fun id =>
      (shareOf_congr (ha.transfer_eq id)).le
  | @create state session input body q recipientId id now hop hc =>
    obtain ⟨bodies, rfl⟩ := hop
    by_cases hcust : session.customerId = c
    · obtain ⟨t, ht, hcore, -⟩ := hc.transfer hv
      obtain ⟨hmem, hid⟩ := World.transfer_mem ht
      refine .inr ⟨hcust, t, hmem, fun t₀ ht₀ => hid ▸ (hc.unused hv).transfer t₀ ht₀,
        fun cur => ?_⟩
      rw [exposure_creation hwf hwf' hv hc,
        show t.sendCurrency = q.sendCurrency from TransferRow.sendCurrency_of_core hcore,
        show t.sendAmountMinor = q.sendAmountMinor from TransferRow.sendAmountMinor_of_core hcore]
      simp only [hcust, true_and]
      exact le_rfl
    · refine .inl fun cur => ?_
      rw [exposure_creation hwf hwf' hv hc, if_neg fun h => hcust h.1, add_zero]

/-- The transfers after a commit are those before it and those it creates. -/
theorem mem_transfers_applyAll {t : TransferRow} (ht : t ∈ (applyAll ws d).transfers) :
    (∃ t₀ ∈ d.transfers, t.core = t₀.core) ∨ ∃ row, .insertTransfer row ∈ ws ∧
      t.core = row.core := by
  have hmem := List.mem_map_of_mem (f := (·.core)) ht
  rw [cores_applyAll, List.mem_append] at hmem
  rcases hmem with hmem | hmem
  · obtain ⟨t₀, ht₀, hcore⟩ := List.mem_map.1 hmem
    exact .inl ⟨t₀, ht₀, hcore.symm⟩
  · obtain ⟨row, hrow, hcore⟩ := List.mem_map.1 hmem
    obtain ⟨w, hw, he⟩ := List.mem_filterMap.1 hrow
    cases w <;> cases he
    exact .inr ⟨row, hw, hcore.symm⟩

/-- What a commit inserts is a creation's row. -/
theorem Op.Commits.creation (hk : op.Commits A d ws) {row : TransferRow}
    (hrow : .insertTransfer row ∈ ws) :
    ∃ state session input body bodies q recipientId id now,
      op = .createTransfer state session input body bodies ∧
      Service.Creation state session input body d ws q recipientId id now ∧
      row = Service.Creation.row session input body q recipientId id now := by
  have hmem : row ∈ (brief ws).filterMap Write.created :=
    created_brief ws ▸ List.mem_filterMap.2 ⟨_, hrow, rfl⟩
  cases hk.kind with
  | path hm htail _ =>
    rw [created_path hm htail] at hmem
    cases hmem
  | apart ha =>
    rw [created_apart ha] at hmem
    cases hmem
  | @create state session input body q recipientId id now hop hc =>
    obtain ⟨bodies, hop⟩ := hop
    rw [hc.brief] at hmem
    exact ⟨state, session, input, body, bodies, q, recipientId, id, now, hop, hc,
      List.mem_singleton.1 hmem⟩

theorem NonNeg.commit (h : NonNeg c d) (hk : op.Commits A d ws) : NonNeg c (applyAll ws d) := by
  constructor
  · intro t ht hc
    rcases mem_transfers_applyAll ht with ⟨t₀, ht₀, hcore⟩ | ⟨row, hrow, hcore⟩
    · rw [TransferRow.sendAmountMinor_of_core hcore]
      exact h.transfers t₀ ht₀ ((TransferRow.customerId_of_core hcore).symm.trans hc)
    · obtain ⟨_, session, _, _, _, q, _, _, _, -, hcr, rfl⟩ := hk.creation hrow
      rw [show t.sendAmountMinor = q.sendAmountMinor from
        TransferRow.sendAmountMinor_of_core hcore]
      refine h.quotes q (List.mem_of_find?_eq_some hcr.quote) (hcr.customer.trans ?_)
      exact (TransferRow.customerId_of_core hcore).symm.trans hc
  · intro q hq hc
    obtain ⟨q₀, hq₀, hcore⟩ := quotes_applyAll ws d q hq
    rw [show q.sendAmountMinor = q₀.sendAmountMinor from
      (congrArg QuoteRow.sendAmountMinor hcore :)]
    exact h.quotes q₀ hq₀ (((congrArg QuoteRow.customerId hcore :) :
      q.customerId = q₀.customerId).symm.trans hc)

end Commit

/-! ### The creation -/

/-- The ceilings of a customer. -/
structure Ceilings where
  transfer : ℤ
  aggregate : ℤ

/-- The customer's own ceilings, else the configured ones. -/
def AppState.ceilings (state : AppState) (row : CustomerRow) : Ceilings :=
  ⟨row.maxTransferAmountMinor.getD state.maxTransferAmountMinor,
    row.maxAggregateExposureMinor.getD state.maxAggregateExposureMinor⟩

/-- With any quote of the customer, the sum that the code makes does not outgrow 64 bits. -/
def Roomy (c : Uuid) (d₀ d : World) : Prop :=
  ∀ q ∈ d₀.quotes, q.customerId = c → d.openExposure c q.sendCurrency + q.sendAmountMinor < 2 ^ 63

instance (c : Uuid) (d₀ d : World) : Decidable (Roomy c d₀ d) := by
  unfold Roomy
  infer_instance

/-- The quotes of a state were there before. -/
def QuotesOf (d₀ d : World) : Prop := ∀ q ∈ d.quotes, ∃ q₀ ∈ d₀.quotes, q.core = q₀.core

/-- What is known of every state: amounts are not negative, sums do not wrap, and the customer's row
and the quotes stay. -/
structure Fixed (c : Uuid) (row : CustomerRow) (d₀ d : World) : Prop where
  nonneg : NonNeg c d
  customer : d.customers.find? (fun r => r.id = c) = some row
  quotes : QuotesOf d₀ d
  roomy : Roomy c d₀ d

/-- The exposure has not grown. -/
def Lower (c : Uuid) (d d' : World) : Prop := ∀ cur, d'.exposure c cur ≤ d.exposure c cur

/-- What is inserted is within the ceilings. -/
def Within (c : Uuid) (lim : Ceilings) (d : World) (ws : List Write) : Prop :=
  ∀ row, .insertTransfer row ∈ ws → row.sendAmountMinor ≤ lim.transfer ∧
    d.exposure c row.sendCurrency + row.sendAmountMinor ≤ lim.aggregate

/-- Commits insert no transfer, or hold the customer's lock and are within the ceilings. -/
abbrev Capped (c : Uuid) (row : CustomerRow) (d₀ : World) (lim : Ceilings) {E A : Type}
    (Φ : A → Option World → List Write → Prop) (p : Prog World Write Key Label E A)
    (v : Option World) (ws : List Write) : Prop :=
  p.Secured (.customer c) (Fixed c row d₀) (Lower c) (fun ws => ∀ r, .insertTransfer r ∉ ws)
    (Within c lim) Φ v ws

theorem Lower.refl (c : Uuid) (d : World) : Lower c d d := fun _ => le_rfl

theorem Lower.trans {d₁ d₂ d₃ : World} (h : Lower c d₁ d₂) (h' : Lower c d₂ d₃) : Lower c d₁ d₃ :=
  fun cur => (h' cur).trans (h cur)

section Creation

variable {row : CustomerRow} {d₀ : World} {lim : Ceilings} {E A B : Type} {v : Option World}
  {x : World}

/-- A piece that writes nothing keeps what is known. -/
theorem capped_reads {p : Prog World Write Key Label E A} (hp : p.Adds fun _ => False) :
    Capped c row d₀ lim (fun _ v' ws' => ws' = ws ∧ ∀ x, v = some x →
      ∃ y, v' = some y ∧ Lower c x y)
      p v ws := by
  refine secured_mono (fun _ v' ws' h => ⟨?_, h.seen⟩)
    (secured_of_adds .trans hp (.refl (Lower.refl c) v ws))
  obtain ⟨us, rfl, hus⟩ := h.adds
  rw [List.eq_nil_iff_forall_not_mem.2 hus, List.append_nil]

/-- The customer's limits are read under the lock. -/
theorem capped_lockCustomerLimits :
    Capped c row d₀ lim (fun limits v' ws' => ws' = [] ∧ v'.isSome ∧
        limits = ⟨row.maxTransferAmountMinor, row.maxAggregateExposureMinor⟩)
      (Ledger.lockCustomerLimits c) v [] := by
  intro snap d hd
  rw [if_pos rfl, applyAll_nil]
  dsimp only
  rw [hd.1.customer]
  exact ⟨rfl, rfl, rfl⟩

theorem capped_toBigint {n : ℤ} {Φ : ℤ → Option World → List Write → Prop}
    (h : FitsI64 n → Φ n v ws) : Capped c row d₀ lim Φ (Ledger.toBigint n) v ws := by
  unfold Ledger.toBigint
  split
  case isTrue hfit => exact h hfit
  case isFalse => trivial

/-- A firm quote says what a quote of the customer does. -/
def Quoted (c : Uuid) (d₀ : World) (quote : FirmQuote) : Prop :=
  ∃ q ∈ d₀.quotes, q.customerId = c ∧ q.sendCurrency = quote.sendCurrency ∧
    q.sendAmountMinor = quote.breakdown.sendAmount.amountMinor ∧ 0 ≤ q.sendAmountMinor

/-- The quote that a creation finds was there before. -/
theorem capped_findById {id : Uuid} :
    Capped c row d₀ lim (fun quote _ ws' => ws' = ws ∧
        ∀ q, (quote.filter fun q => q.customerId = c) = some q → Quoted c d₀ q.firmQuote)
      (Quote.findById id) v ws := by
  intro d hd
  refine ⟨rfl, fun q hq => ?_⟩
  obtain ⟨hq, hc⟩ := Option.filter_eq_some_iff.1 hq
  obtain ⟨q₁, hq₁, rfl⟩ := Option.map_eq_some_iff.1 hq
  have hc : q₁.customerId = c := of_decide_eq_true hc
  have hmem := List.mem_of_find?_eq_some hq₁
  obtain ⟨q₀, hq₀, hcore⟩ := hd.1.quotes q₁ hmem
  have hamount : q₁.sendAmountMinor = q₀.sendAmountMinor :=
    (congrArg QuoteRow.sendAmountMinor hcore :)
  refine ⟨q₀, hq₀, ?_, (congrArg QuoteRow.sendCurrency hcore :).symm, hamount.symm, ?_⟩
  · exact ((congrArg QuoteRow.customerId hcore :) : q₁.customerId = _).symm.trans hc
  · exact hamount ▸ hd.1.nonneg.quotes q₁ hmem hc

/-- The exposure is read under the lock, and fits 64 bits. -/
theorem capped_customerOpenExposureMinor (cur : CurrencyCode) (hv : v.isSome) :
    Capped c row d₀ lim (fun n v' ws' => ws' = [] ∧ ∃ y, v' = some y ∧ Fixed c row d₀ y ∧
        n = y.openExposure c cur ∧ FitsI64 n)
      (Ledger.customerOpenExposureMinor c cur) v [] := by
  obtain ⟨x, rfl⟩ := Option.isSome_iff_exists.1 hv
  exact fun d hd => capped_toBigint fun hfit => ⟨rfl, d, rfl, hd.1, rfl, hfit⟩

open Service in
/-- What passes the check is within the ceilings of the state it looked at. -/
theorem capped_checkExposureLimits {state : AppState} {limits : Ledger.CustomerLimits}
    {quote : FirmQuote} (hquote : Quoted c d₀ quote) (hv : v.isSome)
    (hlim : lim = ⟨limits.maxTransferAmountMinor.getD state.maxTransferAmountMinor,
      limits.maxAggregateExposureMinor.getD state.maxAggregateExposureMinor⟩) :
    Capped c row d₀ lim (fun _ v' ws' => ws' = [] ∧ ∃ y, v' = some y ∧
        quote.breakdown.sendAmount.amountMinor ≤ lim.transfer ∧
        y.exposure c quote.sendCurrency + quote.breakdown.sendAmount.amountMinor ≤ lim.aggregate)
      (checkExposureLimits state c limits quote) v [] := by
  subst hlim
  unfold checkExposureLimits
  dsimp only
  split
  case isTrue => trivial
  case isFalse hmax =>
    refine secured_bind_of (capped_customerOpenExposureMinor quote.sendCurrency hv) ?_
    rintro n v₁ _ ⟨rfl, d, rfl, hd, rfl, hfit⟩
    obtain ⟨q, hq, hc, hcur, hamount, hpos⟩ := hquote
    -- There is room, so the sum does not wrap.
    have hroom := hd.roomy q hq hc
    rw [hcur, hamount] at hroom
    rw [hamount] at hpos
    rw [asI64_eq_iff.2 ⟨by have := hfit.1; omega, hroom⟩]
    split
    case isTrue => trivial
    case isFalse hagg =>
      refine ⟨rfl, d, rfl, not_lt.1 hmax, ?_⟩
      have := @exposure_le_open _ quote.sendCurrency _ hd.nonneg
      omega

/-- A write that inserts no transfer, or one with this amount. -/
def Inserts (cur : CurrencyCode) (amount : ℤ) (w : Write) : Prop :=
  ∀ r, w = .insertTransfer r → r.sendCurrency = cur ∧ r.sendAmountMinor = amount

theorem inserts_of_created {amount : ℤ} {w : Write} (h : w.created = none) :
    Inserts cur amount w := by
  rintro r rfl
  cases h

theorem adds_insert {V : Write → Prop} {conn : Conn} {input : Repo.InsertTransfer}
    (h : ∀ id, V (.insertTransfer (input.row id conn.now))) : (Repo.insert conn input).Adds V := by
  intro id _ _ _ _ _ _ d
  simp only [Prog.bind]
  split
  · trivial
  · exact ⟨h id, trivial⟩

open Service in
/-- The creation inserts what was checked. -/
theorem capped_insertTransfer {state : AppState} {conn : Conn} {session : Session}
    {input : CreateTransferInput} {quote : Quote.StoredQuote} {recipientId : Uuid} {body : String}
    (hmax : quote.firmQuote.breakdown.sendAmount.amountMinor ≤ lim.transfer)
    (hagg : x.exposure c quote.firmQuote.sendCurrency +
      quote.firmQuote.breakdown.sendAmount.amountMinor ≤ lim.aggregate) :
    Capped c row d₀ lim (fun _ _ ws' => ws' = [])
      (insertTransfer state conn session input quote recipientId body) (some x) [] := by
  simp only [insertTransfer, Prog.bind_eq, Prog.pure_eq, Tx.rollback, Tx.write, Tx.commit,
    Prog.bind]
  refine secured_bind_of (secured_of_adds .trans
    (adds_insert (V := Inserts quote.firmQuote.sendCurrency
    quote.firmQuote.breakdown.sendAmount.amountMinor) ?_) (.refl (Lower.refl c) (some x) []))
    fun r v₁ ws₁ h₁ => ?_
  · rintro id _ ⟨⟩
    exact ⟨rfl, rfl⟩
  cases r with
  | none =>
    -- The key or the reference is taken.
    intro d _
    simp only [Prog.pure_eq, Prog.bind]
    split
    · exact rfl
    · trivial
  | some id =>
  refine secured_bind_of (secured_of_adds .trans
    (adds_tryConsume (fun _ _ => inserts_of_created rfl) _ _) h₁) fun ok v₂ ws₂ h₂ => ?_
  split
  case isFalse => trivial
  case isTrue =>
  refine secured_bind_of (secured_of_adds .trans
    (adds_setSettlementRef (fun _ _ => inserts_of_created rfl) _ _) h₂) fun _ v₃ ws₃ h₃ => ?_
  refine secured_bind_of (secured_of_adds .trans
    (adds_appendHistory (fun _ => inserts_of_created rfl) _ _ _ _) h₃) fun _ v₄ ws₄ h₄ => ?_
  obtain ⟨y, rfl, hxy⟩ := h₄.seen x rfl
  obtain ⟨us, rfl, hus⟩ := h₄.adds
  refine ⟨.inr ⟨rfl, fun d hd r hr => ?_⟩, rfl⟩
  rcases List.mem_append.1 hr with hr | hr
  · obtain ⟨hcur, hamount⟩ := hus _ (by simpa using hr) r rfl
    have hlow := (hxy.trans (hd.2 y rfl)) r.sendCurrency
    rw [hcur] at hlow
    rw [hcur, hamount]
    exact ⟨hmax, by omega⟩
  · cases List.mem_singleton.1 hr

/-- The engine inserts no transfer. -/
theorem basic_created : Walks.Basic (fun w => w.created = none) fun _ => True where
  write w hw _ := by cases w <;> first | rfl | cases hw
  lock _ _ := trivial
  rows _ _ := rfl

open Service in
/-- A creation for the customer commits what its check of the limits allows. -/
theorem capped_createTransfer {state : AppState} {session : Session} {input : CreateTransferInput}
    {body : String} {bodies : ℕ → String} (hc : session.customerId = c)
    (hlim : lim = state.ceilings row) :
    Capped c row d₀ lim (fun _ _ _ => True) (createTransfer state session input body bodies) none
      [] := by
  subst hc hlim
  have hfind : ∀ key, (Repo.findByIdempotencyKey session.customerId key).Adds fun _ => False :=
    fun _ _ => trivial
  unfold createTransfer
  generalize Util.byteLen (Util.trim input.idempotencyKey) = len
  split
  case isTrue => trivial
  refine secured_bind_of (capped_reads (hfind _)) ?_
  rintro existing v₁ _ ⟨rfl, -⟩
  split
  case h_1 => trivial
  refine secured_bind_of capped_findById ?_
  rintro found v₂ _ ⟨rfl, hquote⟩
  split
  case h_1 => trivial
  case h_2 quote hfound =>
  have hquote := hquote quote hfound
  refine secured_bind_of (capped_reads (p := Tx.query) fun _ => trivial) ?_
  rintro d v₃ _ ⟨rfl, -⟩
  split
  case isTrue => trivial
  refine secured_bind_of (capped_reads (p := Tx.query) fun _ => trivial) ?_
  rintro d v₄ _ ⟨rfl, -⟩
  split
  case h_1 => trivial
  case h_2 recipient _ =>
  refine secured_bind_of (capped_reads (p := begin) fun _ => trivial) ?_
  rintro conn v₅ _ ⟨rfl, -⟩
  refine secured_bind_of capped_lockCustomerLimits ?_
  rintro limits v₆ _ ⟨rfl, hv₆, rfl⟩
  obtain ⟨x, rfl⟩ := Option.isSome_iff_exists.1 hv₆
  refine secured_bind_of (capped_reads (hfind _)) ?_
  rintro again v₇ _ ⟨rfl, hv₇⟩
  obtain ⟨y, rfl, -⟩ := hv₇ x rfl
  split
  case h_1 => exact trivial
  refine secured_bind_of (capped_checkExposureLimits hquote rfl rfl) ?_
  rintro _ v₈ _ ⟨rfl, z, rfl, hmax, hagg⟩
  refine secured_bind_of (capped_insertTransfer hmax hagg) ?_
  rintro inserted v₉ _ rfl
  split
  case h_1 => trivial
  case h_2 id =>
  refine secured_bind_of (secured_of_writes (fun ws h r hr => nomatch h _ hr)
    (Walks.advanceToAwaitingFunds basic_created ..).writes (by simp)) fun _ v₁₀ ws₁₀ h₁₀ => ?_
  refine secured_bind_of (capped_reads (p := Repo.findById _) fun _ => trivial) ?_
  rintro found v₁₁ ws₁₁ -
  split <;> trivial

/-- One configuration serves all creations. -/
def Op.Configured (state : AppState) : Op → Prop
  | createTransfer state' .. => state'.maxTransferAmountMinor = state.maxTransferAmountMinor ∧
      state'.maxAggregateExposureMinor = state.maxAggregateExposureMinor
  | _ => True

theorem capped_prog {op : Op} {state : AppState} (hop : op.CreatesFor c)
    (hcfg : op.Configured state) :
    Capped c row d₀ (state.ceilings row) (fun _ _ _ => True) op.prog none [] := by
  cases op with
  | createTransfer state' session input body bodies =>
    obtain ⟨hmax, hagg⟩ := hcfg
    have hlim : state.ceilings row = state'.ceilings row := by
      rw [AppState.ceilings, AppState.ceilings, hmax, hagg]
    exact secured_bind_of (secured_mapError.2 (capped_createTransfer hop hlim))
      fun _ _ _ _ => trivial
  | _ => exact hop.elim

end Creation

/-! ### Runs -/

theorem customers_applyAll (ws : List Write) (d : World) :
    (applyAll ws d).customers = d.customers := by
  induction ws generalizing d with
  | nil => rfl
  | cons w ws ih => cases w <;> exact ih _

/-- A customer is within the ceilings, and so are the transfers made since. -/
structure Ceiled (c : Uuid) (row : CustomerRow) (lim : Ceilings) (d₀ d : World) : Prop where
  nonneg : NonNeg c d
  customer : d.customers.find? (fun r => r.id = c) = some row
  quotes : QuotesOf d₀ d
  aggregate : ∀ cur, d.exposure c cur ≤ lim.aggregate
  transfer : ∀ t ∈ d.transfers, t.customerId = c → New t d₀ → t.sendAmountMinor ≤ lim.transfer

theorem Ceiled.fixed {row : CustomerRow} {lim : Ceilings} {d₀ : World} (h : Ceiled c row lim d₀ d)
    (hroom : Roomy c d₀ d) : Fixed c row d₀ d := ⟨h.nonneg, h.customer, h.quotes, hroom⟩

/-- Every new transfer was checked under the lock. -/
def Admits (c : Uuid) (lim : Ceilings) (ℓ : List Key) (d d' : World) : Prop :=
  ∀ t ∈ d'.transfers, New t d → .customer c ∈ ℓ ∧ t.sendAmountMinor ≤ lim.transfer ∧
    d.exposure c t.sendCurrency + t.sendAmountMinor ≤ lim.aggregate

section Runs

variable {ι : Type} [DecidableEq ι] {ops : ι → Op} {d₀ : World} {row : CustomerRow}
  {lim : Ceilings} {state : AppState}

/-- The creations for the customer go on to commit what their checks allow. -/
def AllCapped (c : Uuid) (row : CustomerRow) (d₀ : World) (lim : Ceilings) (ops : ι → Op)
    (s : Sys ι World Write Key Label Failure Answer) : Prop :=
  ∀ i, (ops i).CreatesFor c → (s.calls i).Secured (.customer c) (Fixed c row d₀) (Lower c)
    (fun ws => ∀ r, .insertTransfer r ∉ ws) (Within c lim) (fun _ _ _ => True) s.shared

theorem admits_of_step {i : ι} {s s' : Sys ι World Write Key Label Failure Answer}
    (h : AllCapped c row d₀ lim ops s) (hf : Fixed c row d₀ s.shared) (hop : (ops i).CreatesFor c)
    (hst : Step Env (.go i) s s') : Admits c lim (s.calls i).locks s.shared s'.shared := by
  obtain ⟨free, -, d', call, hn, rfl⟩ := hst
  obtain ⟨-, rfl | rfl | ⟨ws, rfl, hws⟩⟩ :=
    Call.secured_cases (Lower.refl c) (fun h => h) hf (h i hop) hn
  · exact fun t ht hnew => absurd rfl (hnew t ht)
  · exact fun t ht hnew => absurd rfl (hnew t ht)
  · intro t ht hnew
    rcases mem_transfers_applyAll ht with ⟨t₀, ht₀, hcore⟩ | ⟨r, hr, hcore⟩
    · exact absurd (TransferRow.id_of_core hcore).symm (hnew t₀ ht₀)
    · rcases hws with hno | ⟨hlock, hin⟩
      · exact absurd hr (hno r)
      · rw [TransferRow.sendCurrency_of_core hcore, TransferRow.sendAmountMinor_of_core hcore]
        exact ⟨hlock, hin r hr⟩

/-- While a creation holds the customer's lock, what counts does not grow. -/
theorem respects_of_step (hwf : Wf d₀) {e : Event ι} {j : ι}
    {s s' : Sys ι World Write Key Label Failure Answer} (hr : Reach (Step Env) (system ops d₀) s)
    (h : AllCapped c row d₀ lim ops s) (hf : Fixed c row d₀ s.shared) (hst : Step Env e s s') :
    Respects (.customer c) (Lower c) j e s s' := by
  intro hne hk
  have hok := sysOk_of_reach (A := noAssumption) lax_anyChange granted_noAssumption hwf
    (hr.mono fun _ _ _ h => stepIf_of_step h)
  have hwf₁ := wf_of_reach hwf hr
  have hwf₂ := wf_of_reach hwf (hr.tail ⟨e, hst⟩)
  have hm := moved_of_reach hwf hr hst
  generalize hs' : s'.shared = d at hm hwf₂
  cases hm with
  | env d he => cases he <;> exact .refl c _
  | crash i => exact .refl c _
  | go i d hbelow hch =>
    rcases hch with rfl | rfl | ⟨ws, rfl, hv, hc⟩
    · exact .refl c _
    · exact .refl c _
    · rcases Op.Commits.exposes hc hwf₁ hwf₂ hv hf.nonneg with hle | ⟨hop, t, ht, hnew, -⟩
      · exact hle
      · -- A creation would hold the same lock at the same time.
        obtain ⟨hlock, -⟩ := admits_of_step h hf hop hst t (hs' ▸ ht) hnew
        exact absurd hk (hok.locks i j (fun he => hne (he ▸ rfl)) _ hlock)

/-- One step keeps the customer within the ceilings. -/
theorem Ceiled.step (hwf : Wf d₀) {e : Event ι} {s s' : Sys ι World Write Key Label Failure Answer}
    (hr : Reach (Step Env) (system ops d₀) s) (h : AllCapped c row d₀ lim ops s)
    (hi : Ceiled c row lim d₀ s.shared) (hroom : Roomy c d₀ s.shared) (hst : Step Env e s s') :
    Ceiled c row lim d₀ s'.shared := by
  have hf := hi.fixed hroom
  have hwf₁ := wf_of_reach hwf hr
  have hwf₂ := wf_of_reach hwf (hr.tail ⟨e, hst⟩)
  have hm := moved_of_reach hwf hr hst
  generalize hs' : s'.shared = d at hm hwf₂ ⊢
  cases hm with
  | env d he =>
    cases he <;>
      exact ⟨⟨hi.nonneg.1, hi.nonneg.2⟩, hi.customer, hi.quotes, hi.aggregate, hi.transfer⟩
  | crash i => exact hi
  | go i d hbelow hch =>
    rcases hch with rfl | rfl | ⟨ws, rfl, hv, hc⟩
    · exact hi
    · exact ⟨⟨hi.nonneg.1, hi.nonneg.2⟩, hi.customer, hi.quotes, hi.aggregate, hi.transfer⟩
    -- A new transfer was checked under the lock against the state it is added to.
    have hadm : ∀ t ∈ (applyAll ws s.shared).transfers, (ops i).CreatesFor c → New t s.shared → _ :=
      fun t ht hop hnew => (admits_of_step h hf hop hst t (hs' ▸ ht) hnew).2
    refine ⟨hi.nonneg.commit hc, (customers_applyAll ..).symm ▸ hi.customer, fun q hq => ?_,
      fun cur => ?_, fun t ht hcust hnew => ?_⟩
    · obtain ⟨q₁, hq₁, hcore⟩ := quotes_applyAll ws s.shared q hq
      obtain ⟨q₀, hq₀, hcore₀⟩ := hi.quotes q₁ hq₁
      exact ⟨q₀, hq₀, hcore.trans hcore₀⟩
    · rcases Op.Commits.exposes hc hwf₁ hwf₂ hv hi.nonneg with hle | ⟨hop, t, ht, hnew, hle⟩
      · exact (hle cur).trans (hi.aggregate cur)
      · obtain ⟨-, hagg⟩ := hadm t ht hop hnew
        refine (hle cur).trans ?_
        split
        case isTrue hcur => exact hcur ▸ hagg
        case isFalse => simpa using hi.aggregate cur
    · rcases mem_transfers_applyAll ht with ⟨t₀, ht₀, hcore⟩ | ⟨r, hr', hcore⟩
      · rw [TransferRow.sendAmountMinor_of_core hcore]
        refine hi.transfer t₀ ht₀ ((TransferRow.customerId_of_core hcore).symm.trans hcust) ?_
        exact fun t₁ ht₁ => TransferRow.id_of_core hcore ▸ hnew t₁ ht₁
      · obtain ⟨state, session, input, body, bodies, q, recipientId, id, now, hop, hcr, rfl⟩ :=
          Op.Commits.creation hc hr'
        have hfor : (ops i).CreatesFor c := by
          rw [hop]
          exact (TransferRow.customerId_of_core hcore).symm.trans hcust
        refine (hadm t ht hfor fun t₁ ht₁ => ?_).1
        rw [TransferRow.id_of_core hcore]
        exact (hcr.unused hv).transfer t₁ ht₁

theorem ceiled_of_reach (hwf : Wf d₀) (hcfg : ∀ i, (ops i).Configured state)
    (h₀ : Ceiled c row (state.ceilings row) d₀ d₀)
    {s : Sys ι World Write Key Label Failure Answer}
    (hr : Reach (fun e s s' => Step Env e s s' ∧ Roomy c d₀ s.shared) (system ops d₀) s) :
    Ceiled c row (state.ceilings row) d₀ s.shared := by
  refine (hr.invariant (I := fun s => Ceiled c row (state.ceilings row) d₀ s.shared ∧
    AllCapped c row d₀ (state.ceilings row) ops s) ⟨h₀, fun i hop => ?_⟩ ?_).1
  · exact Call.secured_settle (capped_prog hop (hcfg i)) nofun nofun
  · rintro s₁ e s₂ hr₁ ⟨hi, hcalls⟩ ⟨hst, hroom⟩
    have hr₁ : Reach (Step Env) (system ops d₀) s₁ := hr₁.mono fun _ _ _ h => h.1
    refine ⟨hi.step hwf hr₁ hcalls hroom hst, fun i hop => ?_⟩
    -- The others lower what counts, so each creation may rely on what it read.
    exact stays_secured (Lower.refl c) .trans (fun h => h) (hi.fixed hroom) (hcalls i hop)
      (respects_of_step hwf hr₁ hcalls (hi.fixed hroom) hst) hst

/-- **The ceiling holds**: while no quote and no transfer of a customer has a negative amount, the
customer's open transfers in a currency add up to at most the aggregate ceiling, and each new one
is at most the ceiling for one transfer, in every state of a run in which what is under way leaves
room for each of the customer's quotes. -/
theorem exposure_le_of_reach (hwf : Wf d₀) (hpos : NonNeg c d₀)
    (hrow : d₀.customers.find? (fun r => r.id = c) = some row)
    (hcfg : ∀ i, (ops i).Configured state)
    (h₀ : ∀ cur, d₀.exposure c cur ≤ (state.ceilings row).aggregate)
    {s : Sys ι World Write Key Label Failure Answer}
    (hr : Reach (fun e s s' => Step Env e s s' ∧ Roomy c d₀ s.shared) (system ops d₀) s) :
    (∀ cur, s.shared.exposure c cur ≤ (state.ceilings row).aggregate) ∧
      ∀ t ∈ s.shared.transfers, t.customerId = c → New t d₀ →
        t.sendAmountMinor ≤ (state.ceilings row).transfer := by
  have h := ceiled_of_reach hwf hcfg
    ⟨hpos, hrow, fun q hq => ⟨q, hq, rfl⟩, h₀, fun t ht _ hnew => absurd rfl (hnew t ht)⟩ hr
  exact ⟨h.aggregate, h.transfer⟩

/-- A customer who may have 150 dollars under way, and two quotes of 100 dollars. -/
def ceiledWorld : World := { sampleWorld "NG" with customers := [⟨1, none, some 15000⟩] }

/-- The customer accepts both quotes. -/
def bothOps : Fin 2 → Op
  | 0 => sampleCreate false "transfer" 3
  | 1 => sampleCreate false "another-transfer" 4

theorem wf_ceiledWorld : Wf ceiledWorld :=
  .of_new rfl rfl rfl rfl rfl rfl rfl (by simp [ceiledWorld, sampleWorld, sampleQuote])
    (by simp [ceiledWorld, sampleWorld, sampleQuote])

theorem nonNeg_ceiledWorld : NonNeg 1 ceiledWorld :=
  ⟨by simp [ceiledWorld, sampleWorld], by simp [ceiledWorld, sampleWorld, sampleQuote]⟩

theorem configured_bothOps : ∀ i, (bothOps i).Configured (sampleState false) :=
  Fin.forall_fin_two.2 ⟨⟨rfl, rfl⟩, rfl, rfl⟩

/-- The second creation begins before the first one locks the customer, and is refused. -/
theorem exposure_le_of_both :
    ∃ s t, Reach (Step Env) (system bothOps ceiledWorld) s ∧ s.shared.transfers = [t] ∧
      t.sendAmountMinor ≤ 1000000 ∧ s.shared.exposure 1 .usd ≤ 15000 := by
  have hrun : (playChecked (fun _ s => decide (Roomy 1 ceiledWorld s.shared)) [0, 1]
      (schedule [(1, 6), (0, 41), (1, 3)]) (system bothOps ceiledWorld)).any (fun s =>
        s.shared.transfers.length = 1 &&
          s.shared.transfers.all fun t => t.customerId = 1) = true := by
    decide +kernel
  obtain ⟨s, hs, hend⟩ := (Option.any_eq_true ..).1 hrun
  have hr : Reach (fun e s s' => Step Env e s s' ∧ Roomy 1 ceiledWorld s.shared)
      (system bothOps ceiledWorld) s :=
    (reach_of_playChecked (by decide) (env_schedule _) hs).mono
      fun _ _ _ h => ⟨h.1, of_decide_eq_true h.2⟩
  obtain ⟨hlen, hall⟩ := (Bool.and_eq_true ..).mp hend
  obtain ⟨t, ht⟩ := List.length_eq_one_iff.1 (of_decide_eq_true hlen)
  obtain ⟨hagg, hmax⟩ := exposure_le_of_reach (c := 1) wf_ceiledWorld
    nonNeg_ceiledWorld rfl configured_bothOps (fun _ => show (0 : ℤ) ≤ 15000 by decide) hr
  refine ⟨s, t, hr.mono fun _ _ _ h => h.1, ht,
    hmax t (by simp [ht]) ?_ (by simp [New, ceiledWorld, sampleWorld]),
    hagg .usd⟩
  exact of_decide_eq_true (List.all_eq_true.1 hall t (by simp [ht]))

end Runs

/-! ### A quote whose amount wrapped -/

/-- More dollars to be received than a naira amount of 64 bits pays for. -/
def wrapBody : Quote.RequestFirmQuoteBody :=
  { sendCurrency := "NGN", receiveCurrency := "USD", amount := ⟨11990383647911203, .usd⟩
    amountField := .receive }

/-- A customer who may have 150 naira under way, and a quote of 200 naira. -/
def nairaWorld : World :=
  { sampleWorld "NG" with
    customers := [⟨1, none, some 15000⟩]
    quotes := [{ sampleQuote 3 with sendCurrency := .ngn, receiveCurrency := .usd
                                    sendAmountMinor := 20000, receiveAmountMinor := 13 }] }

/-- The quote that is stored: its send amount wrapped. -/
def wrappedQuote : QuoteRow :=
  { sampleQuote 100 with
    sendCurrency := .ngn
    receiveCurrency := .usd
    rate := 65000
    sendAmountMinor := -8540
    receiveAmountMinor := 11990383647911203 }

/-- The database once the quote is stored. -/
def wrappedWorld : World :=
  { nairaWorld with nextId := 101, quotes := nairaWorld.quotes ++ [wrappedQuote] }

/-- The customer accepts both quotes, and the transfer of the wrapped amount expires. -/
def wrappedOps : Fin 3 → Op
  | 0 => sampleCreate false "negative" 100
  | 1 => sampleCreate false "transfer" 3
  | 2 => .expireTransfer 101 none

/-- A quote is stored with a negative send amount, its transfer makes room for one above the
ceiling, and leaves. -/
theorem exposure_gt_of_wrapped :
    (∃ quote, Quote.requestFirmQuote 1000 sampleSession wrapBody
      (fun _ _ => .ok ⟨65000, .live⟩) nairaWorld = .ok (quote, wrappedWorld)) ∧
    (∀ cur, wrappedWorld.exposure 1 cur ≤ 15000) ∧
    ∃ s, Reach (Step Env) (system wrappedOps wrappedWorld) s ∧
      15000 < s.shared.exposure 1 .ngn := by
  refine ⟨⟨_, rfl⟩, fun _ => show (0 : ℤ) ≤ 15000 by decide, ?_⟩
  obtain ⟨s, hr, hs⟩ := exists_reach wrappedOps wrappedWorld [0, 1, 2] [(0, 41), (1, 41), (2, 5)]
    (fun s => 15000 < s.shared.exposure 1 .ngn) (by decide) (by decide +kernel)
  exact ⟨s, hr, of_decide_eq_true hs⟩

end Kimana
