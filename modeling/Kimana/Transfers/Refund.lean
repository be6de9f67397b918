import Kimana.Op.Funds
import Kimana.Transfers.Position
import Mathlib.Data.Fintype.Basic
import Mathlib.Tactic.FinCases

/-!
# Refunds on-chain

A payout that fails comes back as events of the vault: after the settlement, the money returns to
the treasury and is then refunded.  Each event is applied at least once, while the backend goes on
driving the transfer and an operator may reverse it.

* `Unwound` : the entries of a funded transfer, by its status.
* `Refundable` : the amounts of a transfer have negations, and 64 bits hold its customer's balances.
* `refunded_of_reach` : **once the refund is applied** a refundable transfer is `REVERSED` and has
  cost nothing, in every run in which the events first come in their order; and no event fails.
* `not_refunded_of_min` : a transfer of the amount that has no negation.
-/

namespace Kimana

open ReadCommitted Table Util Engine TransferStatus

/-! ### Entries by status -/

/-- The debit that funds a transfer. -/
def debit (t : TransferRow) : LedgerEntry :=
  entryOf t t.sendCurrency (negI64 t.sendAmountMinor) "funded"

/-- The credit of the conversion. -/
def credit (t : TransferRow) : LedgerEntry :=
  entryOf t t.receiveCurrency t.receiveAmountMinor "converted"

/-- The credit that closes a reversal. -/
def refund (t : TransferRow) : LedgerEntry :=
  entryOf t t.sendCurrency t.sendAmountMinor "reversed"

/-- An entry that takes the converted money out again: a payout, or the conversion undone. -/
def TakesOut (t : TransferRow) (e : LedgerEntry) : Prop :=
  ∃ what, e = entryOf t t.receiveCurrency (negI64 t.receiveAmountMinor) what

/-- The entries of a funded transfer that is not rejected. -/
def Unwound (t : TransferRow) (s : TransferStatus) (es : List LedgerEntry) : Prop :=
  match s with
  | .funded | .settling => es = [debit t]
  | .settled | .payingOut => es = [debit t, credit t]
  | .completed | .reversing => ∃ out, TakesOut t out ∧ es = [debit t, credit t, out]
  | .reversed => ∃ out, TakesOut t out ∧ es = [debit t, credit t, out, refund t]
  | _ => False

variable {t t₀ : TransferRow} {s : TransferStatus} {es : List LedgerEntry}

/-- One transition. -/
theorem Unwound.step (h : Unwound t s es) {st : PathStep} (hall : st.target ∈ s.allowed)
    (hrej : st.target ≠ .rejected) :
    Unwound t st.target (es ++ (refundFor t st.target ++ legFor t st.payee s st.target)) := by
  obtain ⟨target, payload, payee⟩ := st
  cases s <;> simp only [Unwound] at h <;>
    simp only [allowed, List.mem_cons, List.not_mem_nil, or_false] at hall
  case funded | settling =>
    obtain rfl := hall.resolve_right hrej
    subst h
    rfl
  case settled =>
    subst h
    rcases hall with rfl | rfl
    · rfl
    · exact ⟨_, ⟨_, rfl⟩, rfl⟩
  case payingOut =>
    subst h
    rcases hall with rfl | rfl
    · exact ⟨_, ⟨_, rfl⟩, rfl⟩
    · exact ⟨_, ⟨_, rfl⟩, rfl⟩
  case completed | reversing =>
    obtain ⟨out, hout, rfl⟩ := h
    subst hall
    exact ⟨out, hout, rfl⟩

/-- A path that does not reject. -/
theorem Unwound.path {steps : List PathStep} (h : Unwound t s es)
    (hp : pathAllowed s (steps.map (·.target)) = true)
    (hrej : .rejected ∉ steps.map (·.target)) :
    Unwound t (pathEnd s steps) (es ++ pathEntries t s steps) := by
  induction steps generalizing s es with
  | nil => simpa [pathEntries] using h
  | cons st steps ih =>
    simp only [List.map_cons, pathAllowed, Bool.and_eq_true, decide_eq_true_eq] at hp
    simp only [List.map_cons, List.mem_cons, not_or] at hrej
    have := ih (h.step hp.1 (Ne.symm hrej.1)) hp.2 hrej.2
    simpa [pathEntries] using this

/-- What a reversed transfer has cost. -/
theorem Unwound.net (h : Unwound t .reversed es) (hneg : Negatable t .reversed)
    (c : CurrencyCode) : net es c = 0 := by
  obtain ⟨out, ⟨what, rfl⟩, rfl⟩ := h
  simp only [debit, credit, refund, entryOf, Ledger.posted, net_cons, net_nil,
    negI64_of_ne (hneg.1 (by decide)), negI64_of_ne (hneg.2 (by decide))]
  by_cases hs : t.sendCurrency = c <;> by_cases hr : t.receiveCurrency = c <;>
    simp [hs, hr]

/-- The entries come in one order. -/
theorem Unwound.isPrefix (h : Unwound t s es) :
    ∃ out, TakesOut t out ∧ es <+: [debit t, credit t, out, refund t] := by
  have hout : TakesOut t (entryOf t t.receiveCurrency (negI64 t.receiveAmountMinor) "") :=
    ⟨_, rfl⟩
  cases s <;> simp only [Unwound] at h
  case funded | settling => exact ⟨_, hout, _, by rw [h]; rfl⟩
  case settled | payingOut => exact ⟨_, hout, _, by rw [h]; rfl⟩
  case completed | reversing | reversed =>
    obtain ⟨out, hout, rfl⟩ := h
    exact ⟨out, hout, _, rfl⟩

/-- A transfer can be refunded: its amounts have negations, and with and without the converted money
64 bits hold what the customer has. -/
structure Refundable (d : World) (t : TransferRow) : Prop where
  send : t.sendAmountMinor ≠ -2 ^ 63
  receive : t.receiveAmountMinor ≠ -2 ^ 63
  sent : FitsI64 (d.funds t.customerId (.fiat t.sendCurrency))
  owned : FitsI64 (d.funds t.customerId (.fiat t.receiveCurrency))
  converted : FitsI64 (d.funds t.customerId (.fiat t.receiveCurrency) + t.receiveAmountMinor)

instance (d : World) (t : TransferRow) : Decidable (Refundable d t) :=
  decidable_of_iff (t.sendAmountMinor ≠ -2 ^ 63 ∧ t.receiveAmountMinor ≠ -2 ^ 63 ∧
      FitsI64 (d.funds t.customerId (.fiat t.sendCurrency)) ∧
      FitsI64 (d.funds t.customerId (.fiat t.receiveCurrency)) ∧
      FitsI64 (d.funds t.customerId (.fiat t.receiveCurrency) + t.receiveAmountMinor))
    ⟨fun h => ⟨h.1, h.2.1, h.2.2.1, h.2.2.2.1, h.2.2.2.2⟩,
      fun h => ⟨h.send, h.receive, h.sent, h.owned, h.converted⟩⟩

theorem Refundable.negatable {d : World} (h : Refundable d t) : Negatable t s :=
  ⟨fun _ => h.send, fun _ => h.receive⟩

/-- Each posting finds a balance that 64 bits hold. -/
theorem Refundable.fits {d : World} (h : Refundable d t) {out e : LedgerEntry}
    (hout : TakesOut t out) (hpre : es ++ [e] <+: [credit t, out, refund t]) :
    FitsI64 (d.funds t.customerId e.currency + netIn es e.currency) := by
  obtain ⟨what, rfl⟩ := hout
  have hneg := negI64_of_ne h.receive
  rcases es with _ | ⟨x, _ | ⟨y, _ | ⟨z, es⟩⟩⟩ <;>
    simp only [List.nil_append, List.cons_append, List.cons_prefix_cons] at hpre
  · obtain ⟨rfl, -⟩ := hpre
    simpa [credit, entryOf, Ledger.posted] using h.owned
  · obtain ⟨rfl, rfl, -⟩ := hpre
    simpa [credit, entryOf, Ledger.posted] using h.converted
  · obtain ⟨rfl, rfl, rfl, -⟩ := hpre
    have hnone : netIn [credit t, entryOf t t.receiveCurrency (negI64 t.receiveAmountMinor) what]
        (.fiat t.sendCurrency) = 0 := by
      simp only [credit, entryOf, Ledger.posted, hneg, netIn_cons, netIn_nil]
      split <;> simp
    rw [show (refund t).currency = .fiat t.sendCurrency from rfl, hnone, add_zero]
    exact h.sent
  · simp at hpre

/-! ### The calls -/

/-- The calls about a transfer: steps of `advanceOnce`, reversals, and events of a settlement that
comes back. -/
def Unwinds (id : Uuid) (op : Op) : Prop :=
  (∃ state actor body, op = .advanceOnce state id actor body) ∨
    (∃ reason actor, op = .reverseTransfer id reason actor) ∨
    ∃ target payload, op = .applyOnchain id target payload ∧
      target ∈ [.settled, .reversing, .reversed]

variable {A : Assumed} {op : Op} {d : World} {ws : List Write} {id : Uuid}

/-- Such a call takes the transfer along a path. -/
theorem Unwinds.moves (hop : Unwinds id op) (hk : op.Commits A d ws) : ∃ t steps, t.id = id ∧
    Moves d ws t steps [] ∧ op.Takes A d ws t steps ∧ (steps = [] → ws = []) := by
  obtain ⟨state, actor, body, rfl⟩ | ⟨reason, actor, rfl⟩ | ⟨target, payload, rfl, -⟩ := hop
  · obtain ⟨t, steps, hid, hm, hadv⟩ := hk
    refine ⟨t, steps, hid, hm, ⟨hid, hadv⟩, fun hnil => ?_⟩
    subst hnil
    cases hadv with
    | stay hws => exact hws
  · obtain ⟨t, steps, hid, hm, htargets, hplain⟩ := hk
    refine ⟨t, steps, hid, hm, ⟨hid, htargets, hplain⟩, fun hnil => ?_⟩
    subst hnil
    cases htargets
  · obtain ⟨t, steps, hid, hm, hsteps, hquiet⟩ := hk
    exact ⟨t, steps, hid, hm, ⟨hid, hsteps, hquiet⟩, hquiet⟩

theorem rejected_not_mem_onchainPath {target : OnchainTarget} (s : TransferStatus)
    (h : target ∈ [.settled, .reversing, .reversed]) : .rejected ∉ onchainPath target s := by
  simp only [List.mem_cons, List.not_mem_nil, or_false] at h
  rcases h with rfl | rfl | rfl <;> cases s <;> decide

/-- It does not reject a funded transfer. -/
theorem Unwinds.not_rejected (hop : Unwinds id op) {steps : List PathStep}
    (h : op.Takes A d ws t steps) (hu : Unwound t₀ t.currentStatus es) :
    .rejected ∉ steps.map (·.target) := by
  obtain ⟨state, actor, body, rfl⟩ | ⟨reason, actor, rfl⟩ | ⟨target, payload, rfl, ht⟩ := hop
  · obtain ⟨-, hadv⟩ := h
    cases hadv with
    | stay => simp
    | forward st hf =>
      intro hrej
      have hrej : .rejected = st.target := List.mem_singleton.1 hrej
      rw [← hrej] at hf
      cases hs : t.currentStatus <;> rw [hs] at hf <;> cases hf
    | reject payee hs =>
      rw [hs] at hu
      exact hu.elim
  · rw [h.2.1]
    decide
  · rcases h.2.1.path with hp | ⟨rfl, -⟩
    · rw [hp]
      exact rejected_not_mem_onchainPath _ ht
    · simp

/-- A funded transfer in a state of its unwinding, and what has come in since a state in which it
was only debited. -/
def UnwoundIn (d₀ : World) (t₀ : TransferRow) (d : World) : Prop :=
  ∃ t es, d.transfer t₀.id = some t ∧ t.core = t₀.core ∧
    (d.entriesOfTransfer t₀.id).map .strip = debit t₀ :: es ∧
    Unwound t₀ t.currentStatus (debit t₀ :: es) ∧
    ∀ cur, d.funds t₀.customerId cur = d₀.funds t₀.customerId cur + netIn es cur

theorem UnwoundIn.env {d₀ d' : World} (h : UnwoundIn d₀ t₀ d) (he : Env d d') :
    UnwoundIn d₀ t₀ d' := by
  cases he <;> exact h

theorem UnwoundIn.commit {d₀ : World} (h : UnwoundIn d₀ t₀ d) (hwf : Wf d)
    (hwf' : Wf (applyAll ws d)) (hop : Unwinds t₀.id op) (hk : op.Commits A d ws) :
    UnwoundIn d₀ t₀ (applyAll ws d) := by
  obtain ⟨t, es, ht, hcore, hes, hu, hfunds⟩ := h
  obtain ⟨t₁, steps, hid, hm, htakes, -⟩ := hop.moves hk
  have hfound := hm.found
  rw [hid, ht] at hfound
  cases hfound
  obtain ⟨t', ht', hcore', hst⟩ := hm.transfer (.inl rfl)
  have hentries := hm.entries (.inl rfl) t₀.id
  rw [if_pos hid, hes] at hentries
  have hu' : ∀ {s es}, Unwound t s es = Unwound t₀ s es := fun {s es} =>
    TransferRow.eq_of_core (Unwound · s es) (fun _ => rfl) hcore
  refine ⟨t', es ++ pathEntries t t.currentStatus steps, hid ▸ ht', hcore'.trans hcore, hentries,
    ?_, fun cur => ?_⟩
  · rw [hst, ← hu']
    exact Unwound.path (hu' ▸ hu) hm.allowed (hop.not_rejected htakes hu)
  · rw [hm.funds (.inl rfl) hwf hwf', if_pos (TransferRow.customerId_of_core hcore).symm, hfunds,
      netIn_append, add_assoc]

/-- Every event of a refundable transfer can be posted. -/
theorem UnwoundIn.postable {d₀ : World} (h : UnwoundIn d₀ t₀ d) (hfit : Refundable d₀ t₀)
    {target : OnchainTarget} (htarget : target ∈ [.settled, .reversing, .reversed])
    {t : TransferRow} (ht : d.transfer t₀.id = some t) : ¬ Unpostable d t target := by
  rintro ⟨steps, es', e, hpath, hall, hpre, hno⟩
  obtain ⟨t₁, es, ht₁, hcore, -, hu, hfunds⟩ := h
  cases ht₁.symm.trans ht
  have hu' : ∀ {s es}, Unwound t s es = Unwound t₀ s es := fun {s es} =>
    TransferRow.eq_of_core (Unwound · s es) (fun _ => rfl) hcore
  have hend := Unwound.path (hu' ▸ hu) hall (hpath ▸ rejected_not_mem_onchainPath _ htarget)
  obtain ⟨out, hout, hpre'⟩ := (hu' ▸ hend).isPrefix
  rw [List.cons_append, List.cons_prefix_cons] at hpre'
  refine hno ?_
  rw [TransferRow.customerId_of_core hcore, hfunds, add_assoc, ← netIn_append]
  refine hfit.fits hout (.trans ?_ hpre'.2)
  rw [List.append_assoc]
  exact List.prefix_append_right_inj _ |>.2 hpre

/-! ### No event fails -/

section Spec

variable {ι : Type} {ops : ι → Op} {i : ι} {loc : Loc}

/-- While a call holds the transfer's row, nobody opens an account. -/
theorem accounts_of_rely (hops : ∀ i, Unwinds id (ops i)) (hk : .transfer id ∈ loc.locks)
    {d' : World} (hr : (rules noAssumption ops anyChange).Rely loc none d d') :
    d.accounts = d'.accounts := by
  refine hr.invariant (P := fun x => d.accounts = x.accounts) rfl fun x x' hx ho => ?_
  cases ho with
  | bump => exact hx
  | env he => cases he <;> exact hx
  | guar j ℓ ids hℓ _ _ hg _ =>
    obtain ⟨ws, rfl, hv, hc⟩ := hg
    obtain ⟨t, steps, hid, hm, -, hquiet⟩ := (hops j).moves hc
    by_cases hnil : steps = []
    · rw [hquiet hnil]
      exact hx
    · exact absurd hk (hℓ _ (hid ▸ hm.locked hnil hv))

/-- A transfer never moves down. -/
theorem rank_of_others {ids : List ℕ} {ℓ : List Key} {l : Label} {w : Option World} {d' : World}
    (ho : (rules noAssumption ops anyChange).Others ℓ ids l w d d') {t : TransferRow}
    (ht : d.transfer id = some t) :
    ∃ t', d'.transfer id = some t' ∧ t.currentStatus.rank ≤ t'.currentStatus.rank := by
  cases ho with
  | bump => exact ⟨t, ht, Nat.le_refl _⟩
  | env he => cases he <;> exact ⟨t, ht, Nat.le_refl _⟩
  | guar j ℓ ids _ _ _ hg _ =>
    obtain ⟨ws, rfl, hv, -⟩ := hg
    exact rank_le_applyAll hv ht

/-- An event was applied: its transaction found the transfer, and it has not moved down since. -/
def Delivered (id : Uuid) (target : OnchainTarget) (payload : JObj) (made : List (World × World))
    (d : World) : Prop :=
  ∃ d₁ ws, made = [(d₁, applyAll ws d₁)] ∧ DeliverCommits id target payload d₁ ws ∧
    ∀ t, (applyAll ws d₁).transfer id = some t →
      ∃ t', d.transfer id = some t' ∧ t.currentStatus.rank ≤ t'.currentStatus.rank

/-- An event's answer is that it was applied. -/
def Answered (id : Uuid) (op : Op) (r : Except Failure Answer) (made : List (World × World))
    (d : World) : Prop :=
  ∀ target payload, op = .applyOnchain id target payload →
    (∃ a, r = .ok a) ∧ Delivered id target payload made d

/-- The unwinding goes on whatever the other calls do. -/
theorem UnwoundIn.rely {d₀ : World} (hops : ∀ i, Unwinds t₀.id (ops i)) (hwf : Wf d)
    (hu : UnwoundIn d₀ t₀ d) {w : Option World} {d' : World}
    (hr : (rules noAssumption ops anyChange).Rely loc w d d') : UnwoundIn d₀ t₀ d' := by
  refine (hr.invariant (P := fun x => Wf x ∧ UnwoundIn d₀ t₀ x) ⟨hwf, hu⟩ fun x x' hx ho => ?_).2
  cases ho with
  | bump => exact ⟨hx.1.bump, hx.2⟩
  | env he => exact ⟨he.wf hx.1, hx.2.env he⟩
  | guar j ℓ ids _ _ hids hg _ =>
    obtain ⟨ws, rfl, hv, hc⟩ := hg
    have hwf' := hx.1.applyAll hv hids
    exact ⟨hwf', hx.2.commit hx.1 hwf' (hops j) hc⟩

theorem wp_unwinds {d₀ : World} (hops : ∀ i, Unwinds t₀.id (ops i)) (hfit : Refundable d₀ t₀)
    (hwf : Wf d) (hu : UnwoundIn d₀ t₀ d) :
    Runs (rules noAssumption ops anyChange) i (Answered t₀.id (ops i)) (ops i).prog
      { label := default } d := by
  have hR : Framed (rules noAssumption ops anyChange) := framed_rules lax_anyChange
  have hother : (∀ target payload, ops i ≠ .applyOnchain t₀.id target payload) →
      Runs (rules noAssumption ops anyChange) i (Answered t₀.id (ops i)) (ops i).prog
        { label := default } d := fun hne =>
    wp_mono (fun _ _ _ _ _ _ target payload hop => absurd hop (hne target payload))
      (fun _ _ _ _ _ _ target payload hop => absurd hop (hne target payload))
      (wp_prog hR granted_noAssumption (fun _ _ => trivial) (grants_rules i) hwf)
  obtain ⟨_, _, _, hop⟩ | ⟨_, _, hop⟩ | ⟨target, payload, hop, htarget⟩ := hops i
  · exact hother fun _ _ he => by rw [hop] at he; cases he
  · exact hother fun _ _ he => by rw [hop] at he; cases he
  have hg : Grants (rules noAssumption ops anyChange) i (DeliverCommits t₀.id target payload) := by
    have h : Grants (rules noAssumption ops anyChange) i ((ops i).Commits noAssumption) :=
      grants_rules i
    rw [hop] at h
    exact h
  have hidle : Idle ({ label := default } : Loc) d := ⟨hwf, ⟨rfl, by rintro c ⟨⟩⟩, rfl, rfl⟩
  rw [Runs, hop, Op.prog]
  refine wp_wrap.2 (wp_mono ?_ ?_ (deliver_spec hR hg hidle))
  · rintro o loc' _ ⟨-, d₁, ws, rfl, hc, hmade⟩ d' hr target' payload' hop'
    cases hop'
    refine ⟨⟨_, rfl⟩, d₁, ws, hmade, hc, fun t ht => ?_⟩
    have hr : (rules noAssumption ops anyChange).Rely ({ label := default } : Loc) none
        (applyAll ws d₁) d' := hr
    refine hr.invariant (P := fun x => ∃ t',
      x.transfer t₀.id = some t' ∧ t.currentStatus.rank ≤ t'.currentStatus.rank)
      ⟨t, ht, Nat.le_refl _⟩ ?_
    rintro x x' ⟨t₁, ht₁, hle⟩ ho
    obtain ⟨t₂, ht₂, hle₂⟩ := rank_of_others ho ht₁
    exact ⟨t₂, ht₂, Nat.le_trans hle hle₂⟩
  · -- The transfer is there, the row lock keeps others from opening accounts, and the balances fit.
    rintro e loc' d' ⟨-, ⟨d₁, hr₁, hnone⟩ | ⟨loc₁, hk, loc₂, d₁, d₂, hsub, hr, hne⟩ |
      ⟨t, hr, ht, hun⟩⟩
    · obtain ⟨t, es, ht, -⟩ := hu.rely hops hwf hr₁
      rw [hnone] at ht
      cases ht
    · exact absurd (accounts_of_rely hops (hsub _ hk) hr) hne
    · exact absurd hun ((hu.rely hops hwf hr).postable hfit htarget ht)

end Spec

/-! ### The order of the events -/

/-- Where an event takes a transfer. -/
def goal : OnchainTarget → TransferStatus
  | .settled => .settled
  | .reversing => .reversing
  | .reversed => .reversed
  | .cancelled _ => .rejected

/-- How far a transfer is when an event first comes. -/
def comesAfter : OnchainTarget → ℕ
  | .reversing => TransferStatus.settled.rank
  | .reversed => TransferStatus.reversing.rank
  | _ => 0

/-- An event in its order takes a funded transfer where it should be, or finds it past that. -/
theorem rank_goal_le {target : OnchainTarget} {payload : JObj} {steps : List PathStep}
    (ht : target ∈ [.settled, .reversing, .reversed]) (h : OnchainSteps target payload t steps)
    (hu : Unwound t₀ t.currentStatus es) (hdue : comesAfter target ≤ t.currentStatus.rank) :
    (goal target).rank ≤ (pathEnd t.currentStatus steps).rank := by
  have hpath := h.path
  simp only [List.mem_cons, List.not_mem_nil, or_false] at ht
  rw [pathEnd_eq]
  generalize t.currentStatus = s at hpath hu hdue ⊢
  rcases hpath with hp | ⟨rfl, hno⟩
  · rw [hp]
    rcases ht with rfl | rfl | rfl <;> cases s <;>
      first | exact hu.elim | decide
  · rcases ht with rfl | rfl | rfl <;> cases s <;>
      first | exact hu.elim | exact absurd hdue (by decide) | exact absurd hno (by decide) | decide

variable {ι : Type} [DecidableEq ι] {ops : ι → Op} {d₀ : World}

/-- A call has applied an event. -/
def HasApplied (ops : ι → Op) (id : Uuid) (target : OnchainTarget)
    (s : Sys ι World Write Key Label Failure Answer) : Prop :=
  ∃ j payload a made, ops j = .applyOnchain id target payload ∧ s.calls j = .done (.ok a) made

/-- The events first come in their order: a call applies one only when another has applied the one
before. -/
def InOrder (ops : ι → Op) (id : Uuid) (e : Event ι)
    (s s' : Sys ι World Write Key Label Failure Answer) : Prop :=
  ∀ i payload, e = .go i → (s'.calls i).made ≠ (s.calls i).made →
    (ops i = .applyOnchain id .reversing payload → HasApplied ops id .settled s) ∧
    (ops i = .applyOnchain id .reversed payload → HasApplied ops id .reversing s)

/-- A step of calls whose events first come in their order. -/
def StepInOrder (ops : ι → Op) (id : Uuid) (e : Event ι)
    (s s' : Sys ι World Write Key Label Failure Answer) : Prop :=
  Step Env e s s' ∧ InOrder ops id e s s'

/-- What every call found when it committed. -/
def FoundDue (ops : ι → Op) (d₀ : World) (t₀ : TransferRow)
    (s : Sys ι World Write Key Label Failure Answer) : Prop :=
  ∀ i m, m ∈ (s.calls i).made → UnwoundIn d₀ t₀ m.1 ∧ ∀ target payload,
    ops i = .applyOnchain t₀.id target payload → ∀ t, m.1.transfer t₀.id = some t →
      comesAfter target ≤ t.currentStatus.rank

omit [DecidableEq ι] in
/-- A transfer to which an event was applied is where that takes it, or further. -/
theorem HasApplied.rank_le (hops : ∀ i, Unwinds t₀.id (ops i))
    {s : Sys ι World Write Key Label Failure Answer}
    (hok : SysOk (rules noAssumption ops anyChange) (fun i => Answered t₀.id (ops i)) s)
    (hdue : FoundDue ops d₀ t₀ s) {target : OnchainTarget} (h : HasApplied ops t₀.id target s)
    (ht : s.shared.transfer t₀.id = some t) : (goal target).rank ≤ t.currentStatus.rank := by
  obtain ⟨j, payload, a, made, hop, hj⟩ := h
  obtain ⟨-, d₁, ws, rfl, hc, hle⟩ := hok.answer hj target payload hop
  obtain ⟨⟨t₁, es, ht₁, -, -, hu, -⟩, hd⟩ := hdue j (d₁, applyAll ws d₁) (by simp [hj, Call.made])
  have htarget : target ∈ [.settled, .reversing, .reversed] := by
    obtain ⟨_, _, _, h⟩ | ⟨_, _, h⟩ | ⟨_, _, h, ht⟩ := hops j <;> rw [hop] at h <;> cases h
    exact ht
  obtain ⟨t₂, steps, hid, hm, hsteps, -⟩ := hc
  have hfound := hm.found
  rw [hid, ht₁] at hfound
  cases hfound
  obtain ⟨t', ht', -, hst⟩ := hm.transfer (.inl rfl)
  obtain ⟨t'', ht'', hle'⟩ := hle t' (hid ▸ ht')
  cases ht''.symm.trans ht
  -- The event took the transfer to its goal, and no later commit moved it down.
  have hgoal := rank_goal_le htarget hsteps hu (hd target payload hop t₁ ht₁)
  rw [← hst] at hgoal
  exact Nat.le_trans hgoal hle'

/-- One step keeps the unwinding, and a call that commits finds what is due. -/
theorem FoundDue.step (hops : ∀ i, Unwinds t₀.id (ops i)) {e : Event ι}
    {s s' : Sys ι World Write Key Label Failure Answer}
    (hok : SysOk (rules noAssumption ops anyChange) (fun i => Answered t₀.id (ops i)) s)
    (h : Wf s.shared ∧ UnwoundIn d₀ t₀ s.shared ∧ FoundDue ops d₀ t₀ s)
    (hstep : StepInOrder ops t₀.id e s s') :
    Wf s'.shared ∧ UnwoundIn d₀ t₀ s'.shared ∧ FoundDue ops d₀ t₀ s' := by
  obtain ⟨hwfs, hu, hdue⟩ := h
  obtain ⟨hst, horder⟩ := hstep
  have hm := hok.moved hst
  cases e with
  | crash i =>
    obtain ⟨p, loc, w, hcall, rfl⟩ := hst
    refine ⟨hwfs, hu, fun j m hmade => hdue j m ?_⟩
    by_cases hj : j = i
    · subst hj
      rw [hcall]
      simpa [Call.made] using hmade
    · simpa [Function.update_of_ne hj] using hmade
  | env =>
    obtain ⟨d, he, rfl⟩ := hst
    exact ⟨he.wf hwfs, hu.env he, hdue⟩
  | go i =>
    obtain ⟨free, -, d', c, hn, rfl⟩ := hst
    have hnext : Wf d' ∧ UnwoundIn d₀ t₀ d' := by
      cases hm with
      | go i d hbelow hch =>
        rcases hch with rfl | rfl | ⟨ws, rfl, hv, hk⟩
        · exact ⟨hwfs, hu⟩
        · exact ⟨hwfs.bump, hu⟩
        · have hwf' := hwfs.applyAll hv hbelow
          exact ⟨hwf', hu.commit hwfs hwf' (hops i) hk⟩
    refine ⟨hnext.1, hnext.2, fun j m hmade => ?_⟩
    by_cases hj : j = i
    case neg => exact hdue j m (by simpa [Function.update_of_ne hj] using hmade)
    subst hj
    simp only [Function.update_self] at hmade
    rcases Call.made_next hn with heq | heq <;> rw [heq] at hmade
    · exact hdue j m hmade
    rcases List.mem_cons.1 hmade with rfl | hmade
    case inr => exact hdue j m hmade
    refine ⟨hu, fun target payload hop t ht => ?_⟩
    -- Only what a call commits now is new; the event before it was applied by then.
    have hchanged : c.made ≠ (s.calls j).made := by simp [heq]
    have hprev := horder j payload rfl (by simpa using hchanged)
    cases target with
    | reversing => exact (hprev.1 hop).rank_le hops hok hdue ht
    | reversed => exact (hprev.2 hop).rank_le hops hok hdue ht
    | _ => exact Nat.zero_le _

/-- **Refunds**: in every run in which the events of a funded and refundable transfer first come in
their order, no event fails; and once the refund is applied the transfer is and stays `REVERSED`,
with one credit of what it was debited, and its entries sum to nothing in each currency. -/
theorem refunded_of_reach (hwf : Wf d₀) (ht₀ : d₀.transfer t₀.id = some t₀)
    (hs₀ : t₀.currentStatus = .funded ∨ t₀.currentStatus = .settling)
    (he₀ : (d₀.entriesOfTransfer t₀.id).map .strip = [debit t₀]) (hfit : Refundable d₀ t₀)
    (hops : ∀ i, Unwinds t₀.id (ops i)) {s : Sys ι World Write Key Label Failure Answer}
    (hr : Reach (StepInOrder ops t₀.id) (system ops d₀) s) {i : ι} {target : OnchainTarget}
    {payload : JObj} (hop : ops i = .applyOnchain t₀.id target payload)
    {r : Except Failure Answer} {made : List (World × World)} (hi : s.calls i = .done r made) :
    (∃ a, r = .ok a) ∧ (target = .reversed → s.shared.status t₀.id = some .reversed ∧
      (∃ out, TakesOut t₀ out ∧ (s.shared.entriesOfTransfer t₀.id).map .strip =
        [debit t₀, credit t₀, out, refund t₀]) ∧
      ∀ c, net (s.shared.entriesOfTransfer t₀.id) c = 0) := by
  have h₀ : UnwoundIn d₀ t₀ d₀ := by
    refine ⟨t₀, [], ht₀, rfl, he₀, ?_, fun cur => (add_zero _).symm⟩
    rcases hs₀ with hs | hs <;> rw [hs] <;> rfl
  have hok : ∀ {s}, Reach (StepInOrder ops t₀.id) (system ops d₀) s →
      SysOk (rules noAssumption ops anyChange) (fun i => Answered t₀.id (ops i)) s := fun hr =>
    (SysOk.start fun i => wp_unwinds hops hfit hwf h₀).reach
      (framed_rules lax_anyChange).seqMono (hr.mono fun _ _ _ h => ⟨h.1, fun _ _ => trivial⟩)
  have h := hr.invariant (I := fun s => Wf s.shared ∧ UnwoundIn d₀ t₀ s.shared ∧
      FoundDue ops d₀ t₀ s)
    ⟨hwf, h₀, fun i m hm => by
      rw [show ((system ops d₀).calls i).made = [] from Call.made_settle ..] at hm
      cases hm⟩ fun s e s' hs h hst => FoundDue.step hops (hok hs) h hst
  obtain ⟨-, ⟨t, es, ht, hcore, hes, hu, -⟩, hdue⟩ := h
  obtain ⟨⟨a, rfl⟩, -⟩ := (hok hr).answer hi target payload hop
  refine ⟨⟨a, rfl⟩, ?_⟩
  rintro rfl
  have hle := HasApplied.rank_le hops (hok hr) hdue ⟨i, payload, a, made, hop, hi⟩ ht
  have hs : t.currentStatus = .reversed := by
    generalize t.currentStatus = st at hu hle
    cases st <;> first | exact hu.elim | rfl | exact absurd hle (by decide)
  rw [hs, ← hes] at hu
  refine ⟨by rw [World.status, ht, Option.map_some, hs], hu, fun c => ?_⟩
  rw [← net_strip]
  exact hu.net hfit.negatable c

/-- Money comes in, a transfer is created, and it is driven to `SETTLING`. -/
def settlingOps : Fin 3 → Op
  | 0 => .applyInbound (samplePayment "payment" 10000)
  | 1 => sampleCreate true "transfer" 3
  | 2 => .advanceToCompletion (sampleState true) 103 fun _ => "payout"

/-- Its settlement fails while the backend pays out; the first event comes twice. -/
def failedOps (id : Uuid) : Fin 5 → Op
  | 0 => .applyOnchain id .settled []
  | 1 => .advanceOnce (sampleState true) id none "step"
  | 2 => .applyOnchain id .reversing []
  | 3 => .applyOnchain id .reversed []
  | 4 => .applyOnchain id .settled []

theorem unwinds_failedOps (id : Uuid) (i : Fin 5) : Unwinds id (failedOps id i) := by
  fin_cases i
  · exact .inr (.inr ⟨_, _, rfl, by simp⟩)
  · exact .inl ⟨_, _, _, rfl⟩
  all_goals exact .inr (.inr ⟨_, _, rfl, by simp⟩)

/-- The events of `failedOps` begin in their order. -/
def failedInOrder (e : Event (Fin 5)) (s : Sys (Fin 5) World Write Key Label Failure Answer) :
    Bool :=
  match e with
  | .go 2 => (s.calls 0).succeeded
  | .go 3 => (s.calls 2).succeeded
  | _ => true

theorem exists_of_succeeded {c : Call World Write Key Label Failure Answer}
    (h : c.succeeded = true) : ∃ a made, c = .done (.ok a) made := by
  cases c with
  | done r made =>
    cases r with
    | ok a => exact ⟨a, made, rfl⟩
    | error e => cases h
  | _ => cases h

theorem inOrder_failedOps {id : Uuid} {e : Event (Fin 5)}
    {s s' : Sys (Fin 5) World Write Key Label Failure Answer} (h : failedInOrder e s = true) :
    InOrder (failedOps id) id e s s' := by
  rintro i payload rfl -
  refine ⟨fun hop => ?_, fun hop => ?_⟩ <;> fin_cases i <;> cases hop
  · obtain ⟨a, made, hc⟩ := exists_of_succeeded h
    exact ⟨0, _, a, made, rfl, hc⟩
  · obtain ⟨a, made, hc⟩ := exists_of_succeeded h
    exact ⟨2, _, a, made, rfl, hc⟩

theorem reach_of_failed {id : Uuid} {d : World} {ms : List (Move (Fin 5) World)}
    (henv : ∀ f, Move.env f ∈ ms → ∀ d, Env d (f d))
    {s : Sys (Fin 5) World Write Key Label Failure Answer}
    (h : playChecked failedInOrder [0, 1, 2, 3, 4] ms (system (failedOps id) d) = some s) :
    Reach (StepInOrder (failedOps id) id) (system (failedOps id) d) s :=
  (reach_of_playChecked (by decide) henv h).mono fun _ _ _ h => ⟨h.1, inOrder_failedOps h.2⟩

/-- The failed transfer is refunded. -/
theorem refunded_of_failed :
    ∃ t₀ d₀ s, Reach (StepInOrder (failedOps t₀.id) t₀.id) (system (failedOps t₀.id) d₀) s ∧
      s.shared.status t₀.id = some .reversed ∧
      (∃ out, TakesOut t₀ out ∧ (s.shared.entriesOfTransfer t₀.id).map .strip =
        [debit t₀, credit t₀, out, refund t₀]) ∧
      ∀ c, net (s.shared.entriesOfTransfer t₀.id) c = 0 := by
  obtain ⟨s₁, hr₁, h⟩ := exists_reach settlingOps (sampleWorld "NG") [0, 1, 2]
    [(0, 15), (1, 41), (2, 22)]
    (fun s => (s.shared.transfer 103).any (fun t => t.currentStatus = .settling &&
        (s.shared.entriesOfTransfer 103).map .strip = [debit t] && Refundable s.shared t) &&
      (playChecked failedInOrder [0, 1, 2, 3, 4]
        (schedule [(0, 14), (1, 5), (2, 10), (3, 11), (4, 4)])
        (system (failedOps 103) s.shared)).any fun s => (s.calls 3).succeeded)
    (by decide) (by decide +kernel)
  simp only [Bool.and_eq_true] at h
  obtain ⟨ht, hrun⟩ := h
  obtain ⟨t₀, ht₀, hst⟩ := (Option.any_eq_true ..).1 ht
  simp only [Bool.and_eq_true, decide_eq_true_eq] at hst
  obtain ⟨s, hs, hdone⟩ := (Option.any_eq_true ..).1 hrun
  obtain ⟨a, made, hc⟩ := exists_of_succeeded hdone
  have hid : t₀.id = 103 := (World.transfer_mem ht₀).2
  rw [← hid] at ht₀ hst hs
  exact ⟨t₀, s₁.shared, s, reach_of_failed (env_schedule _) hs, (refunded_of_reach
    (wf_of_reach (wf_sampleWorld "NG") hr₁) ht₀ (.inr hst.1.1) hst.1.2 hst.2
    (unwinds_failedOps _) (reach_of_failed (env_schedule _) hs) rfl hc).2 rfl⟩

/-- A transfer of the amount without a negation is driven to `SETTLING`. -/
def minSettlingOps : Fin 2 → Op
  | 0 => sampleCreate true "transfer" 100
  | 1 => .advanceToCompletion (sampleState true) 101 fun _ => "payout"

/-- Its refund has the sign of its debit. -/
theorem not_refunded_of_min :
    (∃ quote, Quote.requestFirmQuote 1000 sampleSession minBody (fun _ _ => .ok ⟨62500, .live⟩)
      (sampleWorld "NG") = .ok (quote, minWorld)) ∧
    ∃ s₁ s, Reach (Step Env) (system minSettlingOps minWorld) s₁ ∧
      s₁.shared.status 101 = some .settling ∧
      Reach (StepInOrder (failedOps 101) 101) (system (failedOps 101) s₁.shared) s ∧
      (∃ a made, s.calls 3 = .done (.ok a) made) ∧ s.shared.status 101 = some .reversed ∧
      net (s.shared.entriesOfTransfer 101) .ngn = -2 ^ 64 := by
  refine ⟨minWorld_requested, ?_⟩
  obtain ⟨s₁, hr₁, h⟩ := exists_reach minSettlingOps minWorld [0, 1] [(0, 41), (1, 22)]
    (fun s => s.shared.status 101 = some .settling &&
      (playChecked failedInOrder [0, 1, 2, 3, 4]
        (schedule [(0, 14), (1, 5), (2, 10), (3, 11), (4, 4)])
        (system (failedOps 101) s.shared)).any fun s => (s.calls 3).succeeded &&
          s.shared.status 101 = some .reversed &&
          net (s.shared.entriesOfTransfer 101) .ngn = -2 ^ 64) (by decide) (by decide +kernel)
  simp only [Bool.and_eq_true, decide_eq_true_eq] at h
  obtain ⟨s, hs, hend⟩ := (Option.any_eq_true ..).1 h.2
  simp only [Bool.and_eq_true, decide_eq_true_eq] at hend
  exact ⟨s₁, s, hr₁, h.1, reach_of_failed (env_schedule _) hs, exists_of_succeeded hend.1.1,
    hend.1.2, hend.2⟩

end Kimana
