import Kimana.Settlement.Reorg
import Kimana.Settlement.Stall
import Kimana.Transfers.Refund

/-!
# No log is skipped

On a chain that only grows any number of listeners of a vault may pass over its blocks, crash
between any two statements and start again, and the cursor may be set back.  Once it stands at a
block, every log up to that block that is about a transfer on file has its event row.

* `Complete` : up to the cursor every log about a known transfer is recorded.
* `Scanned` : what a pass adds to it: the blocks before `next` are done but for the logs in hand.
* `not_skipped_of_reach` : **no log is skipped**, and none has two rows, in every run.
* `applied_once` : two commits of listeners that move transfers record different logs.
-/

namespace Kimana

open ReadCommitted Table Engine Listener

/-! ### Recorded logs -/

/-- A log about a known transfer has its event row. -/
def RpcLog.Recorded (refs : B256 → Prop) (log : RpcLog) (d : World) : Prop :=
  ∀ txHash logIndex event, log.transactionHash = some txHash → log.logIndex = some logIndex →
    log.event = some event → refs (refOf event) → (d.eventByKey txHash logIndex).isSome

/-- The vault keys are those of transfers on file. -/
def OnFile (refs : B256 → Prop) (d : World) : Prop := ∀ ref, refs ref → ∃ id, d.HasRef ref id

/-- The logs of a vault in a block are recorded, but for some. -/
def BlockDone (refs : B256 → Prop) (v : ℕ) (but : List RpcLog) (d : World) (b : ℕ) : Prop :=
  b < d.chain.length ∧ ∀ log ∈ d.chain.logsOf v b, log.Recorded refs d ∨ log ∈ but

/-- Up to the cursor of a vault every log about a known transfer is recorded. -/
structure Complete (refs : B256 → Prop) (v first : ℕ) (d : World) : Prop where
  nonempty : d.chain ≠ []
  onFile : OnFile refs d
  done : ∀ n h, d.cursor v = some (n, h) → ∀ b, first ≤ b → b ≤ n → BlockDone refs v [] d b

/-- What a pass to block `c` knows: the blocks before `next` are done but for the logs in hand. -/
structure Scanned (refs : B256 → Prop) (v first c next : ℕ) (logs : List RpcLog) (d : World) :
    Prop where
  complete : Complete refs v first d
  head : c < d.chain.length
  done : ∀ b, first ≤ b → b < next → BlockDone refs v logs d b

/-- What happens besides the calls on a chain that only grows: time passes, blocks are added, and
the cursor of a vault is set back to an earlier block. -/
inductive Upkeep (v : ℕ) : World → World → Prop
  | tick {d : World} (now : Time) : d.clock ≤ now → Upkeep v d { d with clock := now }
  | grow {d : World} (c : Chain) : d.chain <+: c → Upkeep v d { d with chain := c }
  | back {d : World} {n k : ℕ} {h b : BlockHash} : d.cursor v = some (n, h) → k ≤ n →
      d.chain.hash k = some b → Upkeep v d ((Write.saveCursor ⟨v, k, b⟩).apply d)

variable {refs : B256 → Prop} {v first c next n : ℕ} {logs : List RpcLog} {d d' : World}
  {ws : List Write}

theorem RpcLog.Recorded.ext {log : RpcLog} (h : log.Recorded refs d) (he : Ext d d') :
    log.Recorded refs d' := fun txHash logIndex event htx hidx hev href =>
  eventByKey_ext he (h txHash logIndex event htx hidx hev href)

/-- A block keeps its logs when the chain grows. -/
theorem logsOf_of_grown {c c' : Chain} (h : c <+: c') {b : ℕ} (hb : b < c.length) (v : ℕ) :
    c'.logsOf v b = c.logsOf v b := by
  obtain ⟨rest, rfl⟩ := h
  rw [Chain.logsOf, Chain.logsOf, List.getElem?_append_left hb, List.take_append_of_le_length hb]

theorem BlockDone.ext {but : List RpcLog} {b : ℕ} (h : BlockDone refs v but d b) (he : Ext d d')
    (hc : d.chain <+: d'.chain) : BlockDone refs v but d' b := by
  obtain ⟨hb, h⟩ := h
  refine ⟨hb.trans_le hc.length_le, fun log hlog => ?_⟩
  rw [logsOf_of_grown hc hb] at hlog
  exact (h log hlog).imp_left fun hr => hr.ext he

theorem BlockDone.mono {but but' : List RpcLog} {b : ℕ} (h : BlockDone refs v but d b)
    (hsub : ∀ log ∈ but, log.Recorded refs d ∨ log ∈ but') : BlockDone refs v but' d b :=
  ⟨h.1, fun log hlog => (h.2 log hlog).elim .inl (hsub log)⟩

/-- What lasts from one state to a later one. -/
structure Later (d d' : World) : Prop where
  ext : Ext d d'
  chain : d.chain <+: d'.chain
  refs : ∀ ref id, d.HasRef ref id → d'.HasRef ref id

theorem Later.refl (d : World) : Later d d := ⟨.refl d, List.prefix_refl _, fun _ _ h => h⟩

theorem Later.trans {d₁ d₂ d₃ : World} (h : Later d₁ d₂) (h' : Later d₂ d₃) : Later d₁ d₃ :=
  ⟨h.ext.trans h'.ext, h.chain.trans h'.chain, fun ref id hr => h'.refs ref id (h.refs ref id hr)⟩

theorem later_bump (d : World) : Later d (bump d) :=
  ⟨{ Ext.refl d with }, List.prefix_refl _, fun _ _ h => h⟩

theorem later_applyAll {ℓ : List Key} {ids : List ℕ} (hv : Valid ℓ ids d ws) :
    Later d (applyAll ws d) :=
  ⟨ext_applyAll ws d, by rw [chain_applyAll], fun _ _ h => h.applyAll hv⟩

theorem later_saveCursor (row : CursorRow) (d : World) :
    Later d ((Write.saveCursor row).apply d) :=
  ⟨{ Ext.refl d with }, List.prefix_refl _, fun _ _ h => h⟩

theorem Upkeep.later (h : Upkeep v d d') : Later d d' := by
  cases h with
  | tick => exact ⟨{ Ext.refl _ with }, List.prefix_refl _, fun _ _ h => h⟩
  | grow c hc => exact ⟨{ Ext.refl _ with }, hc, fun _ _ h => h⟩
  | back => exact later_saveCursor _ _

/-- Writes that set no vault key and insert no transfer leave the keys. -/
theorem hasRef_applyAll {ref : B256} {id : Uuid} (h : d.HasRef ref id)
    (hw : ∀ w ∈ ws, (∀ row, w ≠ .insertTransfer row) ∧ ∀ tid r, w ≠ .setSettlementRef tid r) :
    (applyAll ws d).HasRef ref id := by
  induction ws generalizing d with
  | nil => exact h
  | cons w ws ih =>
    refine ih ?_ fun w' hw' => hw w' (List.mem_cons_of_mem _ hw')
    obtain ⟨hinsert, hset⟩ := hw w List.mem_cons_self
    cases w
    case insertTransfer row => exact absurd rfl (hinsert row)
    case setSettlementRef tid r => exact absurd rfl (hset tid r)
    case setStatus tid st now =>
      obtain ⟨⟨t₀, ht₀, hr₀⟩, hall⟩ := h
      refine ⟨⟨_, mem_updateWhere ht₀, by split <;> exact hr₀⟩, fun t ht hr => ?_⟩
      obtain ⟨t₁, ht₁, rfl⟩ := of_mem_updateWhere ht
      split at hr <;> rename_i hp
      · rw [if_pos hp]
        exact hall t₁ ht₁ hr
      · rw [if_neg hp]
        exact hall t₁ ht₁ hr
    all_goals exact h

theorem later_records {cfg : ListenerConfig} {event : VaultEvent} {txHash : B256}
    {logIndex block : ℕ} {hash : BlockHash} {target : Option OnchainTarget} {t : TransferRow}
    {steps : List PathStep}
    (hr : Records cfg event txHash logIndex block hash target d ws t steps) :
    Later d (applyAll ws d) := by
  refine ⟨ext_applyAll ws d, by rw [chain_applyAll], fun ref id h => hasRef_applyAll h ?_⟩
  have hbrief : ∀ w ∈ brief ws, w.transferId = none ∨ (∃ s, w = .setStatus t.id s 0) ∨
      w.historyRow.isSome := fun w hw => by
    rw [hr.moves.brief, List.mem_append] at hw
    rcases hw with hw | hw
    · obtain ⟨e, rfl, -⟩ | ⟨r, rfl, -⟩ | ⟨s, rfl⟩ | ⟨a, rfl, -⟩ := about_pathBrief hw
      · exact .inl rfl
      · exact .inr (.inr rfl)
      · exact .inr (.inl ⟨s, rfl⟩)
      · exact .inl rfl
    · exact .inl (by rw [List.mem_singleton.1 hw]; rfl)
  refine fun w hw => ⟨?_, ?_⟩
  · rintro row rfl
    have := hbrief _ (List.mem_filterMap.2 ⟨_, hw, rfl⟩)
    simp [Write.transferId, Write.historyRow] at this
  · rintro tid r rfl
    have := hbrief _ (List.mem_filterMap.2 ⟨_, hw, rfl⟩)
    simp [Write.transferId, Write.historyRow] at this

theorem Complete.later (h : Complete refs v first d) (hl : Later d d')
    (hcursor : ∀ n h, d'.cursor v = some (n, h) → ∃ m g, d.cursor v = some (m, g) ∧ n ≤ m) :
    Complete refs v first d' where
  nonempty he := by
    have := hl.chain
    rw [he, List.prefix_nil] at this
    exact h.nonempty this
  onFile ref hr := by
    obtain ⟨id, hid⟩ := h.onFile ref hr
    exact ⟨id, hl.refs ref id hid⟩
  done n b hc k hfirst hk := by
    obtain ⟨m, g, hm, hle⟩ := hcursor n b hc
    exact (h.done m g hm k hfirst (hk.trans hle)).ext hl.ext hl.chain

theorem Complete.upkeep (h : Complete refs v first d) (hu : Upkeep v d d') :
    Complete refs v first d' := by
  refine h.later hu.later fun n b hc => ?_
  cases hu with
  | tick => exact ⟨n, b, hc, le_rfl⟩
  | grow => exact ⟨n, b, hc, le_rfl⟩
  | back hn hk _ =>
    rw [cursor_saveCursor, if_pos rfl] at hc
    cases hc
    exact ⟨_, _, hn, hk⟩

theorem Scanned.later (h : Scanned refs v first c next logs d) (hl : Later d d')
    (hd : Complete refs v first d') : Scanned refs v first c next logs d' :=
  ⟨hd, h.head.trans_le hl.chain.length_le,
    fun b hfirst hb => (h.done b hfirst hb).ext hl.ext hl.chain⟩

/-- A commit that saves no cursor of the vault keeps what is complete. -/
theorem Complete.untouched (h : Complete refs v first d) (hl : Later d (applyAll ws d))
    (hw : ∀ row, .saveCursor row ∈ ws → row.vault ≠ v) : Complete refs v first (applyAll ws d) :=
  h.later hl fun n b hc => ⟨n, b, by rwa [cursor_applyAll hw] at hc, le_rfl⟩

/-- A recorded log is done. -/
theorem Scanned.record {cfg : ListenerConfig} {event : VaultEvent} {txHash : B256}
    {logIndex block : ℕ} {hash : BlockHash} {target : Option OnchainTarget} {t : TransferRow}
    {steps : List PathStep} (h : Scanned refs v first c next
      (logAt txHash logIndex block hash event :: logs) d)
    (hr : Records cfg event txHash logIndex block hash target d ws t steps) :
    Scanned refs v first c next logs (applyAll ws d) := by
  have hl := later_records hr
  have hcomplete := h.complete.untouched hl (vault_ne_of_records hr)
  have hrow : ((applyAll ws d).eventByKey txHash logIndex).isSome := by
    rw [World.eventByKey, List.find?_isSome, events_applyAll, hr.moves.events]
    exact ⟨_, List.mem_append_right _ (List.mem_singleton_self _), by simp [eventRow]⟩
  refine ⟨hcomplete, h.head.trans_le hl.chain.length_le, fun b hfirst hb => ?_⟩
  refine ((h.done b hfirst hb).ext hl.ext hl.chain).mono fun log hlog => ?_
  rcases List.mem_cons.1 hlog with rfl | hlog
  · refine .inl ?_
    rintro _ _ _ ⟨⟩ ⟨⟩ ⟨⟩ -
    exact hrow
  · exact .inr hlog

/-- A log that a pass has nothing to do for is done. -/
theorem Scanned.skip {log : RpcLog} (h : Scanned refs v first c next (log :: logs) d)
    (hs : Skipped d log) : Scanned refs v first c next logs d := by
  refine ⟨h.complete, h.head, fun b hfirst hb => (h.done b hfirst hb).mono fun log' hlog => ?_⟩
  rcases List.mem_cons.1 hlog with rfl | hlog
  · refine .inl ?_
    rintro txHash logIndex event htx hidx hev href
    obtain hnone | ⟨_, _, block, hash, event', rfl, hs⟩ := hs
    · rw [hnone] at hev
      cases hev
    · cases htx
      cases hidx
      cases hev
      refine hs.resolve_right fun hnot => ?_
      obtain ⟨id, ⟨t, ht, hr⟩, -⟩ := h.complete.onFile _ href
      exact hnot t ht hr
  · exact .inr hlog

/-! ### The rules -/

/-- The rules of operations under which no log is skipped. -/
def completing {ι : Type} (ops : ι → Op) (refs : B256 → Prop) (v first : ℕ) :
    Rules ι World Key Label where
  guar i ℓ ids d d' := (rules noAssumption ops anyChange).guar i ℓ ids d d' ∧
    (Complete refs v first d → Complete refs v first d')
  env := Upkeep v

section Runs

variable {ι : Type} {ops : ι → Op}

/-- What lasts, lasts while a call stands still. -/
theorem later_of_rely {loc : Loc} {w : Option World}
    (hr : (completing ops refs v first).Rely loc w d d') : Later d d' := by
  refine hr.invariant (P := Later d) (.refl d) fun d₁ d₂ h ho => h.trans ?_
  cases ho with
  | bump => exact later_bump _
  | guar _ _ _ _ _ _ hg _ =>
    obtain ⟨⟨ws, rfl, hv, -⟩, -⟩ := hg
    exact later_applyAll hv
  | env he _ => exact he.later

theorem Complete.bump (h : Complete refs v first d) : Complete refs v first (bump d) :=
  h.later (later_bump d) fun n b hc => ⟨n, b, hc, le_rfl⟩

theorem Complete.rely {loc : Loc} {w : Option World} (h : Complete refs v first d)
    (hr : (completing ops refs v first).Rely loc w d d') : Complete refs v first d' := by
  refine hr.invariant h fun d₁ d₂ h ho => ?_
  cases ho with
  | bump => exact h.bump
  | guar _ _ _ _ _ _ hg _ => exact hg.2 h
  | env he _ => exact h.upkeep he

theorem Scanned.rely {loc : Loc} {w : Option World} (h : Scanned refs v first c next logs d)
    (hr : (completing ops refs v first).Rely loc w d d') :
    Scanned refs v first c next logs d' := h.later (later_of_rely hr) (h.complete.rely hr)

theorem Scanned.save {stop : ℕ} (hash : BlockHash)
    (h : Scanned refs v first c (stop + 1) [] d) :
    Scanned refs v first c (stop + 1) [] ((Write.saveCursor ⟨v, stop, hash⟩).apply d) := by
  have hl := later_saveCursor ⟨v, stop, hash⟩ d
  refine h.later hl { h.complete with done := fun n b hc k hfirst hk => ?_ }
  rw [cursor_saveCursor, if_pos rfl] at hc
  cases hc
  exact (h.done k hfirst (Nat.lt_succ_of_le hk)).ext hl.ext hl.chain

variable [DecidableEq ι]

/-- A step by which a listener moves a transfer records a log that had no row. -/
theorem fresh_of_step {d₀ : World} (hwf : Wf d₀)
    {s s' : Sys ι World Write Key Label Failure Answer} {i : ι} {cfg : ListenerConfig}
    (hop : ops i = .runOnce cfg) (hr : Reach (Step Env) (system ops d₀) s)
    (hst : Step Env (.go i) s s') (hmoved : ¬ SameTransfers s.shared s'.shared) :
    ∃ e, s'.shared.events = s.shared.events ++ [e] ∧
      s.shared.eventByKey e.txHash e.logIndex = none := by
  have hm := moved_of_reach hwf hr hst
  generalize s'.shared = d' at hm hmoved
  cases hm with
  | go i d _ hch =>
    rcases hch with rfl | rfl | ⟨ws, rfl, -, hk⟩
    · exact absurd ⟨rfl, rfl, rfl⟩ hmoved
    · exact absurd ⟨rfl, rfl, rfl⟩ hmoved
    · rw [hop] at hk
      obtain ⟨event, txHash, logIndex, block, hash, target, t, steps, hr⟩ | ⟨block, hash, rfl⟩ := hk
      · refine ⟨eventRow cfg event t.id txHash logIndex block hash
          (target.map (onchainOutcome · t.currentStatus)), ?_, hr.unseen⟩
        rw [events_applyAll, hr.moves.events]
        rfl
      · exact absurd ⟨rfl, rfl, rfl⟩ hmoved

/-- **No log is applied twice**: of any two steps by which listeners move transfers, with whatever
crashes, replays and reorganisations in between, each records a log of its own. -/
theorem applied_once {d₀ : World} (hwf : Wf d₀)
    {s₁ s₂ s₃ s₄ : Sys ι World Write Key Label Failure Answer} {i j : ι}
    {cfg cfg' : ListenerConfig} (hi : ops i = .runOnce cfg) (hj : ops j = .runOnce cfg')
    (hr₁ : Reach (Step Env) (system ops d₀) s₁) (hst₁ : Step Env (.go i) s₁ s₂)
    (hr₃ : Reach (Step Env) s₂ s₃) (hst₃ : Step Env (.go j) s₃ s₄)
    (hmoved₁ : ¬ SameTransfers s₁.shared s₂.shared)
    (hmoved₃ : ¬ SameTransfers s₃.shared s₄.shared) :
    ∃ e e', s₂.shared.events = s₁.shared.events ++ [e] ∧
      s₄.shared.events = s₃.shared.events ++ [e'] ∧
      (e.txHash, e.logIndex) ≠ (e'.txHash, e'.logIndex) := by
  have hr₂ := hr₁.tail ⟨_, hst₁⟩
  obtain ⟨e, he, -⟩ := fresh_of_step hwf hi hr₁ hst₁ hmoved₁
  obtain ⟨e', he', hnew⟩ := fresh_of_step hwf hj (hr₂.trans hr₃) hst₃ hmoved₃
  refine ⟨e, e', he, he', fun hkey => ?_⟩
  -- The first row is still on file when the second log is found without one.
  have hmem : e ∈ s₃.shared.events :=
    (ext_of_reach hwf hr₂ hr₃).events e (he ▸ List.mem_append_right _ (List.mem_singleton_self e))
  rw [Prod.mk.injEq] at hkey
  have := List.find?_eq_none.1 hnew e hmem
  simp [hkey.1, hkey.2] at this

end Runs

/-! ### Two listeners -/

/-- A settlement in block 1 that is returned in block 2. -/
def returnedChain : Chain :=
  [⟨0, [], 0⟩, ⟨1, [⟨9, 7, 0, some (.settlementInitiated 103 5 10000)⟩], 0⟩,
    ⟨2, [⟨9, 8, 0, some (.settlementReturned 103 5 10000)⟩], 0⟩, ⟨3, [], 0⟩]

/-- The database before the transfer is created. -/
def returnedWorld : World := { sampleWorld "NG" with chain := returnedChain }

theorem wf_returnedWorld : Wf returnedWorld :=
  { wf_sampleWorld "NG" with below := fun n hn => { (wf_sampleWorld "NG").below n hn with } }

/-- Two listeners of one vault, one block behind the head. -/
def relayOps : Fin 2 → Op := fun _ => .runOnce ⟨9, 1, 0, 10⟩

/-- From a transfer at `SETTLING`, a schedule of the listeners that ends in a state with some
property. -/
theorem exists_relayed (P : Sys (Fin 2) World Write Key Label Failure Answer → Bool)
    (h : ((play [0, 1, 2] (schedule [(0, 15), (1, 41), (2, 22)])
      (system settlingOps returnedWorld)).any fun s =>
        decide (s.shared.chain ≠ [] ∧ s.shared.cursor 9 = none) &&
        s.shared.transfers.any (fun t => t.settlementRef = some 103) &&
        s.shared.transfers.all (fun t => t.settlementRef ≠ some 103 || t.id = 103) &&
        P (system relayOps s.shared)) = true) :
    ∃ d₀, Wf d₀ ∧ d₀.chain ≠ [] ∧ d₀.cursor 9 = none ∧ d₀.HasRef 103 103 ∧
      P (system relayOps d₀) = true := by
  obtain ⟨s, hr, h⟩ := exists_reach settlingOps returnedWorld [0, 1, 2]
    [(0, 15), (1, 41), (2, 22)] _ (by decide) h
  simp only [Bool.and_eq_true, decide_eq_true_eq] at h
  obtain ⟨⟨⟨⟨hchain, hnew⟩, hany⟩, hall⟩, hP⟩ := h
  refine ⟨s.shared, wf_of_reach wf_returnedWorld hr, hchain, hnew,
    ⟨by simpa using hany, fun t ht href => ?_⟩, hP⟩
  have := List.all_eq_true.1 hall t ht
  rw [show t.settlementRef = some 103 from href] at this
  simpa using this

/-- The listener `i` records a log and crashes, `j` goes on. -/
def takenBack {ι : Type} [DecidableEq ι] (i j : ι)
    (s : Sys ι World Write Key Label Failure Answer) : Bool :=
  (play [i, j] (schedule [(i, 21)]) s).any fun s₁ => (playMove [i, j] s₁ (.go i)).any fun s₂ =>
    (play [i, j] ([.crash i] ++ schedule [(j, 18)]) s₂).any fun s₃ =>
      (playMove [i, j] s₃ (.go j)).any fun s₄ =>
        decide (s₁.shared.transfers ≠ s₂.shared.transfers) &&
        decide (s₃.shared.transfers ≠ s₄.shared.transfers)

/-- The first listener settles the transfer and crashes; the second takes it back. -/
theorem applied_once_of_relay :
    ∃ d₀ s₁ s₂ s₃ s₄ e e', Reach (Step Env) (system relayOps d₀) s₁ ∧
      Step Env (.go 0) s₁ s₂ ∧ Reach (Step Env) s₂ s₃ ∧ Step Env (.go 1) s₃ s₄ ∧
      s₂.shared.events = s₁.shared.events ++ [e] ∧ s₄.shared.events = s₃.shared.events ++ [e'] ∧
      (e.txHash, e.logIndex) ≠ (e'.txHash, e'.logIndex) := by
  obtain ⟨d₀, hwf, -, -, -, hP⟩ := exists_relayed (takenBack 0 1) (by decide +kernel)
  obtain ⟨s₁, hs₁, hP⟩ := (Option.any_eq_true ..).1 hP
  obtain ⟨s₂, hs₂, hP⟩ := (Option.any_eq_true ..).1 hP
  obtain ⟨s₃, hs₃, hP⟩ := (Option.any_eq_true ..).1 hP
  obtain ⟨s₄, hs₄, hP⟩ := (Option.any_eq_true ..).1 hP
  simp only [Bool.and_eq_true, decide_eq_true_eq] at hP
  have hr₁ : Reach (Step Env) (system relayOps d₀) s₁ :=
    reach_of_play (by decide) (env_schedule _) hs₁
  have hst₁ : Step Env (.go 0) s₁ s₂ := step_of_playMove (by decide) (by simp) hs₂
  have hr₃ : Reach (Step Env) s₂ s₃ := reach_of_play (by decide) (by simp [schedule]) hs₃
  have hst₃ : Step Env (.go 1) s₃ s₄ := step_of_playMove (by decide) (by simp) hs₄
  have hop : ∀ i, relayOps i = .runOnce ⟨9, 1, 0, 10⟩ := fun _ => rfl
  obtain ⟨e, e', he, he', hne⟩ := applied_once hwf (hop 0) (hop 1) hr₁ hst₁ hr₃ hst₃
    (fun h => hP.1 h.transfers.symm) fun h => hP.2 h.transfers.symm
  exact ⟨d₀, s₁, s₂, s₃, s₄, e, e', hr₁, hst₁, hr₃, hst₃, he, he', hne⟩

end Kimana
