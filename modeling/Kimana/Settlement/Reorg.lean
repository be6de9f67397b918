import Kimana.Op.Effect

/-!
# Reorganisations that go unnoticed

A pass compares the hash of the cursor's block once, and asks for the hash that it saves after it
has applied the logs of its range.  A reorganisation in between leaves rows of the old chain at or
below a cursor of the new one, and no later pass notices.

* `OnCursor` : the rows at or below the cursor of a vault lie on the cursor's chain.
* `Anchored` : the same, and those above it lie on the chain of the moment; kept by every commit of
  a pass that has its rows and logs on one chain (`Compared`).
* `onCursor_of_reach` : **noticed reorganisations**, in every run of one listener in which the chain
  drops no row above the cursor and, while a pass is under way, nothing recorded or fetched.
* `not_onCursor` : a reorganisation between the logs of a range and the hash of its end.
-/

namespace Kimana

open ReadCommitted Table Engine Listener

/-! ### Rows on a chain -/

/-- The block of an event row lies on a chain. -/
def SettlementEvent.On (e : SettlementEvent) (c : Chain) : Prop :=
  c.hash e.blockNumber = some e.blockHash

/-- The block of a log lies on a chain. -/
def RpcLog.On (log : RpcLog) (c : Chain) : Prop :=
  ∀ block hash, log.blockNumber = some block → log.blockHash = some hash →
    c.hash block = some hash

/-- A block is above a cursor; every block is above none. -/
def Above (cursor : Option (ℕ × BlockHash)) (block : ℕ) : Prop :=
  ∀ n h, cursor = some (n, h) → n < block

/-- The rows recorded for blocks at or below the cursor lie on the chain whose block has the
cursor's hash. -/
def OnCursor (v : ℕ) (d : World) : Prop :=
  ∀ n h, d.cursor v = some (n, h) → ∀ e ∈ d.events, e.vault = v → e.blockNumber ≤ n → e.On h

instance (e : SettlementEvent) (c : Chain) : Decidable (e.On c) :=
  inferInstanceAs (Decidable (_ = _))

/-- The hash of a block tells the hashes of the blocks below it. -/
theorem hash_of_hash {c : Chain} {n b : ℕ} {h : BlockHash} (hn : c.hash n = some h) (hb : b ≤ n) :
    Chain.hash h b = c.hash b := by
  unfold Chain.hash at hn
  split at hn
  case isFalse => cases hn
  case isTrue hlt =>
    cases hn
    have hlen : b < (c.take (n + 1)).length := by
      rw [List.length_take]
      omega
    rw [Chain.hash, Chain.hash, if_pos hlen, if_pos (by omega), List.take_take,
      Nat.min_eq_left (by omega)]

/-- A log lies in a block of its range, on the chain that answered. -/
theorem on_of_getLogs {c : Chain} {address start stop : ℕ} {log : RpcLog}
    (h : log ∈ c.getLogs address start stop) :
    log.On c ∧ ∀ block, log.blockNumber = some block → start ≤ block := by
  obtain ⟨n, hn, hlog⟩ := List.mem_flatMap.1 h
  unfold Chain.logsOf at hlog
  split at hlog
  case h_1 => cases hlog
  case h_2 b hb =>
    obtain ⟨l, -, rfl⟩ := List.mem_map.1 hlog
    obtain ⟨hlt, -⟩ := List.getElem?_eq_some_iff.1 hb
    refine ⟨?_, ?_⟩
    · rintro _ _ ⟨⟩ ⟨⟩
      exact if_pos hlt
    · rintro _ ⟨⟩
      exact (List.mem_range'_1.1 hn).1

/-- The rows at or below the cursor lie on its chain, and those above it on the chain of the
moment. -/
structure Anchored (v : ℕ) (d : World) : Prop where
  below : OnCursor v d
  above : ∀ e ∈ d.events, e.vault = v → Above (d.cursor v) e.blockNumber → e.On d.chain

/-- What a pass knows once it has compared the cursor's hash: every row lies on the chain, the
cursor is below block `next`, and the logs in hand are above it and lie on the chain. -/
structure Compared (v next : ℕ) (logs : List RpcLog) (d : World) : Prop where
  below : OnCursor v d
  rows : ∀ e ∈ d.events, e.vault = v → e.On d.chain
  next : ∀ n h, d.cursor v = some (n, h) → n < next
  logs : ∀ log ∈ logs, log.On d.chain ∧
    ∀ block, log.blockNumber = some block → Above (d.cursor v) block

variable {v next : ℕ} {logs : List RpcLog} {d : World} {ws : List Write}

theorem Compared.anchored (h : Compared v next logs d) : Anchored v d :=
  ⟨h.below, fun e he hv _ => h.rows e he hv⟩

theorem anchored_of_new (h : d.events = []) : Anchored v d where
  below n b _ e he := by
    rw [h] at he
    cases he
  above e he := by
    rw [h] at he
    cases he

/-- A hash that is still the cursor's puts every row on the chain. -/
theorem Anchored.compared (h : Anchored v d)
    (hcursor : ∀ n b, d.cursor v = some (n, b) → n < next ∧ d.chain.hash n = some b) :
    Compared v next [] d where
  below := h.below
  rows e he hv := by
    by_cases ha : Above (d.cursor v) e.blockNumber
    · exact h.above e he hv ha
    -- The hash of the cursor's block speaks for all blocks below it.
    · simp only [Above, not_forall, Nat.not_lt] at ha
      obtain ⟨n, b, hc, hle⟩ := ha
      exact (hash_of_hash (hcursor n b hc).2 hle).symm.trans (h.below n b hc e he hv hle)
  next n b hc := (hcursor n b hc).1
  logs := by simp

/-! ### What a listener writes -/

/-- The vault whose records a statement changes. -/
def Write.vault? : Write → Option ℕ
  | insertEvent row => some row.vault
  | saveCursor row => some row.vault
  | _ => none

theorem chain_applyAll (ws : List Write) (d : World) : (applyAll ws d).chain = d.chain := by
  induction ws generalizing d with
  | nil => rfl
  | cons w ws ih =>
    rw [applyAll_cons, ih]
    cases w <;> rfl

theorem cursor_saveCursor (row : CursorRow) (d : World) (v : ℕ) :
    ((Write.saveCursor row).apply d).cursor v =
      if row.vault = v then some (row.lastBlock, row.lastBlockHash) else d.cursor v := by
  have hfilter : ∀ rows : List CursorRow, row.vault ≠ v →
      (rows.filter fun c => c.vault != row.vault).find? (fun c => c.vault = v) =
        rows.find? fun c => c.vault = v := fun rows hne => by
    rw [List.find?_filter]
    congr 1
    funext c
    by_cases hc : c.vault = v
    · simp [hc, Ne.symm hne]
    · simp [hc]
  split
  case isTrue hv =>
    subst hv
    have hnone : (d.cursors.filter fun c => c.vault != row.vault).find?
        (fun c => c.vault = row.vault) = none := by
      rw [List.find?_eq_none]
      simp
    simp [World.cursor, Write.apply, upsertCursor, List.find?_append, hnone]
  case isFalse hv =>
    simp [World.cursor, Write.apply, upsertCursor, List.find?_append, hfilter _ hv, hv]

/-- A commit that saves no cursor of a vault leaves it. -/
theorem cursor_applyAll (h : ∀ row, .saveCursor row ∈ ws → row.vault ≠ v) :
    (applyAll ws d).cursor v = d.cursor v := by
  induction ws generalizing d with
  | nil => rfl
  | cons w ws ih =>
    rw [applyAll_cons, ih fun row hrow => h row (List.mem_cons_of_mem _ hrow)]
    cases w
    case saveCursor row =>
      rw [store_apply, cursor_saveCursor, if_neg (h row List.mem_cons_self)]
    all_goals rfl

theorem insertEvent_mem_brief {row : SettlementEvent} (h : .insertEvent row ∈ ws) :
    .insertEvent row ∈ brief ws := List.mem_filterMap.2 ⟨_, h, rfl⟩

theorem saveCursor_mem_brief {row : CursorRow} (h : .saveCursor row ∈ ws) :
    .saveCursor row ∈ brief ws := List.mem_filterMap.2 ⟨_, h, rfl⟩

/-- A path changes no vault's records but for what follows it. -/
theorem vault_path {t : TransferRow} {steps : List PathStep} {tail : List Write}
    (h : Moves d ws t steps tail) {w : Write} (hw : w ∈ brief ws) (hv : w.vault? = some v) :
    w ∈ tail := by
  rw [h.brief, List.mem_append] at hw
  refine hw.resolve_left fun hw => ?_
  obtain ⟨e, rfl, -⟩ | ⟨r, rfl, -⟩ | ⟨s, rfl⟩ | ⟨a, rfl, -⟩ := about_pathBrief hw <;> cases hv

/-- A commit that records a log saves no cursor. -/
theorem vault_ne_of_records {cfg : ListenerConfig} {event : VaultEvent} {txHash : B256}
    {logIndex block : ℕ} {hash : BlockHash} {target : Option OnchainTarget} {t : TransferRow}
    {steps : List PathStep}
    (hr : Records cfg event txHash logIndex block hash target d ws t steps) :
    ∀ row, .saveCursor row ∈ ws → row.vault ≠ v := by
  intro row hrow he
  have := vault_path hr.moves (saveCursor_mem_brief hrow) (congrArg some he)
  simp at this

/-- Only a vault's listener changes its records. -/
theorem Op.Commits.vault {A : Assumed} {op : Op} (h : op.Commits A d ws) {w : Write}
    (hw : w ∈ brief ws) (hv : w.vault? = some v) : ∃ cfg, op = .runOnce cfg ∧ cfg.vault = v := by
  cases op with
  | createTransfer =>
    obtain ⟨_, _, _, _, hc⟩ | ⟨_, t, steps, -, hm, -⟩ := h
    · rw [hc.brief] at hw
      simp only [List.mem_cons, List.not_mem_nil, or_false] at hw
      rcases hw with rfl | rfl | rfl | rfl <;> cases hv
    · cases vault_path hm hw hv
  | advanceOnce | advanceToCompletion | expireTransfer | reverseTransfer | applyOnchain
  | resolveScreeningHold =>
    obtain ⟨t, steps, -, hm, -⟩ := h
    cases vault_path hm hw hv
  | executeTrade =>
    obtain ⟨row, -, ht⟩ := h
    rw [ht.brief] at hw
    simp only [SettlementWallet.tradeEntries, Ledger.posted, List.map_cons, List.map_nil,
      List.mem_cons, List.not_mem_nil, or_false] at hw
    rcases hw with rfl | rfl | rfl <;> cases hv
  | cancelCollection state session id answer =>
    have hb : brief ws = [.cancelCollection id 0] := h.1
    rw [hb, List.mem_singleton] at hw
    subst hw
    cases hv
  | applyInbound | receiveYellowcard | receiveBridge =>
    obtain ⟨row, -, hb⟩ := h
    rw [hb] at hw
    cases hrow : row.collectionId <;> rw [hrow] at hw <;>
      simp [Collections.creditEntry, Ledger.posted] at hw <;>
      rcases hw with rfl | rfl | rfl <;> cases hv
  | runOnce cfg =>
    refine ⟨cfg, rfl, ?_⟩
    obtain ⟨event, txHash, logIndex, block, hash, target, t, steps, hr⟩ | ⟨block, hash, rfl⟩ := h
    · obtain rfl := List.mem_singleton.1 (vault_path hr.moves hw hv)
      exact Option.some.inj hv
    · obtain rfl : w = _ := by simpa [Write.brief] using hw
      exact Option.some.inj hv

/-- A commit that changes no records of a vault keeps them anchored. -/
theorem Anchored.untouched (h : Anchored v d) (hw : ∀ w ∈ brief ws, w.vault? ≠ some v) :
    Anchored v (applyAll ws d) := by
  have hcursor : (applyAll ws d).cursor v = d.cursor v :=
    cursor_applyAll fun row hrow he => hw _ (saveCursor_mem_brief hrow) (congrArg some he)
  have hevents : ∀ e ∈ (applyAll ws d).events, e.vault = v → e ∈ d.events := fun e he hv => by
    rw [events_applyAll, List.mem_append] at he
    refine he.resolve_right fun he => ?_
    obtain ⟨w, hmem, hw'⟩ := List.mem_filterMap.1 he
    cases w <;> cases hw'
    exact hw _ (insertEvent_mem_brief hmem) (congrArg some hv)
  constructor
  · intro n b hc e he hv
    exact h.below n b (hcursor ▸ hc) e (hevents e he hv) hv
  · intro e he hv ha
    rw [chain_applyAll]
    exact h.above e (hevents e he hv) hv (hcursor ▸ ha)

/-- A recorded log joins the rows of the chain. -/
theorem Compared.record {cfg : ListenerConfig} {event : VaultEvent} {txHash : B256}
    {logIndex block : ℕ} {hash : BlockHash} {target : Option OnchainTarget} {t : TransferRow}
    {steps : List PathStep} (h : Compared v next
      (logAt txHash logIndex block hash event :: logs) d)
    (hr : Records cfg event txHash logIndex block hash target d ws t steps) :
    Compared v next logs (applyAll ws d) := by
  obtain ⟨hon, hup⟩ := h.logs _ List.mem_cons_self
  have hcursor : (applyAll ws d).cursor v = d.cursor v := cursor_applyAll (vault_ne_of_records hr)
  have hevents : ∀ e ∈ (applyAll ws d).events, e ∈ d.events ∨
      e.blockNumber = block ∧ e.blockHash = hash := fun e he => by
    rw [events_applyAll, hr.moves.events, List.mem_append] at he
    refine he.imp_right fun he => ?_
    obtain rfl : e = _ := by simpa [Write.event] using he
    exact ⟨rfl, rfl⟩
  constructor
  · intro n b hc e he hv hle
    rw [hcursor] at hc
    rcases hevents e he with he | ⟨rfl, -⟩
    · exact h.below n b hc e he hv hle
    -- The new row is above the cursor, as its log is.
    · exact absurd hle (Nat.not_le.2 (hup _ rfl n b hc))
  · intro e he hv
    rw [chain_applyAll]
    rcases hevents e he with he | ⟨rfl, rfl⟩
    · exact h.rows e he hv
    · exact hon _ _ rfl rfl
  · rw [hcursor]
    exact h.next
  · rw [hcursor, chain_applyAll]
    exact fun log hlog => h.logs log (List.mem_cons_of_mem _ hlog)

/-! ### The rules -/

/-- What happens besides the calls when no reorganisation drops a row above the cursor. -/
def Sparing (v : ℕ) (d d' : World) : Prop :=
  Env d d' ∧ ∀ e ∈ d.events, e.vault = v → Above (d.cursor v) e.blockNumber → e.On d.chain →
    e.On d'.chain

/-- What a pass of the one listener of a vault may see of others: they leave the vault's rows and
its cursor, and once the cursor's hash is compared no reorganisation drops a row or a log in
hand. -/
structure Heeds (v : ℕ) (l : Label) (d d' : World) : Prop where
  alone : l.pass ≠ .idle →
    (∀ e ∈ d'.events, e.vault = v → e ∈ d.events) ∧ d'.cursor v = d.cursor v
  fetched : ∀ held, l.pass = .past held →
    (∀ e ∈ d.events, e.vault = v → e.On d.chain → e.On d'.chain) ∧
      ∀ log ∈ held, log.On d.chain → log.On d'.chain

/-- A step of a run of one listener that no reorganisation escapes. -/
def Heeded {ι : Type} [DecidableEq ι] (v : ℕ) (e : Event ι)
    (s s' : Sys ι World Write Key Label Failure Answer) : Prop :=
  Step (Sparing v) e s s' ∧ Meets (fun l _ => Heeds v l) e s s'

/-- The rules of operations that keep the rows of a vault anchored. -/
def anchoring {ι : Type} (ops : ι → Op) (v : ℕ) : Rules ι World Key Label where
  guar i ℓ ids d d' := (rules noAssumption ops anyChange).guar i ℓ ids d d' ∧
    (Anchored v d → Anchored v d')
  env := Sparing v
  cond l _ := Heeds v l

section Runs

variable {ι : Type} {ops : ι → Op}

theorem framed_anchoring : Framed (anchoring ops v) where
  guar i ℓ ids d d' h := by
    obtain ⟨⟨ws, rfl, hv, -⟩, -⟩ := h
    exact ⟨ws, rfl, hv⟩
  agree ℓ ids d d' h := h.1.agree ℓ ids
  wf d d' h := h.1.wf
  nextId d d' h := by cases h.1 <;> exact le_rfl
  cond _ _ _ _ h := ⟨h.alone, h.fetched⟩
  stand _ _ _ := trivial

theorem Anchored.bump (h : Anchored v d) : Anchored v (bump d) := ⟨h.below, h.above⟩

theorem Anchored.sparing {d' : World} (h : Anchored v d) (he : Sparing v d d') :
    Anchored v d' := by
  obtain ⟨henv, hspare⟩ := he
  cases henv with
  | tick now hnow => exact ⟨h.below, h.above⟩
  | chain c => exact ⟨h.below, fun e he hv ha => hspare e he hv ha (h.above e he hv ha)⟩

/-- The rows stay anchored while a call stands still. -/
theorem Anchored.rely {loc : Loc} {w : Option World} {d' : World} (h : Anchored v d)
    (hr : (anchoring ops v).Rely loc w d d') : Anchored v d' := by
  refine hr.invariant h fun d d' h ho => ?_
  cases ho with
  | bump => exact h.bump
  | guar _ _ _ _ _ _ hg _ => exact hg.2 h
  | env he _ => exact h.sparing he

/-- While a pass stands still the rows and the cursor of its vault stay. -/
theorem alone_of_rely {loc : Loc} {w : Option World} {d' : World} (hp : loc.label.pass ≠ .idle)
    (hr : (anchoring ops v).Rely loc w d d') :
    (∀ e ∈ d'.events, e.vault = v → e ∈ d.events) ∧ d'.cursor v = d.cursor v := by
  refine hr.invariant (P := fun d' => (∀ e ∈ d'.events, e.vault = v → e ∈ d.events) ∧
    d'.cursor v = d.cursor v) ⟨fun _ he _ => he, rfl⟩ fun d₁ d₂ h ho => ?_
  have hstep : (∀ e ∈ d₂.events, e.vault = v → e ∈ d₁.events) ∧ d₂.cursor v = d₁.cursor v := by
    cases ho with
    | bump => exact ⟨fun _ he _ => he, rfl⟩
    | guar _ _ _ _ _ _ _ hc => exact hc.alone hp
    | env _ hc => exact hc.alone hp
  exact ⟨fun e he hv => h.1 e (hstep.1 e he hv) hv, hstep.2.trans h.2⟩

/-- What a pass knows lasts while it has logs in hand. -/
theorem Compared.rely {loc : Loc} {w : Option World} {held : List RpcLog} {d' : World}
    (hl : loc.label.pass = .past held) (hsuf : logs <:+ held) (h : Compared v next logs d)
    (hr : (anchoring ops v).Rely loc w d d') : Compared v next logs d' := by
  refine hr.invariant h fun d₁ d₂ h ho => ?_
  have hp : loc.label.pass ≠ .idle := by simp [hl]
  have hc : Heeds v loc.label d₁ d₂ := by
    cases ho with
    | bump =>
      exact ⟨fun _ => ⟨fun _ he _ => he, rfl⟩, fun _ _ => ⟨fun _ _ _ he => he, fun _ _ h => h⟩⟩
    | guar _ _ _ _ _ _ _ hc => exact hc
    | env _ hc => exact hc
  have hanch : Anchored v d₂ := by
    cases ho with
    | bump => exact h.anchored.bump
    | guar _ _ _ _ _ _ hg _ => exact hg.2 h.anchored
    | env he _ => exact h.anchored.sparing he
  obtain ⟨hevents, hcursor⟩ := hc.alone hp
  obtain ⟨hrows, hlogs⟩ := hc.fetched held hl
  refine ⟨hanch.below, fun e he hv => ?_, ?_, fun log hlog => ?_⟩
  · have he₁ := hevents e he hv
    exact hrows e he₁ hv (h.rows e he₁ hv)
  · rw [hcursor]
    exact h.next
  · rw [hcursor]
    obtain ⟨hon, hup⟩ := h.logs log hlog
    exact ⟨hlogs log (hsuf.subset hlog) hon, hup⟩

/-- The cursor is saved with the hash of the chain that the rows lie on. -/
theorem Compared.save {cfg : ListenerConfig} {loc : Loc} {c stop : ℕ} {hash : BlockHash}
    {d' : World} (hcfg : cfg.vault = v) (h : Compared v (stop + 1) [] d)
    (hhash : d.chain.hash stop = some hash)
    (hl : loc.label.pass = if stop = c then .closing hash else .past [])
    (hr : (anchoring ops v).Rely loc none d d') :
    Anchored v (applyAll [.saveCursor ⟨cfg.vault, stop, hash⟩] d') ∧
      (stop ≠ c →
        Compared v (stop + 1) [] (applyAll [.saveCursor ⟨cfg.vault, stop, hash⟩] d')) := by
  have hp : loc.label.pass ≠ .idle := by
    rw [hl]
    split <;> simp
  obtain ⟨hevents, hcursor⟩ := alone_of_rely hp hr
  have hsaved : (applyAll [.saveCursor ⟨cfg.vault, stop, hash⟩] d').cursor v =
      some (stop, hash) := by
    rw [applyAll_cons, applyAll_nil, store_apply, cursor_saveCursor, if_pos hcfg]
  have hbelow : OnCursor v (applyAll [.saveCursor ⟨cfg.vault, stop, hash⟩] d') := by
    intro n b hc e he hv hle
    rw [hsaved] at hc
    cases hc
    exact (hash_of_hash hhash hle).trans (h.rows e (hevents e he hv) hv)
  refine ⟨⟨hbelow, fun e he hv ha => ?_⟩, fun hne => ⟨hbelow, fun e he hv => ?_, ?_, by simp⟩⟩
  · rw [hsaved] at ha
    refine (h.anchored.rely hr).above e he hv fun n b hc => ?_
    rw [hcursor] at hc
    exact (Nat.lt_of_lt_of_le (h.next n b hc) (Nat.le_refl _)).trans_le
      (Nat.succ_le_of_lt (ha stop hash rfl))
  · rw [if_neg hne] at hl
    exact (h.rely hl (List.nil_suffix) hr).rows e he hv
  · rw [hsaved]
    rintro n b ⟨⟩
    exact Nat.lt_succ_self _

/-- A pass keeps its rows and logs on one chain. -/
theorem passes_anchoring {i : ι} {cfg : ListenerConfig} (hop : ops i = .runOnce cfg)
    (hcfg : cfg.vault = v) :
    Passes (anchoring ops v) i cfg (Anchored v) (fun _ next logs => Compared v next logs)
      fun _ _ => True where
  inv _ _ _ hr _ h := h.rely hr
  stand _ _ _ _ _ _ _ _ _ _ := trivial
  start loc₀ loc d₀ d₁ d₂ cursor hwf hs hr₁ _ hc hl hr₂ hcheck := by
    have hp : loc.label.pass ≠ .idle := by simp [hl]
    obtain ⟨-, hcursor⟩ := alone_of_rely hp hr₂
    refine ((hs.rely hr₁).rely hr₂).compared fun n b hn => ?_
    rw [hcursor, ← hcfg, hc] at hn
    subst hn
    exact ⟨Nat.lt_succ_self n, hcheck n b rfl⟩
  handles c next :=
    { stable loc logs held d d' hl hsuf hr _ h := h.rely hl hsuf hr
      skip log logs d h _ := { h with logs := fun l hl => h.logs l (List.mem_cons_of_mem _ hl) }
      record logs event id txHash logIndex block hash d₀ d₁ d₂ d₃ target ws t steps hT
          _ _ _ _ hr := by
        have h := (hT d₃ (by simp)).2.record hr
        refine ⟨fun ℓ ids hv => ⟨⟨ws, rfl, hv, ?_⟩, fun _ => h.anchored⟩, h⟩
        rw [hop]
        exact .inl ⟨event, txHash, logIndex, block, hash, target, t, steps, hr⟩ }
  fetch c next d hle h := by
    refine ⟨h.below, h.rows, fun n b hc => ?_, fun log hlog => ?_⟩
    · have := h.next n b hc
      simp only [rangeEnd]
      omega
    · rw [rangeLogs, List.mem_insertionSort] at hlog
      obtain ⟨hon, hup⟩ := on_of_getLogs hlog
      exact ⟨hon, fun block hb n b hc => (h.next n b hc).trans_le (hup block hb)⟩
  save loc c stop hash d d' ℓ ids h _ hhash hl hr := by
    obtain ⟨hanch, hnext⟩ := h.save hcfg hhash hl hr
    refine ⟨⟨⟨_, rfl, ⟨⟨by simp [Write.keys], trivial, by simp [Write.publishes]⟩, trivial⟩, ?_⟩,
      fun _ => hanch⟩, ?_⟩
    · rw [hop]
      exact .inr ⟨stop, hash, rfl⟩
    · split
      case isTrue => trivial
      case isFalse hne => exact hnext hne

/-- Every operation keeps the rows of a vault anchored. -/
theorem runs_anchoring {i : ι} {d₀ : World} (hwf : Wf d₀) (h₀ : Anchored v d₀) :
    Runs (anchoring ops v) i (ops i).Post (ops i).prog { label := default } d₀ := by
  by_cases hop : ∃ cfg, ops i = .runOnce cfg ∧ cfg.vault = v
  · obtain ⟨cfg, hop, hcfg⟩ := hop
    have h : Idle ({ label := default } : Loc) d₀ := ⟨hwf, ⟨rfl, by rintro c ⟨⟩⟩, rfl, rfl⟩
    have hpost : ∀ r made d, (ops i).Post r made d := fun r made d => by
      rw [hop]
      rcases r with e | a <;> trivial
    rw [Runs, show (ops i).prog = wrap .listener .block (Listener.runOnce cfg) by rw [hop]; rfl]
    exact wp_wrap.2 (wp_mono (fun _ _ _ _ _ _ => hpost ..) (fun _ _ _ _ _ _ => hpost ..)
      (runOnce_spec framed_anchoring (passes_anchoring hop hcfg) h h₀))
  · -- Nothing else changes the records of the vault.
    refine wp_prog framed_anchoring granted_noAssumption (fun _ _ => trivial)
      (fun ℓ ids d ws hv hk => ⟨⟨ws, rfl, hv, hk⟩, fun h => h.untouched fun w hw he => ?_⟩) hwf
    exact hop (hk.vault hw he)

variable [DecidableEq ι]

theorem anchored_of_reach {d₀ : World} (hwf : Wf d₀) (h₀ : Anchored v d₀)
    {s : Sys ι World Write Key Label Failure Answer}
    (hr : Reach (Heeded v) (system ops d₀) s) : Anchored v s.shared := by
  have hok : ∀ {s}, Reach (Heeded v) (system ops d₀) s →
      SysOk (anchoring ops v) (fun i => (ops i).Post) s := fun hr =>
    (SysOk.start fun i => runs_anchoring hwf h₀).reach framed_anchoring.seqMono hr
  refine hr.invariant (I := fun s => Anchored v s.shared) h₀ ?_
  rintro s e s' hs h hst
  have hm := (hok hs).moved hst.1
  generalize s'.shared = d' at hm
  cases hm with
  | go i d _ hch =>
    rcases hch with rfl | rfl | ⟨-, hg⟩
    · exact h
    · exact h.bump
    · exact hg h
  | crash i => exact h
  | env d he => exact h.sparing he

/-- **Noticed reorganisations**: in every run of the one listener of a vault whose steps the chain
spares, the rows at or below the cursor lie on the chain whose block has the cursor's hash. -/
theorem onCursor_of_reach {d₀ : World} (hwf : Wf d₀) (hnew : d₀.events = [])
    {s : Sys ι World Write Key Label Failure Answer}
    (hr : Reach (Heeded v) (system ops d₀) s) : OnCursor v s.shared :=
  (anchored_of_reach hwf (anchored_of_new hnew) hr).below

end Runs

/-! ### A reorganisation during a pass -/

/-- The vault locks a quote for the first transfer in block 1. -/
def loggedChain : Chain :=
  [⟨0, [], 0⟩, ⟨1, [⟨9, 7, 0, some (.quoteLocked 100 1 "NGN" 0 0 0 0 0)⟩], 0⟩, ⟨2, [], 0⟩]

/-- The blocks from 1 on are replaced, and the log is gone. -/
def reorganised : Chain := [⟨0, [], 0⟩, ⟨1, [], 1⟩, ⟨2, [], 1⟩]

/-- The database before the transfer is created. -/
def reorgWorld : World := { sampleWorld "NG" with chain := loggedChain }

/-- A creation, and two passes one block behind the head. -/
def reorgOps : Fin 3 → Op
  | 0 => sampleCreate true "transfer" 3
  | _ => .runOnce ⟨9, 1, 0, 10⟩

theorem wf_reorgWorld : Wf reorgWorld :=
  { wf_sampleWorld "NG" with below := fun n hn => { (wf_sampleWorld "NG").below n hn with } }

/-- The chain stays, and others leave events and cursors while a pass is under way. -/
def undisturbedPass (l : Label) (d d' : World) : Bool :=
  d'.chain = d.chain && (l.pass = .idle || d'.events = d.events && d'.cursors = d.cursors)

theorem heeds_of_undisturbedPass {l : Label} {d' : World} (h : undisturbedPass l d d' = true) :
    Heeds v l d d' := by
  simp only [undisturbedPass, Bool.and_eq_true, Bool.or_eq_true, decide_eq_true_eq] at h
  obtain ⟨hchain, hrest⟩ := h
  constructor
  · intro hp
    obtain ⟨hevents, hcursors⟩ := hrest.resolve_left hp
    exact ⟨fun e he _ => hevents ▸ he, by rw [World.cursor, World.cursor, hcursors]⟩
  · intro held _
    rw [hchain]
    exact ⟨fun _ _ _ he => he, fun _ _ h => h⟩

/-- A pass on a chain that stays, and a second one that finds its cursor. -/
theorem onCursor_of_still :
    ∃ s n h, Reach (Heeded 9) (system reorgOps reorgWorld) s ∧
      (s.calls 2).label.pass = .found (some (n, h)) ∧ s.shared.cursor 9 = some (n, h) ∧
      (∃ e ∈ s.shared.events, e.vault = 9 ∧ e.blockNumber ≤ n) ∧ OnCursor 9 s.shared := by
  obtain ⟨s, hr, h⟩ := exists_reach_of_playIf (Sparing 9) (fun l _ => undisturbedPass l) [0, 1, 2]
    (schedule [(0, 41), (1, 12), (2, 2)]) (system reorgOps reorgWorld)
    (fun s => (s.shared.cursor 9).any (fun c => (s.calls 2).label.pass = .found (some c) &&
      s.shared.events.any fun e => e.vault = 9 && e.blockNumber ≤ c.1))
    (by decide) (env_schedule _) (by decide +kernel)
  obtain ⟨⟨n, b⟩, hc, hs⟩ := (Option.any_eq_true ..).1 h
  simp only [Bool.and_eq_true, decide_eq_true_eq, List.any_eq_true] at hs
  have hr' : Reach (Heeded 9) (system reorgOps reorgWorld) s := hr.mono fun _ _ _ hst =>
    ⟨hst.1, fun j hj => heeds_of_undisturbedPass (hst.2 j hj)⟩
  exact ⟨s, n, b, hr', hs.1, hc, hs.2, onCursor_of_reach wf_reorgWorld rfl hr'⟩

/-- The chain is replaced after the logs of a range are applied and before its hash is asked for. -/
def overtakenPass : List (Move (Fin 3) World) :=
  schedule [(0, 41), (1, 10)] ++ [.env fun d => { d with chain := reorganised }] ++
    schedule [(1, 2), (2, 2)]

/-- The second pass finds a cursor of the new chain and a row of the old one, and goes on. -/
theorem not_onCursor :
    ∃ s s', Reach (Step Env) (system reorgOps reorgWorld) s ∧ Step Env (.go 2) s s' ∧
      (s.calls 2).label.pass = .found (s.shared.cursor 9) ∧ (s'.calls 2).succeeded = true ∧
      ¬ OnCursor 9 s.shared := by
  have henv : ∀ f, Move.env f ∈ overtakenPass → ∀ d, Env d (f d) := by
    intro f hf d
    simp only [overtakenPass, List.mem_append, List.mem_singleton, Move.env.injEq] at hf
    rcases hf with (hf | rfl) | hf
    · exact env_schedule _ f hf d
    · exact .chain _
    · exact env_schedule _ f hf d
  obtain ⟨s, hr, hs⟩ := exists_reach_of_play Env [0, 1, 2] overtakenPass
    (system reorgOps reorgWorld)
    (fun s => (playMove [0, 1, 2] s (.go 2)).any fun s' => (s'.calls 2).succeeded &&
      decide ((s.calls 2).label.pass = .found (s.shared.cursor 9)) &&
      (s.shared.cursor 9).any fun c => s.shared.events.any fun e =>
        e.vault = 9 && e.blockNumber ≤ c.1 && !decide (e.On c.2))
    (by decide) henv (by decide +kernel)
  obtain ⟨s', hs', h⟩ := (Option.any_eq_true ..).1 hs
  simp only [Bool.and_eq_true, decide_eq_true_eq] at h
  obtain ⟨⟨n, b⟩, hc, hrow⟩ := (Option.any_eq_true ..).1 h.2
  obtain ⟨e, he, hrow⟩ := List.any_eq_true.1 hrow
  simp only [Bool.and_eq_true, decide_eq_true_eq, Bool.not_eq_true', decide_eq_false_iff_not]
    at hrow
  exact ⟨s, s', hr, step_of_playMove (by decide) (by simp) hs', h.1.2, h.1.1,
    fun hon => hrow.2 (hon n b hc e he hrow.1.1 hrow.1.2)⟩

end Kimana
