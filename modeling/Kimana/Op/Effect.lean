import Kimana.Op.Run

/-!
# What a commit does to a transfer

Every commit takes one transfer along a path, creates one, or is about none (`Kind`).

* `Op.Takes` : the paths an operation may take a transfer along.
* `Op.Commits.kind` : the three kinds.
* `Moves.transfer`, `Moves.entries`, `Moves.history` : what a path does to its transfer and leaves
  of the others; `Creation.transfer`, `Apart.transfer` and their companions.
-/

namespace Kimana

open ReadCommitted Table Engine TransferStatus

/-- The paths an operation may take a transfer along. -/
def Op.Takes (A : Assumed) (op : Op) (d : World) (ws : List Write) (t : TransferRow)
    (steps : List PathStep) : Prop :=
  match op with
  | createTransfer state .. => Advance A state d ws t steps
  | advanceOnce state id .. => t.id = id ∧ Advance A state d ws t steps
  | advanceToCompletion state id _ => t.id = id ∧ Advance A state d ws t steps
  | expireTransfer id _ => t.id = id ∧ ∃ payee, steps = [⟨.expired, none, payee⟩]
  | reverseTransfer id _ _ => t.id = id ∧ steps.map (·.target) = [.reversing, .reversed] ∧
    ∀ st ∈ steps, st.Plain
  | applyOnchain id target payload => t.id = id ∧ OnchainSteps target payload t steps ∧
    (steps = [] → ws = [])
  | resolveScreeningHold id decision reason _ body => t.id = id ∧ t.currentStatus = .screened ∧
    ∃ payee, steps = [⟨(resolution decision reason body).1,
      some (resolution decision reason body).2, payee⟩]
  | runOnce _ => ∃ target payload, Listener.TargetSteps target payload t steps ∧
    payload.get "status" = none
  | _ => False

/-- A commit that is about no transfer. -/
structure Apart (ws : List Write) : Prop where
  transfer : ∀ w ∈ brief ws, w.transferId = none
  entry : ∀ e ∈ (brief ws).filterMap Write.entry, ∀ id, e.source ≠ .transfer id
  history : (brief ws).filterMap Write.historyRow = []
  change : (brief ws).filterMap Write.change = []

/-- What a commit is about. -/
inductive Kind (A : Assumed) (op : Op) (d : World) (ws : List Write) : Prop
  | path {t : TransferRow} {steps : List PathStep} {tail : List Write} : Moves d ws t steps tail →
      (tail = [] ∨ ∃ ev, tail = [.insertEvent ev]) → op.Takes A d ws t steps → Kind A op d ws
  | create {state : AppState} {session : Session} {input : Service.CreateTransferInput}
      {body : String} {q : QuoteRow} {recipientId id : Uuid} {now : Time} :
      (∃ bodies, op = .createTransfer state session input body bodies) →
      Service.Creation state session input body d ws q recipientId id now → Kind A op d ws
  | apart : Apart ws → Kind A op d ws

variable {A : Assumed} {op : Op} {d : World} {ws : List Write}

theorem StepsCommit.kind {id : Uuid} {ok : TransferRow → List PathStep → Prop}
    (h : StepsCommit id ok d ws)
    (hop : ∀ t steps, t.id = id → ok t steps → op.Takes A d ws t steps) :
    Kind A op d ws := by
  obtain ⟨t, steps, hid, hm, hok⟩ := h
  exact .path hm (.inl rfl) (hop t steps hid hok)

/-- Every commit takes one transfer along a path, creates one, or is about none. -/
theorem Op.Commits.kind (h : op.Commits A d ws) : Kind A op d ws := by
  cases op with
  | createTransfer state session input body bodies =>
    obtain ⟨q, r, id, now, hc⟩ | ⟨id, t, steps, -, hm, ha⟩ := h
    · exact .create ⟨bodies, rfl⟩ hc
    · exact .path hm (.inl rfl) ha
  | advanceOnce | advanceToCompletion =>
    obtain ⟨t, steps, hid, hm, ha⟩ := h
    exact .path hm (.inl rfl) ⟨hid, ha⟩
  | expireTransfer => exact StepsCommit.kind h fun _ _ hid hok => ⟨hid, hok⟩
  | reverseTransfer => exact StepsCommit.kind h fun _ _ hid hok => ⟨hid, hok⟩
  | resolveScreeningHold => exact StepsCommit.kind h fun _ _ hid hok => ⟨hid, hok⟩
  | applyOnchain =>
    obtain ⟨t, steps, hid, hm, hs, hq⟩ := h
    exact .path hm (.inl rfl) ⟨hid, hs, hq⟩
  | executeTrade =>
    obtain ⟨row, -, ht⟩ := h
    refine .apart ⟨?_, ?_, ?_, ?_⟩ <;> rw [ht.brief]
    · simp [SettlementWallet.tradeEntries, Write.transferId]
    · simp only [SettlementWallet.tradeEntries, Ledger.posted, List.map_cons, List.map_nil,
        List.filterMap_cons, Write.entry, List.filterMap_nil, List.forall_mem_cons]
      simp
    · simp [SettlementWallet.tradeEntries, Write.historyRow]
    · simp [SettlementWallet.tradeEntries, Write.change]
  | cancelCollection state session id answer =>
    have hb : brief ws = [.cancelCollection id 0] := h.1
    refine .apart ⟨?_, ?_, ?_, ?_⟩ <;>
      simp [hb, Write.transferId, Write.entry, Write.historyRow, Write.change]
  | applyInbound | receiveYellowcard | receiveBridge =>
    obtain ⟨row, -, hb⟩ := h
    refine .apart ⟨?_, ?_, ?_, ?_⟩ <;> rw [hb] <;> cases row.collectionId <;>
      simp [Write.transferId, Write.entry, Write.historyRow, Write.change, Collections.creditEntry,
        Ledger.posted]
  | runOnce cfg =>
    obtain ⟨event, txHash, logIndex, block, hash, target, t, steps, hr⟩ | ⟨block, hash, rfl⟩ := h
    · exact .path hr.moves (.inr ⟨_, rfl⟩) ⟨target, _, hr.kind, rfl⟩
    · refine .apart ⟨?_, ?_, ?_, ?_⟩ <;>
        simp [Write.brief, Write.transferId, Write.entry, Write.historyRow, Write.change]

/-! ### Tables -/

/-- A statement on the tables that operations on transfers change. -/
def Write.ofTransfers : Write → Bool
  | insertTrade _ | insertInbound _ | payCollection .. | cancelCollection .. => false
  | _ => true

/-- An operation on transfers. -/
def Op.ofTransfers : Op → Bool
  | executeTrade .. | cancelCollection .. | applyInbound _ | receiveYellowcard ..
  | receiveBridge .. => false
  | _ => true

theorem ofTransfers_path {t : TransferRow} {steps : List PathStep} {tail : List Write}
    (h : Moves d ws t steps tail) (ht : tail = [] ∨ ∃ ev, tail = [.insertEvent ev]) :
    ∀ w ∈ brief ws, w.ofTransfers = true := by
  intro w hw
  rw [h.brief, List.mem_append] at hw
  rcases hw with hw | hw
  · obtain ⟨e, rfl, -⟩ | ⟨r, rfl, -⟩ | ⟨s, rfl⟩ | ⟨a, rfl, -⟩ := about_pathBrief hw <;> rfl
  · obtain rfl | ⟨ev, rfl⟩ := ht
    · cases hw
    · rw [List.mem_singleton.1 hw]
      rfl

/-- Operations on transfers change no other tables. -/
theorem Op.Commits.ofTransfers (h : op.Commits A d ws) (hop : op.ofTransfers = true) :
    ∀ w ∈ brief ws, w.ofTransfers = true := by
  cases op with
  | createTransfer =>
    obtain ⟨_, _, _, _, hc⟩ | ⟨_, t, steps, -, hm, -⟩ := h
    · rw [hc.brief]
      simp [Write.ofTransfers]
    · exact ofTransfers_path hm (.inl rfl)
  | advanceOnce | advanceToCompletion | expireTransfer | reverseTransfer | applyOnchain
  | resolveScreeningHold =>
    obtain ⟨t, steps, -, hm, -⟩ := h
    exact ofTransfers_path hm (.inl rfl)
  | runOnce =>
    obtain ⟨_, _, _, _, _, _, t, steps, hr⟩ | ⟨_, _, rfl⟩ := h
    · exact ofTransfers_path hr.moves (.inr ⟨_, rfl⟩)
    · simp [Write.brief, Write.ofTransfers]
  | _ => cases hop

/-! ### Paths -/

section Paths

variable {t : TransferRow} {steps : List PathStep} {tail : List Write}

/-- The writes of a path are about its transfer only. -/
theorem Engine.Moves.transferId (h : Moves d ws t steps tail)
    (ht : tail = [] ∨ ∃ ev, tail = [.insertEvent ev]) {id : Uuid} (hid : t.id ≠ id) :
    ∀ w ∈ ws, w.transferId ≠ some id := by
  refine transferId_brief fun w hw => ?_
  rw [h.brief, List.mem_append] at hw
  rcases hw with hw | hw
  · obtain ⟨e, rfl, -⟩ | ⟨r, rfl, -⟩ | ⟨s, rfl⟩ | ⟨a, rfl, -⟩ := about_pathBrief hw
    · simp [Write.transferId]
    · simp [Write.transferId]
    · simpa [Write.transferId] using hid
    · simp [Write.transferId]
  · obtain rfl | ⟨ev, rfl⟩ := ht
    · cases hw
    · simp only [List.mem_singleton] at hw
      simp [hw, Write.transferId]

/-- A path leaves the rows of other transfers alone. -/
theorem Engine.Moves.transfer_ne (h : Moves d ws t steps tail)
    (ht : tail = [] ∨ ∃ ev, tail = [.insertEvent ev]) {id : Uuid} (hid : t.id ≠ id) :
    (applyAll ws d).transfer id = d.transfer id :=
  transfer_applyAll (h.transferId ht hid) d

/-- A path takes its transfer to its end. -/
theorem Engine.Moves.transfer (h : Moves d ws t steps tail)
    (ht : tail = [] ∨ ∃ ev, tail = [.insertEvent ev]) :
    ∃ t', (applyAll ws d).transfer t.id = some t' ∧ t'.core = t.core ∧
      t'.currentStatus = pathEnd t.currentStatus steps := by
  obtain ⟨t', ht', hc, hs⟩ := transfer_applyAll_some h.found ws
  refine ⟨t', ht', hc, ?_⟩
  rw [hs, ← statusIn_brief, h.brief, statusIn, List.foldl_append]
  have := statusIn_pathBrief t t.currentStatus steps
  rw [statusIn] at this
  rw [this]
  obtain rfl | ⟨ev, rfl⟩ := ht <;> rfl

/-- The entries a commit adds to a transfer's, in brief. -/
theorem entriesOfTransfer_brief (ws : List Write) (d : World) (id : Uuid) :
    ((applyAll ws d).entriesOfTransfer id).map LedgerEntry.strip =
      (d.entriesOfTransfer id).map LedgerEntry.strip ++
        ((brief ws).filterMap Write.entry).filter fun e => e.source = .transfer id := by
  rw [entriesOfTransfer_applyAll, List.map_append, entries_brief, List.filter_map]
  rfl

/-- The history rows a commit adds to a transfer's, in brief. -/
theorem historyOf_brief (ws : List Write) (d : World) (id : Uuid) :
    ((applyAll ws d).historyOf id).map HistoryRow.strip =
      (d.historyOf id).map HistoryRow.strip ++
        ((brief ws).filterMap Write.historyRow).filter fun h => h.transferId = id := by
  rw [historyOf_applyAll, List.map_append, historyRows_brief, List.filter_map]
  rfl

/-- The entries a path adds. -/
theorem Engine.Moves.entries (h : Moves d ws t steps tail)
    (ht : tail = [] ∨ ∃ ev, tail = [.insertEvent ev]) (id : Uuid) :
    ((applyAll ws d).entriesOfTransfer id).map LedgerEntry.strip =
      (d.entriesOfTransfer id).map LedgerEntry.strip ++
        if t.id = id then pathEntries t t.currentStatus steps else [] := by
  have htail : tail.filterMap Write.entry = [] := by obtain rfl | ⟨ev, rfl⟩ := ht <;> rfl
  rw [entriesOfTransfer_brief, h.brief, List.filterMap_append, htail, List.append_nil,
    entry_pathBrief]
  congr 1
  split
  case isTrue hid =>
    exact List.filter_eq_self.2 fun e he => by simp [source_of_mem_pathEntries he, hid]
  case isFalse hid =>
    exact List.filter_eq_nil_iff.2 fun e he => by simp [source_of_mem_pathEntries he, hid]

/-- The history rows a path adds. -/
theorem Engine.Moves.history (h : Moves d ws t steps tail)
    (ht : tail = [] ∨ ∃ ev, tail = [.insertEvent ev]) (id : Uuid) :
    ((applyAll ws d).historyOf id).map HistoryRow.strip =
      (d.historyOf id).map HistoryRow.strip ++ if t.id = id then pathHistory t steps else [] := by
  have htail : tail.filterMap Write.historyRow = [] := by obtain rfl | ⟨ev, rfl⟩ := ht <;> rfl
  rw [historyOf_brief, h.brief, List.filterMap_append, htail, List.append_nil,
    historyRow_pathBrief]
  congr 1
  have hid : ∀ r ∈ pathHistory t steps, r.transferId = t.id := by
    simp only [pathHistory, List.mem_map]
    rintro _ ⟨st, -, rfl⟩
    rfl
  split
  case isTrue h' => exact List.filter_eq_self.2 fun r hr => by simp [hid r hr, h']
  case isFalse h' => exact List.filter_eq_nil_iff.2 fun r hr => by simp [hid r hr, h']

/-- Every entry of a path is of its transfer. -/
theorem Engine.Moves.source (h : Moves d ws t steps tail)
    (ht : tail = [] ∨ ∃ ev, tail = [.insertEvent ev]) :
    ∀ e ∈ (Kimana.brief ws).filterMap Write.entry, e.source = .transfer t.id := by
  have htail : tail.filterMap Write.entry = [] := by obtain rfl | ⟨ev, rfl⟩ := ht <;> rfl
  rw [h.brief, List.filterMap_append, htail, List.append_nil, entry_pathBrief]
  exact fun e he => source_of_mem_pathEntries he

/-- A path writes only entries, history rows, statuses, audit rows and an event. -/
theorem Engine.Moves.filterMap {α : Type} {f : Write → Option α} (h : Moves d ws t steps tail)
    (ht : tail = [] ∨ ∃ ev, tail = [.insertEvent ev]) (he : ∀ e, f (.insertEntry e) = none)
    (hh : ∀ r, f (.insertHistory r) = none) (hs : ∀ id s now, f (.setStatus id s now) = none)
    (ha : ∀ a, f (.insertAudit a) = none) (hev : ∀ ev, f (.insertEvent ev) = none) :
    (Kimana.brief ws).filterMap f = [] := by
  have htail : tail.filterMap f = [] := by obtain rfl | ⟨ev, rfl⟩ := ht <;> simp [hev]
  rw [h.brief, List.filterMap_append, htail, filterMap_pathBrief he hh hs ha, List.append_nil]

end Paths

/-! ### Commits about no transfer -/

theorem Apart.transfer_eq (h : Apart ws) (id : Uuid) :
    (applyAll ws d).transfer id = d.transfer id :=
  transfer_applyAll (transferId_brief fun w hw => by simp [h.transfer w hw]) d

theorem Apart.entries (h : Apart ws) (id : Uuid) :
    ((applyAll ws d).entriesOfTransfer id).map LedgerEntry.strip =
      (d.entriesOfTransfer id).map LedgerEntry.strip := by
  rw [entriesOfTransfer_brief, List.filter_eq_nil_iff.2, List.append_nil]
  exact fun e he => by simpa using h.entry e he id

theorem Apart.historyOf (h : Apart ws) (id : Uuid) :
    ((applyAll ws d).historyOf id).map HistoryRow.strip =
      (d.historyOf id).map HistoryRow.strip := by
  rw [historyOf_brief, h.history, List.filter_nil, List.append_nil]

/-! ### Creations -/

/-- A valid transaction publishes ids that no row has. -/
theorem unused_of_valid {ℓ : List Key} {ids : List ℕ} (hv : Valid ℓ ids d ws) {w : Write}
    (hw : w ∈ ws) {n : ℕ} (hn : w.publishes = some n) : n ∈ ids ∧ d.Unused n := by
  induction ws generalizing d with
  | nil => cases hw
  | cons v ws ih =>
    rcases List.mem_cons.1 hw with rfl | hw
    · exact hv.1.fresh n hn
    · obtain ⟨hi, hu⟩ := ih hv.2 hw
      exact ⟨hi, hu.of_apply.1⟩

/-- A transfer that no row has is new in every table. -/
theorem Wf.new_transfer (hwf : Wf d) {id : Uuid} (hu : d.Unused id) :
    d.transfer id = none ∧ d.entriesOfTransfer id = [] ∧ d.historyOf id = [] := by
  refine ⟨?_, ?_, ?_⟩
  · exact List.find?_eq_none.2 fun t ht => by simpa using hu.transfer t ht
  · refine List.filter_eq_nil_iff.2 fun e he => ?_
    obtain ⟨a, -, -, -, ho⟩ := hwf.entries e he
    simp only [decide_eq_true_eq]
    intro hs
    rw [hs] at ho
    obtain ⟨t, ht, hid, -⟩ := ho
    exact hu.transfer t ht hid
  · refine List.filter_eq_nil_iff.2 fun r hr => ?_
    obtain ⟨t, ht, hid⟩ := hwf.history r hr
    simp only [decide_eq_true_eq]
    intro he
    exact hu.transfer t ht (hid.trans he)

theorem mem_of_mem_brief {row : TransferRow} (h : .insertTransfer row ∈ brief ws) :
    .insertTransfer row ∈ ws := by
  obtain ⟨w, hw, hb⟩ := List.mem_filterMap.1 h
  cases w with
  | insertAudit a => rcases Write.brief_insertAudit a with h | h <;> rw [h] at hb <;> cases hb
  | _ => cases hb <;> exact hw

/-- A path that goes anywhere is committed under its transfer's row lock. -/
theorem Engine.Moves.locked {t : TransferRow} {steps : List PathStep} {tail : List Write}
    (h : Moves d ws t steps tail) (hne : steps ≠ []) {ℓ : List Key} {ids : List ℕ}
    (hv : Valid ℓ ids d ws) : .transfer t.id ∈ ℓ := by
  obtain ⟨st, rest, rfl⟩ := List.exists_cons_of_ne_nil hne
  have hmem : .setStatus t.id st.target 0 ∈ Kimana.brief ws := by
    rw [h.brief]
    simp [pathBrief, transitionBrief]
  obtain ⟨w, hw, hb⟩ := List.mem_filterMap.1 hmem
  obtain ⟨ws₁, ws₂, rfl⟩ := List.append_of_mem hw
  have hlocked := (valid_append.1 hv).2.1.locked
  cases w with
  | insertAudit a => rcases Write.brief_insertAudit a with h | h <;> rw [h] at hb <;> cases hb
  | setStatus id s now =>
    cases hb
    exact hlocked _ List.mem_cons_self
  | _ => cases hb

/-- Writes that set no status of a transfer leave it. -/
theorem statusIn_of_forall {id : Uuid} {s : TransferStatus}
    (h : ∀ w ∈ ws, ∀ s now, w ≠ .setStatus id s now) : statusIn id s ws = s := by
  induction ws generalizing s with
  | nil => rfl
  | cons w ws ih =>
    have hw : w.statusOf id s = s := by
      have := h w List.mem_cons_self
      cases w <;> simp_all [Write.statusOf]
    rw [statusIn, List.foldl_cons, hw]
    exact ih fun w hw => h w (List.mem_cons_of_mem _ hw)

namespace Service.Creation

variable {state : AppState} {session : Session} {input : CreateTransferInput} {body : String}
  {q : QuoteRow} {recipientId id : Uuid} {now : Time}

/-- The row a creation inserts. -/
def row (session : Session) (input : CreateTransferInput) (body : String) (q : QuoteRow)
    (recipientId id : Uuid) (now : Time) : TransferRow :=
  (newTransfer session input recipientId (Quote.intoStored q).firmQuote body).row id now

theorem inserts (h : Creation state session input body d ws q recipientId id now) :
    .insertTransfer (row session input body q recipientId id now) ∈ ws :=
  mem_of_mem_brief (h.brief ▸ List.mem_cons_self)

theorem unused {ℓ : List Key} {ids : List ℕ} (hv : Valid ℓ ids d ws)
    (h : Creation state session input body d ws q recipientId id now) : d.Unused id :=
  (unused_of_valid hv h.inserts rfl).2

/-- A creation leaves the rows of other transfers alone. -/
theorem transfer_ne (h : Creation state session input body d ws q recipientId id now) {id' : Uuid}
    (hid : id ≠ id') : (applyAll ws d).transfer id' = d.transfer id' := by
  refine transfer_applyAll (transferId_brief fun w hw => ?_) d
  rw [h.brief] at hw
  simp only [List.mem_cons, List.not_mem_nil, or_false] at hw
  rcases hw with rfl | rfl | rfl | rfl <;>
    simp [Write.transferId, Repo.InsertTransfer.row, hid]

/-- The new transfer stands at `CREATED`. -/
theorem transfer {ℓ : List Key} {ids : List ℕ} (hv : Valid ℓ ids d ws)
    (h : Creation state session input body d ws q recipientId id now) :
    ∃ t, (applyAll ws d).transfer id = some t ∧
      t.core = (row session input body q recipientId id now).core ∧ t.currentStatus = .created := by
  have hset : ∀ w ∈ ws, ∀ s now, w ≠ .setStatus id s now := by
    rintro _ hw s now rfl
    have : Write.setStatus id s 0 ∈ Kimana.brief ws := List.mem_filterMap.2 ⟨_, hw, rfl⟩
    rw [h.brief] at this
    simp at this
  obtain ⟨ws₁, ws₂, rfl⟩ := List.append_of_mem h.inserts
  obtain ⟨-, hv₂, -⟩ := valid_append.1 hv
  have hu : (applyAll ws₁ d).Unused id := (hv₂.fresh id rfl).2
  have hnone : (applyAll ws₁ d).transfer id = none :=
    List.find?_eq_none.2 fun t ht => by simpa using hu.transfer t ht
  have hrow : ((Write.insertTransfer (row session input body q recipientId id now)).apply
      (applyAll ws₁ d)).transfer id = some (row session input body q recipientId id now) := by
    rw [World.transfer] at hnone ⊢
    simp only [Write.apply, List.find?_append, hnone, Option.none_or]
    simp [row, Repo.InsertTransfer.row]
  obtain ⟨t, ht, hc, hs⟩ := transfer_applyAll_some hrow ws₂
  refine ⟨t, ?_, hc, ?_⟩
  · rw [applyAll_append, applyAll_cons]
    exact ht
  · rw [hs]
    exact statusIn_of_forall fun w hw => hset w (by simp [hw])

theorem entries (h : Creation state session input body d ws q recipientId id now) (id' : Uuid) :
    ((applyAll ws d).entriesOfTransfer id').map LedgerEntry.strip =
      (d.entriesOfTransfer id').map LedgerEntry.strip := by
  rw [entriesOfTransfer_brief, h.brief]
  simp [Write.entry]

theorem history (h : Creation state session input body d ws q recipientId id now) (id' : Uuid) :
    ((applyAll ws d).historyOf id').map HistoryRow.strip =
      (d.historyOf id').map HistoryRow.strip ++
        if id = id' then [⟨id, 0, .created, 0, none, none⟩] else [] := by
  rw [historyOf_brief, h.brief]
  by_cases hid : id = id' <;> simp [List.filterMap_cons, Write.historyRow, hid]

end Service.Creation

/-- What depends on the columns that never change is the same of rows that agree on them. -/
theorem TransferRow.eq_of_core {α : Type} (f : TransferRow → α) (hf : ∀ t, f t.core = f t)
    {t t' : TransferRow} (h : t'.core = t.core) : f t' = f t := by rw [← hf, h, hf]

/-! ### Invariants of transfers -/

/-- `P` holds of every transfer outside `old`: of its row, its entries and its history, in brief. -/
def Every (old : Uuid → Prop) (P : TransferRow → List LedgerEntry → List HistoryRow → Prop)
    (d : World) : Prop :=
  ∀ id t, ¬ old id → d.transfer id = some t →
    P t ((d.entriesOfTransfer id).map .strip) ((d.historyOf id).map .strip)

/-- What paths and creations keep, every commit keeps. -/
theorem Every.commit {old : Uuid → Prop}
    {P : TransferRow → List LedgerEntry → List HistoryRow → Prop} (h : Every old P d) (hwf : Wf d)
    {ℓ : List Key} {ids : List ℕ} (hv : Valid ℓ ids d ws) (hk : op.Commits A d ws)
    (hpath : ∀ t steps tail es hs t', Moves d ws t steps tail →
      (tail = [] ∨ ∃ ev, tail = [.insertEvent ev]) → op.Takes A d ws t steps → ¬ old t.id →
      P t es hs → t'.core = t.core → t'.currentStatus = pathEnd t.currentStatus steps →
      P t' (es ++ pathEntries t t.currentStatus steps) (hs ++ pathHistory t steps))
    (hcreate : ∀ state session input body q recipientId id now t',
      Service.Creation state session input body d ws q recipientId id now →
      t'.core = (Service.Creation.row session input body q recipientId id now).core →
      t'.currentStatus = .created → P t' [] [⟨id, 0, .created, 0, none, none⟩]) :
    Every old P (applyAll ws d) := by
  intro id t' hold ht'
  cases hk.kind with
  | @path t steps tail hm htail htakes =>
    rw [hm.entries htail, hm.history htail]
    by_cases hid : t.id = id
    · subst hid
      obtain ⟨t'', ht'', hc, hs⟩ := hm.transfer htail
      cases ht'.symm.trans ht''
      rw [if_pos rfl, if_pos rfl]
      exact hpath t steps tail _ _ t' hm htail htakes hold (h t.id t hold hm.found) hc hs
    · rw [if_neg hid, if_neg hid, List.append_nil, List.append_nil]
      exact h id t' hold (hm.transfer_ne htail hid ▸ ht')
  | @create state session input body q recipientId id₀ now hop hc =>
    rw [hc.entries, hc.history]
    by_cases hid : id₀ = id
    · subst hid
      obtain ⟨t'', ht'', hcore, hs⟩ := hc.transfer hv
      cases ht'.symm.trans ht''
      obtain ⟨-, he, hh⟩ := hwf.new_transfer (hc.unused hv)
      rw [he, hh, if_pos rfl]
      exact hcreate _ _ _ _ _ _ _ _ t' hc hcore hs
    · rw [if_neg hid, List.append_nil]
      exact h id t' hold (hc.transfer_ne hid ▸ ht')
  | apart ha =>
    rw [ha.entries, ha.historyOf]
    exact h id t' hold (ha.transfer_eq id ▸ ht')

theorem Every.env {old : Uuid → Prop}
    {P : TransferRow → List LedgerEntry → List HistoryRow → Prop} (h : Every old P d) {d' : World}
    (he : Env d d') : Every old P d' := by
  cases he <;> exact h

theorem Every.bump {old : Uuid → Prop}
    {P : TransferRow → List LedgerEntry → List HistoryRow → Prop} (h : Every old P d) :
    Every old P (bump d) := h

/-- No commit adds a quote. -/
theorem quotes_applyAll (ws : List Write) (d : World) :
    ∀ q ∈ (applyAll ws d).quotes, ∃ q₀ ∈ d.quotes, q.core = q₀.core := by
  induction ws generalizing d with
  | nil => exact fun q hq => ⟨q, hq, rfl⟩
  | cons w ws ih =>
    intro q hq
    obtain ⟨q₁, hq₁, hc⟩ := ih (w.apply d) q hq
    cases w
    case consumeQuote id t =>
      obtain ⟨q₀, hq₀, rfl⟩ := of_mem_updateWhere hq₁
      refine ⟨q₀, hq₀, hc.trans ?_⟩
      split <;> rfl
    all_goals exact ⟨q₁, hq₁, hc⟩

end Kimana
