import Kimana.Op.Effect
import Mathlib.Data.List.Chain

/-!
# The history of a transfer

Positions come from `coalesce(max(position), -1) + 1`, statuses from the transition table.

* `Numbered` : the positions of a transfer's rows are 0, 1, 2 and so on; every write keeps it.
* `InSequence` : the statuses start at `CREATED`, follow transitions and end in the current one.
* `InSequence.latest` : the row of a status is the last one while the transfer stands there.
* `historyOk_of_reach` : the history of every transfer is in order in every reachable state.
-/

namespace Kimana

open ReadCommitted Table Engine TransferStatus

/-! ### Positions -/

/-- The positions of a transfer's history rows are 0, 1, 2 and so on. -/
def Numbered (d : World) (id : Uuid) : Prop :=
  (d.historyOf id).map (·.position) = List.range (d.historyOf id).length

/-- `max(position) + 1` of rows numbered from 0 is their number. -/
theorem foldl_position {rows : List HistoryRow}
    (h : rows.map (·.position) = List.range rows.length) :
    rows.foldl (fun m r => max m (r.position + 1)) 0 = rows.length := by
  induction rows using List.reverseRecOn with
  | nil => rfl
  | append_singleton rows r ih =>
    rw [List.map_append, List.length_append, List.length_singleton, List.range_succ] at h
    obtain ⟨hrows, hr⟩ := List.append_inj' h rfl
    have hpos : r.position = rows.length := by simpa using hr
    rw [List.foldl_append, ih hrows, List.length_append, List.length_singleton]
    simp [hpos]

theorem Numbered.nextPosition {d : World} {id : Uuid} (h : Numbered d id) :
    d.nextPosition id = (d.historyOf id).length := foldl_position h

/-- The row at the greatest position is the last one. -/
theorem topBy_position {rows : List HistoryRow}
    (h : rows.map (·.position) = List.range rows.length) :
    topBy (·.position) rows = rows.getLast? := by
  induction rows using List.reverseRecOn with
  | nil => rfl
  | append_singleton rows r _ =>
    rw [List.map_append, List.length_append, List.length_singleton, List.range_succ] at h
    obtain ⟨hrows, hr⟩ := List.append_inj' h rfl
    have hpos : r.position = rows.length := by simpa using hr
    rw [List.getLast?_concat]
    refine topBy_append_singleton fun x hx => ?_
    have hmem := List.mem_map_of_mem (f := (·.position)) hx
    rw [hrows, List.mem_range] at hmem
    omega

theorem Numbered.latestPayload {d : World} {id : Uuid} (h : Numbered d id) :
    d.latestPayload id = (d.historyOf id).getLast?.bind (·.payload) := by
  rw [World.latestPayload, topBy_position h]

/-- A row goes to the next position. -/
theorem Numbered.apply {d : World} {id : Uuid} (h : Numbered d id) {w : Write} (hw : w.Ok d) :
    Numbered (w.apply d) id := by
  cases w with
  | insertHistory row =>
    obtain ⟨-, hpos⟩ := hw
    by_cases hid : row.transferId = id
    · subst hid
      have hrows : ((Write.insertHistory row).apply d).historyOf row.transferId =
          d.historyOf row.transferId ++ [row] := by
        simp [World.historyOf, Write.apply]
      rw [Numbered, hrows, List.map_append, List.length_append, List.length_singleton,
        List.range_succ, h]
      simp [hpos, h.nextPosition]
    · have hrows : ((Write.insertHistory row).apply d).historyOf id = d.historyOf id := by
        simp [World.historyOf, Write.apply, hid]
      rwa [Numbered, hrows]
  | _ => exact h

theorem Numbered.commit {d : World} {id : Uuid} (h : Numbered d id) {ℓ : List Key} {ids : List ℕ}
    {ws : List Write} (hv : Valid ℓ ids d ws) : Numbered (applyAll ws d) id :=
  hv.invariant (I := (Numbered · id)) h fun _ _ h hw => h.apply hw.ok

/-! ### Statuses -/

/-- A transition. -/
def Edge (s s' : TransferStatus) : Prop := s' ∈ s.allowed

/-- The statuses of the history start at `CREATED`, follow transitions and end in the current
one. -/
structure InSequence (t : TransferRow) (_ : List LedgerEntry) (hs : List HistoryRow) : Prop where
  first : (hs.map (·.status)).head? = some .created
  edges : List.IsChain Edge (hs.map (·.status))
  last : (hs.map (·.status)).getLast? = some t.currentStatus

theorem isChain_of_pathAllowed {s : TransferStatus} {path : List TransferStatus}
    (h : pathAllowed s path = true) : List.IsChain Edge (s :: path) := by
  induction path generalizing s with
  | nil => exact .singleton s
  | cons target path ih =>
    simp only [pathAllowed, Bool.and_eq_true, decide_eq_true_eq] at h
    exact .cons_cons h.1 (ih h.2)

theorem statuses_pathHistory (t : TransferRow) (steps : List PathStep) :
    (pathHistory t steps).map (·.status) = steps.map (·.target) := by
  simp [pathHistory, historyFor]

/-- An allowed path keeps a transfer in sequence. -/
theorem InSequence.path {t t' : TransferRow} {steps : List PathStep} {es es' : List LedgerEntry}
    {hs : List HistoryRow} (h : InSequence t es hs)
    (hp : pathAllowed t.currentStatus (steps.map (·.target)) = true)
    (hst : t'.currentStatus = pathEnd t.currentStatus steps) :
    InSequence t' es' (hs ++ pathHistory t steps) := by
  have hchain := isChain_of_pathAllowed hp
  refine ⟨?_, ?_, ?_⟩ <;> rw [List.map_append, statuses_pathHistory]
  · rw [List.head?_append, h.first]
    rfl
  · refine List.isChain_append.2 ⟨h.edges, hchain.tail, fun s hs s' hs' => ?_⟩
    rw [h.last] at hs
    cases hs
    cases hpath : steps.map (·.target) with
    | nil => rw [hpath] at hs'; cases hs'
    | cons target path =>
      rw [hpath] at hs' hchain
      cases hs'
      exact (List.isChain_cons_cons.1 hchain).1
  · rw [List.getLast?_append, h.last, hst, pathEnd_eq]
    cases hl : (steps.map (·.target)).getLast? with
    | none =>
      rw [List.getLast?_eq_none_iff.1 hl]
      rfl
    | some s =>
      rw [List.getLastD_eq_getLast?, hl]
      rfl

/-- A new transfer is in sequence. -/
theorem InSequence.new {t : TransferRow} {id : Uuid} (h : t.currentStatus = .created) :
    InSequence t [] [⟨id, 0, .created, 0, none, none⟩] :=
  ⟨rfl, .singleton _, by rw [h]; rfl⟩

/-- Statuses along transitions do not repeat: the row of the current status is the last one. -/
theorem InSequence.latest {t : TransferRow} {es : List LedgerEntry} {hs : List HistoryRow}
    (h : InSequence t es hs) {r : HistoryRow} (hr : r ∈ hs) (hst : r.status = t.currentStatus) :
    hs.getLast? = some r := by
  have hrank : (hs.map (·.status)).Pairwise fun s s' => s.rank < s'.rank :=
    List.isChain_iff_pairwise.1 (h.edges.imp fun _ _ he => rank_lt he)
  induction hs using List.reverseRecOn with
  | nil => cases hr
  | append_singleton hs x _ =>
    have hlast := h.last
    rw [List.map_append, List.map_singleton, List.getLast?_concat, Option.some.injEq] at hlast
    rw [List.getLast?_concat]
    rcases List.mem_append.1 hr with hr | hr
    · rw [List.map_append, List.pairwise_append] at hrank
      have hlt := hrank.2.2 r.status (List.mem_map_of_mem hr) x.status (by simp)
      rw [hst, hlast] at hlt
      exact absurd hlt (lt_irrefl _)
    · rw [List.mem_singleton.1 hr]

/-! ### Every reachable state -/

/-- The history of a transfer is in order. -/
structure HistoryOk (id : Uuid) (d : World) : Prop where
  numbered : Numbered d id
  sequence : Every (· ≠ id) InSequence d

theorem HistoryOk.inSequence {id : Uuid} {d : World} (h : HistoryOk id d) {t : TransferRow}
    (ht : d.transfer id = some t) :
    InSequence t ((d.entriesOfTransfer id).map .strip) ((d.historyOf id).map .strip) :=
  h.sequence id t (not_not.2 rfl) ht

/-- A transfer that is not there has no history. -/
theorem Wf.historyOf_of_none {d : World} (hwf : Wf d) {id : Uuid} (h : d.transfer id = none) :
    d.historyOf id = [] := by
  refine List.filter_eq_nil_iff.2 fun r hr => ?_
  obtain ⟨t, ht, hid⟩ := hwf.history r hr
  simp only [decide_eq_true_eq]
  rintro rfl
  simpa [hid] using ne_of_find?_eq_none h t ht

theorem HistoryOk.of_new {d : World} (hwf : Wf d) {id : Uuid} (h : d.transfer id = none) :
    HistoryOk id d := by
  have hnil := hwf.historyOf_of_none h
  refine ⟨by rw [Numbered, hnil]; rfl, fun id' t hid ht => ?_⟩
  rw [not_not] at hid
  subst hid
  rw [h] at ht
  cases ht

variable {A : Assumed} {op : Op} {d : World} {ws : List Write} {id : Uuid}

theorem HistoryOk.commit (h : HistoryOk id d) (hwf : Wf d) {ℓ : List Key} {ids : List ℕ}
    (hv : Valid ℓ ids d ws) (hk : op.Commits A d ws) : HistoryOk id (applyAll ws d) := by
  refine ⟨h.numbered.commit hv, h.sequence.commit hwf hv hk ?_ ?_⟩
  · exact fun _ _ _ _ _ _ hm _ _ _ h _ hst => h.path hm.allowed hst
  · exact fun _ _ _ _ _ _ _ _ _ _ _ hst => .new hst

variable {ι : Type} [DecidableEq ι] {ops : ι → Op} {d₀ : World}
  {cond : Label → Option World → World → World → Prop}

theorem historyOk_of_reach (hc : Lax cond) (hA : Granted A (rules A ops cond)) (hwf : Wf d₀)
    (h₀ : HistoryOk id d₀) {s : Sys ι World Write Key Label Failure Answer}
    (hr : Reach (StepIf cond) (system ops d₀) s) : Wf s.shared ∧ HistoryOk id s.shared :=
  invariant_of_reach hc hA hwf h₀ (fun _ h => ⟨h.numbered, h.sequence⟩)
    (fun d d' h he => ⟨by cases he <;> exact h.numbered, h.sequence.env he⟩) (fun _ _ _ => True)
    (fun _ _ _ _ _ hwf _ h hv hk _ => h.commit hwf hv hk) (fun _ _ _ h => ⟨h, trivial⟩) hr

/-! ### What a commit appends -/

/-- A commit whose history rows are those there were, in brief, appends none. -/
theorem historyOf_of_strip (h : ((applyAll ws d).historyOf id).map HistoryRow.strip =
    (d.historyOf id).map HistoryRow.strip) : (applyAll ws d).historyOf id = d.historyOf id := by
  rw [historyOf_applyAll, List.map_append, List.append_right_eq_self, List.map_eq_nil_iff] at h
  rw [historyOf_applyAll, h, List.append_nil]

/-- A path that ends where it begins has no steps. -/
theorem pathEnd_ne {s : TransferStatus} {steps : List PathStep}
    (h : pathAllowed s (steps.map (·.target)) = true) (hne : steps ≠ []) : pathEnd s steps ≠ s := by
  have hmem := pathEnd_mem s hne
  have hrank := List.isChain_iff_pairwise.1
    ((isChain_of_pathAllowed h).imp fun _ _ he => rank_lt he)
  have hlt := (List.pairwise_cons.1 hrank).1 _ hmem
  exact fun he => absurd (he ▸ hlt) (lt_irrefl _)

/-- A commit that leaves the status of a transfer leaves its history. -/
theorem Op.Commits.historyOf_of_status {ℓ : List Key} {ids : List ℕ} (hv : Valid ℓ ids d ws)
    (hk : op.Commits A d ws) {s : TransferStatus}
    (hs : d.status id = some s) (hs' : (applyAll ws d).status id = some s) :
    (applyAll ws d).historyOf id = d.historyOf id := by
  refine historyOf_of_strip ?_
  cases hk.kind with
  | @path t steps tail hm htail _ =>
    rw [hm.history htail]
    split
    case isFalse => rw [List.append_nil]
    case isTrue hid =>
      subst hid
      obtain ⟨t', ht', -, hend⟩ := hm.transfer htail
      rw [World.status, hm.found, Option.map_some, Option.some.injEq] at hs
      rw [World.status, ht', Option.map_some, Option.some.injEq, hend, ← hs] at hs'
      have hnil : steps = [] := not_not.1 fun hne => pathEnd_ne hm.allowed hne hs'
      rw [hnil]
      exact List.append_nil _
  | @create _ _ _ _ _ _ id₀ _ hop hc =>
    rw [hc.history]
    split
    case isFalse => rw [List.append_nil]
    case isTrue hid =>
      subst hid
      obtain ⟨t, ht, -⟩ := Option.map_eq_some_iff.1 hs
      obtain ⟨hm, hid⟩ := World.transfer_mem ht
      exact absurd hid ((hc.unused hv).transfer t hm)
  | apart ha => exact ha.historyOf id

end Kimana
