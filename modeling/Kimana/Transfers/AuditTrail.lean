import Kimana.Transfers.History
import Mathlib.Data.Fintype.Basic
import Mathlib.Tactic.FinCases

/-!
# The audit trail of a transfer

`apply` writes the history row, the status and the audit row of a transition in one transaction, so
the three tables tell the same story.

* `trail` : the audit rows of a list of statuses.
* `Audited` : the audit rows of a transfer are the trail of its history.
* `recorded_of_reach` : **status, history and audit** agree in every reachable state.
-/

namespace Kimana

open ReadCommitted Table Engine TransferStatus

/-! ### Consecutive pairs -/

/-- The consecutive pairs of a list. -/
def pairs {α : Type} (l : List α) : List (α × α) := l.zip l.tail

theorem pairs_append {α : Type} {l m : List α} {a : α} (h : l.getLast? = some a) :
    pairs (l ++ m) = pairs l ++ pairs (a :: m) := by
  induction l with
  | nil => cases h
  | cons x l ih =>
    cases l with
    | nil =>
      cases h
      rfl
    | cons y l =>
      rw [List.getLast?_cons_cons] at h
      exact congrArg ((x, y) :: ·) (ih h)

/-- Lists with equal images have equal images under what the equality determines. -/
theorem map_eq_of_map_eq {α β γ δ : Type} {f : α → γ} {g : β → γ} {f' : α → δ} {g' : β → δ}
    (h : ∀ a b, f a = g b → f' a = g' b) {l : List α} {m : List β} (hlm : l.map f = m.map g) :
    l.map f' = m.map g' := by
  induction l generalizing m with
  | nil =>
    rw [List.map_nil, eq_comm, List.map_eq_nil_iff] at hlm
    rw [hlm]
    rfl
  | cons a l ih =>
    obtain ⟨b, m, rfl, hb, hm⟩ := List.map_eq_cons_iff.1 hlm.symm
    rw [List.map_cons, List.map_cons, h a b hb.symm, ih hm.symm]

theorem length_pairs {α : Type} (l : List α) : (pairs l).length = l.length - 1 := by
  rw [pairs, List.length_zip, List.length_tail]
  omega

/-- The audit rows of a transfer that went through a list of statuses. -/
def trail (id : Uuid) (statuses : List TransferStatus) : List AuditRow :=
  (pairs statuses).map fun p => changeRow id p.1 p.2

/-- An audit row names the statuses that its stripped row does. -/
theorem statuses_of_strip {a : AuditRow} {id : Uuid} {s s' : TransferStatus}
    (h : a.strip = changeRow id s s') : (a.before.bind (·.get "status"),
      a.after.bind (·.get "status")) = (some (.str s.asStr), some (.str s'.asStr)) := by
  have hb : a.before = some [("status", .str s.asStr)] := (congrArg AuditRow.before h :)
  have ha : (a.after.map fun o => [("status", (JObj.get o "status").getD .null)]) =
      some [("status", .str s'.asStr)] := (congrArg AuditRow.after h :)
  obtain ⟨o, ho, hget⟩ := Option.map_eq_some_iff.1 ha
  simp only [List.cons.injEq, Prod.mk.injEq, true_and, and_true] at hget
  rw [hb, ho, Option.bind_some, Option.bind_some]
  cases hs : o.get "status" with
  | none => rw [hs] at hget; cases hget
  | some v =>
    rw [hs, Option.getD_some] at hget
    rw [hget]
    rfl

theorem pathAudits_eq {t : TransferRow} {source : TransferStatus} {steps : List PathStep}
    (h : ∀ st ∈ steps, st.Plain) :
    pathAudits t source steps = trail t.id (source :: steps.map (·.target)) := by
  induction steps generalizing source with
  | nil => rfl
  | cons st steps ih =>
    rw [pathAudits, auditFor_of_plain (h st List.mem_cons_self),
      ih fun x hx => h x (List.mem_cons_of_mem _ hx)]
    rfl

/-! ### One commit -/

/-- The audit rows of a transfer are the trail of its history. -/
def Audited (d : World) (id : Uuid) : Prop :=
  (d.stateChanges id).map AuditRow.strip = trail id ((d.historyOf id).map (·.status))

variable {A : Assumed} {op : Op} {d : World} {ws : List Write} {id : Uuid}

/-- The payloads a call brings name no status. -/
def Op.Plain : Op → Prop
  | applyOnchain _ _ payload => payload.get "status" = none
  | _ => True

theorem Op.Takes.plain {t : TransferRow} {steps : List PathStep} (h : op.Takes A d ws t steps)
    (hop : op.Plain) : ∀ st ∈ steps, st.Plain := by
  have hadv : ∀ {state : AppState}, Advance A state d ws t steps → ∀ st ∈ steps, st.Plain := by
    rintro state (_ | ⟨st, _, _, _, _, hplain⟩ | ⟨payee, _⟩) x hx
    · cases hx
    · rwa [List.mem_singleton.1 hx]
    · rw [List.mem_singleton.1 hx]
      rintro _ ⟨⟩
      rfl
  cases op with
  | createTransfer => exact hadv h
  | advanceOnce | advanceToCompletion => exact hadv h.2
  | expireTransfer =>
    obtain ⟨-, payee, rfl⟩ := h
    simp [PathStep.Plain]
  | reverseTransfer => exact h.2.2
  | applyOnchain => exact fun st hst => (h.2.1.recorded st hst).plain hop
  | resolveScreeningHold id decision =>
    obtain ⟨-, -, payee, rfl⟩ := h
    simp only [List.forall_mem_singleton]
    rintro _ ⟨⟩
    cases decision <;> rfl
  | runOnce =>
    obtain ⟨target, payload, ht, hplain⟩ := h
    cases target with
    | none =>
      rw [show steps = [] from ht]
      simp
    | some target => exact fun st hst => (OnchainSteps.recorded ht st hst).plain hplain
  | _ => exact h.elim

/-- The audit rows a commit adds to a transfer's, in brief. -/
theorem stateChanges_brief (ws : List Write) (d : World) (id : Uuid) :
    ((applyAll ws d).stateChanges id).map AuditRow.strip =
      (d.stateChanges id).map AuditRow.strip ++
        ((brief ws).filterMap Write.change).filter fun a => a.entityId = id := by
  rw [stateChanges_applyAll, List.map_append, changes_brief, List.filter_map]
  rfl

theorem entityId_of_mem_trail {statuses : List TransferStatus} {a : AuditRow}
    (h : a ∈ trail id statuses) : a.entityId = id := by
  obtain ⟨p, -, rfl⟩ := List.mem_map.1 h
  rfl

/-- A commit appends the audit rows of the history rows it appends. -/
theorem Audited.commit (h : Audited d id) (hok : HistoryOk id d) (hwf : Wf d) {ℓ : List Key}
    {ids : List ℕ} (hv : Valid ℓ ids d ws) (hk : op.Commits A d ws) (hop : op.Plain) :
    Audited (applyAll ws d) id := by
  have hstatus : ((applyAll ws d).historyOf id).map (·.status) =
      (((applyAll ws d).historyOf id).map HistoryRow.strip).map (·.status) := by
    rw [List.map_map]
    rfl
  have hstatus₀ : (d.historyOf id).map (·.status) =
      ((d.historyOf id).map HistoryRow.strip).map (·.status) := by
    rw [List.map_map]
    rfl
  rw [Audited] at h ⊢
  rw [stateChanges_brief, h, hstatus]
  cases hk.kind with
  | apart ha => rw [ha.change, ha.historyOf, ← hstatus₀, List.filter_nil, List.append_nil]
  | @create _ _ _ _ _ _ id₀ _ _ hc =>
    have hch : (brief ws).filterMap Write.change = [] := by rw [hc.brief]; rfl
    rw [hch, hc.history, List.map_append, ← hstatus₀, List.filter_nil, List.append_nil]
    split
    case isFalse => rw [List.map_nil, List.append_nil]
    case isTrue hid =>
      subst hid
      obtain ⟨-, -, hnil⟩ := hwf.new_transfer (hc.unused hv)
      rw [hnil]
      rfl
  | @path t steps tail hm htail htakes =>
    have htl : tail.filterMap Write.change = [] := by obtain rfl | ⟨ev, rfl⟩ := htail <;> rfl
    rw [hm.brief, List.filterMap_append, htl, List.append_nil, change_pathBrief,
      pathAudits_eq (htakes.plain hop), hm.history htail, List.map_append, ← hstatus₀]
    by_cases hid : t.id = id
    case neg =>
      rw [if_neg hid, List.map_nil, List.append_nil, List.filter_eq_nil_iff.2, List.append_nil]
      exact fun a ha => by simpa [entityId_of_mem_trail ha] using hid
    subst hid
    have hlast := (hok.inSequence hm.found).last
    rw [← hstatus₀] at hlast
    rw [if_pos rfl, statuses_pathHistory, trail, trail, trail, pairs_append hlast, List.map_append,
      List.filter_eq_self.2]
    exact fun a ha => by simpa using entityId_of_mem_trail ha

/-! ### Every reachable state -/

variable {ι : Type} [DecidableEq ι] {ops : ι → Op} {d₀ : World}

/-- The operations of the engine: one transaction each. -/
def Op.engine : Op → Bool
  | advanceOnce .. | expireTransfer .. | reverseTransfer .. | applyOnchain ..
  | resolveScreeningHold .. => true
  | _ => false

/-- **Status, history and audit**, in every state that any calls reach: the history of a created
transfer is numbered from 0, starts at `CREATED`, follows transitions and ends in its status, and
its audit rows are the consecutive pairs of statuses; and an operation of the engine that answers
an error has changed nothing. -/
theorem recorded_of_reach (hwf : Wf d₀) (h₀ : ∀ id, d₀.transfer id = none → d₀.stateChanges id = [])
    (hops : ∀ i, (ops i).Plain) {s : Sys ι World Write Key Label Failure Answer}
    (hr : Reach (Step Env) (system ops d₀) s) :
    (∀ id t, d₀.transfer id = none → s.shared.transfer id = some t → ∃ n statuses,
      (s.shared.historyOf id).map (·.position) = List.range (n + 1) ∧
      (s.shared.historyOf id).map (·.status) = statuses ∧
      statuses.head? = some .created ∧ List.IsChain (fun s s' => s' ∈ s.allowed) statuses ∧
      statuses.getLast? = some t.currentStatus ∧ (s.shared.stateChanges id).length = n ∧
      (s.shared.stateChanges id).map (fun a => (a.before.bind (·.get "status"),
        a.after.bind (·.get "status"))) =
        (pairs statuses).map fun p => (some (.str p.1.asStr), some (.str p.2.asStr))) ∧
    ∀ i e made, (ops i).engine = true → s.calls i = .done (.error e) made → made = [] := by
  have hr' := hr.mono fun _ _ _ h => stepIf_of_step h
  refine ⟨fun id t hnew ht => ?_, fun i e made hop hdone => ?_⟩
  · have h₀' : Audited d₀ id := by
      rw [Audited, h₀ id hnew, hwf.historyOf_of_none hnew]
      rfl
    have h := invariant_of_reach (I := fun d => HistoryOk id d ∧ Audited d id) lax_anyChange
      granted_noAssumption hwf ⟨.of_new hwf hnew, h₀'⟩ (fun _ h => ⟨⟨h.1.1, h.1.2⟩, h.2⟩)
      (fun d d' h he => by cases he <;> exact ⟨⟨h.1.1, h.1.2⟩, h.2⟩) (fun _ _ _ => True)
      (fun i _ _ _ _ hwf _ h hv hk _ => ⟨h.1.commit hwf hv hk, h.2.commit h.1 hwf hv hk (hops i)⟩)
      (fun _ _ _ h => ⟨h, trivial⟩) hr'
    obtain ⟨-, hok, haud⟩ := h
    have hseq := hok.inSequence ht
    have hstatus : (((s.shared.historyOf id).map HistoryRow.strip).map (·.status)) =
        (s.shared.historyOf id).map (·.status) := by
      rw [List.map_map]
      rfl
    obtain ⟨hfirst, hedges, hlast⟩ := hseq
    rw [hstatus] at hfirst hedges hlast
    -- One audit row for each pair of neighbouring history rows.
    have hlen : (s.shared.stateChanges id).length = (s.shared.historyOf id).length - 1 := by
      have := congrArg List.length haud
      simpa [trail, length_pairs] using this
    have hpos : 0 < (s.shared.historyOf id).length := by
      rw [List.length_pos_iff]
      intro hnil
      rw [hnil] at hfirst
      cases hfirst
    refine ⟨(s.shared.historyOf id).length - 1, _, ?_, rfl, hfirst, hedges, hlast, hlen,
      map_eq_of_map_eq (fun a p h => statuses_of_strip h) haud⟩
    rw [Nat.sub_add_cancel hpos]
    exact hok.numbered
  · have hpost := (sysOk_of_reach lax_anyChange
      (granted_noAssumption (R := rules noAssumption ops anyChange)) hwf hr').answer hdone
    generalize ops i = op at hop hpost
    cases op <;> first | exact hpost | cases hop

/-- A transfer that is created, and one advance. -/
def recordedOps : Fin 2 → Op
  | 0 => sampleCreate false "transfer" 3
  | 1 => .advanceOnce (sampleState false) 100 none "step"

/-- A transfer rejected for missing funds has five history rows and four audit rows. -/
theorem recorded_of_rejected :
    ∃ s t, Reach (Step Env) (system recordedOps (sampleWorld "NG")) s ∧
      s.shared.transfer 100 = some t ∧ t.currentStatus = .rejected ∧ ∃ n,
      (s.shared.historyOf 100).map (·.position) = List.range (n + 1) ∧
      (s.shared.stateChanges 100).length = n := by
  obtain ⟨s, hr, hs⟩ := exists_reach recordedOps (sampleWorld "NG") [0, 1] [(0, 41), (1, 11)]
    (fun s => (s.shared.transfer 100).any fun t => t.currentStatus = .rejected)
    (by decide) (by decide +kernel)
  obtain ⟨t, ht, h⟩ := (Option.any_eq_true ..).1 hs
  obtain ⟨n, -, hpos, -, -, -, -, hlen, -⟩ := (recorded_of_reach (wf_sampleWorld "NG")
    (fun _ _ => rfl) (fun i => by fin_cases i <;> exact trivial) hr).1 100 t rfl ht
  exact ⟨s, t, hr, ht, of_decide_eq_true h, n, hpos, hlen⟩

end Kimana
