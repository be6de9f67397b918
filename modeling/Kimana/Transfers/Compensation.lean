import Kimana.Transfers.Cites

/-!
# Refunds and their debits

* `Paid` : the entries of a transfer at each status, in brief.
* `Grew` : what a step adds to the entries and the history of a transfer.
* `refund_cites_iff` : **a refund points at its own debit** exactly when the debit is negative and
  no entry of the transfer that the search takes for a debit comes before it.
-/

namespace Kimana

open ReadCommitted Table TransferStatus Engine Util

/-! ### The entries of a transfer -/

/-- The entries of a transfer at a status. -/
def PaidAt (t : TransferRow) (s : TransferStatus) (es : List LedgerEntry) : Prop :=
  match s with
  | .created | .quoted | .screened | .awaitingFunds => es = []
  | .rejected | .expired => True
  | _ => Unwound t s es

theorem PaidAt.step {t : TransferRow} {s : TransferStatus} {es : List LedgerEntry}
    (h : PaidAt t s es) {st : PathStep} (hall : st.target ∈ s.allowed) :
    PaidAt t st.target (es ++ (refundFor t st.target ++ legFor t st.payee s st.target)) := by
  have hfunded : ∀ {s}, Unwound t s es → st.target ∈ s.allowed → PaidAt t st.target
      (es ++ (refundFor t st.target ++ legFor t st.payee s st.target)) := fun {s} hu hall => by
    by_cases hrej : st.target = .rejected
    · rw [hrej]
      trivial
    · have := hu.step hall hrej
      cases hs : st.target <;> rw [hs] at this <;> first | exact this | exact this.elim
  cases s
  case funded | settling | settled | payingOut | completed | reversing | reversed =>
    exact hfunded h hall
  case rejected | expired => cases hall
  -- Before the debit nothing is posted.
  all_goals
    obtain ⟨target, payload, payee⟩ := st
    cases (h : es = [])
    simp only [allowed, List.mem_cons, List.not_mem_nil, or_false] at hall
    rcases hall with rfl | rfl | rfl <;> first | rfl | trivial

theorem PaidAt.path {t : TransferRow} {s : TransferStatus} {es : List LedgerEntry}
    {steps : List PathStep} (h : PaidAt t s es)
    (hp : pathAllowed s (steps.map (·.target)) = true) :
    PaidAt t (pathEnd s steps) (es ++ pathEntries t s steps) := by
  induction steps generalizing s es with
  | nil => simpa [pathEntries] using h
  | cons st steps ih =>
    simp only [List.map_cons, pathAllowed, Bool.and_eq_true, decide_eq_true_eq] at hp
    have := ih (h.step hp.1) hp.2
    simpa [pathEntries] using this

/-- The entries of a transfer at its status. -/
def Paid (t : TransferRow) (es : List LedgerEntry) (_ : List HistoryRow) : Prop :=
  PaidAt t t.currentStatus es

section Commit

variable {A : Assumed} {op : Op} {d : World} {ws : List Write} {id : Uuid}

theorem paid_commit (h : Every (· ≠ id) Paid d) (hwf : Wf d) {ℓ : List Key} {ids : List ℕ}
    (hv : Valid ℓ ids d ws) (hk : op.Commits A d ws) : Every (· ≠ id) Paid (applyAll ws d) := by
  refine h.commit hwf hv hk ?_ ?_
  · intro t steps tail es hs t' hm htail htakes hold h hcore hst
    have hpaid : PaidAt t' = PaidAt t := TransferRow.eq_of_core PaidAt (fun _ => rfl) hcore
    rw [Paid, hst, hpaid]
    exact PaidAt.path h hm.allowed
  · intro _ _ _ _ _ _ _ _ t' _ _ hst
    rw [Paid, hst]
    rfl

/-- What a commit leaves of a transfer that it does not move. -/
theorem entriesOfTransfer_of_strip
    (h : ((applyAll ws d).entriesOfTransfer id).map LedgerEntry.strip =
    (d.entriesOfTransfer id).map LedgerEntry.strip) :
    (applyAll ws d).entriesOfTransfer id = d.entriesOfTransfer id := by
  rw [entriesOfTransfer_applyAll, List.map_append, List.append_right_eq_self,
    List.map_eq_nil_iff] at h
  rw [entriesOfTransfer_applyAll, h, List.append_nil]

/-- A commit that does not hold a transfer's row adds no entry to it. -/
theorem Op.Commits.entriesOfTransfer (hk : op.Commits A d ws) {ℓ : List Key} {ids : List ℕ}
    (hv : Valid ℓ ids d ws) (hℓ : .transfer id ∉ ℓ) :
    (applyAll ws d).entriesOfTransfer id = d.entriesOfTransfer id := by
  refine entriesOfTransfer_of_strip ?_
  cases hk.kind with
  | @path t steps tail hm htail _ =>
    rw [hm.entries htail]
    split
    case isFalse => rw [List.append_nil]
    case isTrue hid =>
      have hnil : steps = [] := not_not.1 fun hne => hℓ (hid ▸ hm.locked hne hv)
      rw [hnil]
      exact List.append_nil _
  | create hop hc => exact hc.entries id
  | apart ha => exact ha.entries id

end Commit

/-! ### Runs -/

/-- What a step adds to a transfer: its refund, if it is one, cites what the search finds. -/
def Grew (id : Uuid) (d d' : World) : Prop :=
  ∃ ws, d'.entriesOfTransfer id = d.entriesOfTransfer id ++ entriesIn id ws ∧
    d'.historyOf id = d.historyOf id ++ (ws.filterMap Write.historyRow).filter
      (fun h => h.transferId = id) ∧ d'.scan = d.scan ∧ Cites id (postings id d) ws

theorem Grew.refl (id : Uuid) (d : World) : Grew id d d :=
  ⟨[], by simp [entriesIn], by simp, rfl, nofun⟩

theorem Grew.applyAll {id : Uuid} {d : World} {ws : List Write}
    (h : Cites id (postings id d) ws) : Grew id d (applyAll ws d) :=
  ⟨ws, entriesOfTransfer_applyAll .., historyOf_applyAll .., scan_applyAll .., h⟩

/-- The last entry of a reversed transfer cites what the search finds in those before it. -/
def Linked (id : Uuid) (d : World) : Prop :=
  d.status id = some .reversed → ∃ es e, d.entriesOfTransfer id = es ++ [e] ∧
    e.reversalOfEntryId = (fundingOf d.scan es).map (·.id)

section Runs

variable {ι : Type} [DecidableEq ι] {ops : ι → Op} {d₀ : World} {id : Uuid}

theorem paid_of_reach (hwf : Wf d₀) (h₀ : d₀.transfer id = none)
    {s : Sys ι World Write Key Label Failure Answer}
    (hr : Reach (Step Env) (system ops d₀) s) : Wf s.shared ∧ Every (· ≠ id) Paid s.shared := by
  refine invariant_of_reach lax_anyChange granted_noAssumption hwf (fun id' t hid ht => ?_)
    (fun _ h => h.bump) (fun _ _ h he => h.env he) (fun _ _ _ => True)
    (fun _ _ _ _ _ hwf _ h hv hk _ => paid_commit h hwf hv hk)
    (fun _ _ _ h => ⟨stepIf_of_step h, trivial⟩) hr
  rw [not_not] at hid
  rw [hid, h₀] at ht
  cases ht

/-- While a call holds the row of a transfer, nobody else posts for it. -/
theorem protects_of_step (hwf : Wf d₀) {i : ι} {e : Event ι}
    {s s' : Sys ι World Write Key Label Failure Answer}
    (hr : Reach (Step Env) (system ops d₀) s) (hst : Step Env e s s') :
    Protects (.transfer id) (postings id) i e s s' := by
  intro hne hk
  have hok := sysOk_of_reach (A := noAssumption) lax_anyChange granted_noAssumption hwf
    (hr.mono fun _ _ _ h => stepIf_of_step h)
  have hm := moved_of_reach hwf hr hst
  generalize s'.shared = d at hm
  cases hm with
  | env d he => cases he <;> rfl
  | crash j => rfl
  | go j d hbelow hch =>
    rcases hch with rfl | rfl | ⟨ws, rfl, hv, hc⟩
    · rfl
    · rfl
    · have hij : i ≠ j := fun he => hne (he ▸ rfl)
      exact Prod.ext (Op.Commits.entriesOfTransfer hc hv (hok.locks i j hij _ hk))
        (scan_applyAll ..)

/-- What a step adds to a transfer. -/
theorem grew_of_step (hwf : Wf d₀) {e : Event ι} {s s' : Sys ι World Write Key Label Failure Answer}
    (hr : Reach (Step Env) (system ops d₀) s) (hst : Step Env e s s') :
    Grew id s.shared s'.shared := by
  have hm := moved_of_reach hwf hr hst
  generalize hs' : s'.shared = d at hm
  cases hm with
  | env d he => cases he <;> exact .refl id _
  | crash i => exact .refl id _
  | go i d hbelow hch =>
    cases htransfers : (ops i).ofTransfers
    case false =>
      rcases hch with rfl | rfl | ⟨ws, rfl, hv, hc⟩
      · exact .refl id _
      · exact .refl id _
      · refine .applyAll (Open.cites (fun row hrow => ?_) _)
        rw [rows_of_not_ofTransfers htransfers hc] at hrow
        cases hrow
    case true =>
      have hheld : (s.calls i).Held (.transfer id) (postings id) (Cites id) (fun _ _ _ => True)
          s.shared := held_of_reach (fun _ => rfl)
        (fun s₁ e s₂ hr₁ hst₁ => protects_of_step hwf hr₁ hst₁)
        (Call.held_settle (refers_prog htransfers (v := none)) nofun nofun) hr
      obtain ⟨free, -, d', c, hn, rfl⟩ := hst
      obtain ⟨-, rfl | rfl | ⟨ws, rfl, hcites⟩⟩ := Call.held_cases (fun _ => rfl) hheld hn
      · exact hs' ▸ .refl id _
      · exact hs' ▸ .refl id _
      · exact hs' ▸ .applyAll hcites

/-- Entries are only added. -/
theorem entries_of_reach (hwf : Wf d₀) {s₁ s : Sys ι World Write Key Label Failure Answer}
    (hr₁ : Reach (Step Env) (system ops d₀) s₁) (hr : Reach (Step Env) s₁ s) :
    ∃ us, s.shared.entriesOfTransfer id = s₁.shared.entriesOfTransfer id ++ us := by
  refine hr.invariant (I := fun s => ∃ us, s.shared.entriesOfTransfer id =
    s₁.shared.entriesOfTransfer id ++ us) ⟨[], (List.append_nil _).symm⟩ ?_
  rintro s₂ e s₃ hr₂ ⟨us, hus⟩ hst
  obtain ⟨ws, hws, -, -⟩ : Grew id s₂.shared s₃.shared := grew_of_step hwf (hr₁.trans hr₂) hst
  exact ⟨us ++ entriesIn id ws, by rw [hws, hus, List.append_assoc]⟩

/-- How many entries a reversed transfer has. -/
theorem length_of_reversed {d : World} (h : Every (· ≠ id) Paid d)
    (hs : d.status id = some .reversed) : (d.entriesOfTransfer id).length = 4 := by
  obtain ⟨t, ht, hst⟩ := Option.map_eq_some_iff.1 hs
  have hpaid := h id t (not_not.2 rfl) ht
  rw [Paid, hst] at hpaid
  obtain ⟨out, -, hes⟩ := hpaid
  simpa using congrArg List.length hes

/-- One step keeps the link. -/
theorem Linked.step {d d' : World} (h : Linked id d) (hg : Grew id d d') (hwf : Wf d)
    (hpaid : Every (· ≠ id) Paid d) (hpaid' : Every (· ≠ id) Paid d') (hh : HistoryOk id d)
    (hh' : HistoryOk id d') : Linked id d' := by
  intro hs'
  obtain ⟨ws, hentries, hrows, hscan, hcites⟩ := hg
  obtain ⟨t', ht', hst'⟩ := Option.map_eq_some_iff.1 hs'
  have hlast : (d'.historyOf id).getLast?.map (·.status) = some .reversed := by
    have := (hh'.inSequence ht').last
    rw [List.map_map, List.getLast?_map] at this
    exact this.trans (congrArg some hst')
  rw [hrows, List.getLast?_append] at hlast
  cases hnew : ((ws.filterMap Write.historyRow).filter fun h => h.transferId = id).getLast? with
  | some row =>
    -- The step reverses the transfer.
    rw [hnew] at hlast
    obtain ⟨hmem, hid⟩ := List.mem_filter.1 (List.mem_of_getLast? hnew)
    obtain ⟨pre, e, hpre, hcite⟩ := hcites row hmem (of_decide_eq_true hid) (Option.some.inj hlast)
    exact ⟨d.entriesOfTransfer id ++ pre, e, by rw [hentries, hpre, List.append_assoc],
      hscan.symm ▸ hcite⟩
  | none =>
    rw [hnew] at hlast
    have hs : d.status id = some .reversed := by
      cases ht : d.transfer id with
      | none =>
        rw [hwf.historyOf_of_none ht] at hlast
        cases hlast
      | some t =>
        have := (hh.inSequence ht).last
        rw [List.map_map, List.getLast?_map] at this
        rw [World.status, ht]
        exact this.symm.trans hlast
    obtain ⟨es, e, hes, hcite⟩ := h hs
    have hlen := length_of_reversed hpaid' hs'
    rw [hentries, List.length_append, length_of_reversed hpaid hs] at hlen
    have hnil : entriesIn id ws = [] := List.length_eq_zero_iff.1 (by omega)
    exact ⟨es, e, by rw [hentries, hnil, List.append_nil, hes], hscan.symm ▸ hcite⟩

theorem linked_of_reach (hwf : Wf d₀) (h₀ : d₀.transfer id = none)
    {s : Sys ι World Write Key Label Failure Answer}
    (hr : Reach (Step Env) (system ops d₀) s) : Linked id s.shared := by
  have hhist : ∀ {s : Sys ι World Write Key Label Failure Answer},
      Reach (Step Env) (system ops d₀) s → HistoryOk id s.shared := fun hr =>
    (historyOk_of_reach lax_anyChange granted_noAssumption hwf (.of_new hwf h₀)
      (hr.mono fun _ _ _ h => stepIf_of_step h)).2
  refine hr.invariant (I := fun s => Linked id s.shared) (fun hs => ?_) fun s₁ e s₂ hr₁ hi hst => ?_
  · rw [World.status, show (system ops d₀).shared.transfer id = none from h₀] at hs
    cases hs
  · have hr₂ := hr₁.tail ⟨e, hst⟩
    obtain ⟨hwf₁, hpaid₁⟩ := paid_of_reach hwf h₀ hr₁
    exact hi.step (grew_of_step hwf hr₁ hst) hwf₁ hpaid₁ (paid_of_reach hwf h₀ hr₂).2 (hhist hr₁)
      (hhist hr₂)

/-- The debit of a transfer is described as a funding. -/
theorem seemsFunding_debit {t : TransferRow} {f : LedgerEntry} (h : f.strip = debit t) :
    SeemsFunding f ↔ negI64 t.sendAmountMinor < 0 := by
  have hamount : f.amountMinor = negI64 t.sendAmountMinor := congrArg LedgerEntry.amountMinor h
  have htext : f.description = entryText t "funded" := congrArg LedgerEntry.description h
  have hcontains : Util.contains "funded" f.description = true := by
    rw [htext]
    refine Util.contains_of_infix ⟨("Transfer " ++ t.reference ++ " — ").toList, [], ?_⟩
    rw [entryText, List.append_nil, ← String.toList_append]
  rw [SeemsFunding, hamount, hcontains, and_iff_left rfl]

/-- A debit is negative for a positive amount, and for the one that has no negation. -/
theorem negI64_neg_iff {n : ℤ} : negI64 n < 0 ↔ 0 < n ∨ n = -2 ^ 63 := by
  unfold negI64
  split <;> omega

/-- **A refund points at its own debit**: in every reachable state in which a transfer is
`REVERSED`, its first entry is the debit, all there was while it was `FUNDED`, and its last is the
refund, which names the debit exactly when the send amount is positive, or the one that has no
negation, and no entry between that the search takes for a debit comes before it. -/
theorem refund_cites_iff (hwf : Wf d₀) (h₀ : d₀.transfer id = none)
    {s : Sys ι World Write Key Label Failure Answer} (hr : Reach (Step Env) (system ops d₀) s)
    {t : TransferRow} (ht : s.shared.transfer id = some t) (hst : t.currentStatus = .reversed) :
    ∃ f c o r, s.shared.entriesOfTransfer id = [f, c, o, r] ∧ f.strip = debit t ∧
      r.strip = refund t ∧
      (∀ s₁, Reach (Step Env) (system ops d₀) s₁ → Reach (Step Env) s₁ s →
        s₁.shared.status id = some .funded → s₁.shared.entriesOfTransfer id = [f]) ∧
      (r.reversalOfEntryId = some f.id ↔ (0 < t.sendAmountMinor ∨ t.sendAmountMinor = -2 ^ 63) ∧
        ∀ e ∈ [c, o], SeemsFunding e → comesFirst s.shared.scan e f = false) := by
  obtain ⟨hwf', hpaid⟩ := paid_of_reach hwf h₀ hr
  have hes := hpaid id t (not_not.2 rfl) ht
  rw [Paid, hst] at hes
  obtain ⟨out, -, hes⟩ := hes
  obtain ⟨f, es₁, hf, hfstrip, hes⟩ := List.map_eq_cons_iff.1 hes
  obtain ⟨c, es₂, rfl, hcstrip, hes⟩ := List.map_eq_cons_iff.1 hes
  obtain ⟨o, es₃, rfl, hostrip, hes⟩ := List.map_eq_cons_iff.1 hes
  obtain ⟨r, rfl, hrstrip⟩ := List.map_eq_singleton_iff.1 hes
  refine ⟨f, c, o, r, hf, hfstrip, hrstrip, fun s₁ hr₁ hr' hs₁ => ?_, ?_⟩
  · obtain ⟨t₁, ht₁, hst₁⟩ := Option.map_eq_some_iff.1 hs₁
    -- At `FUNDED` there was one entry, and entries are only appended.
    have hes₁ := (paid_of_reach hwf h₀ hr₁).2 id t₁ (not_not.2 rfl) ht₁
    rw [Paid, hst₁] at hes₁
    obtain ⟨x, hx, -⟩ := List.map_eq_singleton_iff.1 hes₁
    obtain ⟨us, hus⟩ : ∃ us, s.shared.entriesOfTransfer id =
      s₁.shared.entriesOfTransfer id ++ us := entries_of_reach hwf hr₁ hr'
    rw [hf, hx] at hus
    rw [hx, (List.cons.inj hus).1]
  · obtain ⟨es, e, heq, hcites⟩ := linked_of_reach hwf h₀ hr (by rw [World.status, ht, ← hst]; rfl)
    rw [hf, show [f, c, o, r] = [f, c, o] ++ [r] from rfl] at heq
    obtain ⟨rfl, he⟩ := List.append_inj' heq rfl
    cases he
    -- The search cites the debit exactly when it considers it and finds it first.
    rw [hcites, ← negI64_neg_iff, ← seemsFunding_debit hfstrip, ← fundingOf_cons_iff]
    refine ⟨fun h => ?_, fun h => by rw [h]; rfl⟩
    obtain ⟨x, hx, hid⟩ := Option.map_eq_some_iff.1 h
    have hmem : ∀ y ∈ [f, c, o], y ∈ s.shared.ledger := fun y hy =>
      List.mem_of_mem_filter (show y ∈ s.shared.entriesOfTransfer
        id by rw [hf]; simp at hy ⊢; tauto)
    rw [hx, List.inj_on_of_nodup_map hwf'.entryIds (hmem x (fundingOf_spec hx).1)
      (hmem f List.mem_cons_self) hid]

/-- The refund of a completed transfer names its debit. -/
theorem refund_cites_debit :
    ∃ s f c o r, Reach (Step Env) (system lateOps (sampleWorld "NG")) s ∧
      s.shared.entriesOfTransfer 103 = [f, c, o, r] ∧ r.reversalOfEntryId = some f.id := by
  obtain ⟨s, hr, hs⟩ := exists_reach lateOps (sampleWorld "NG") [0, 1, 2, 3]
    [(0, 15), (1, 41), (2, 48), (3, 12)]
    (fun s => (s.shared.transfer 103).any fun t => t.currentStatus = .reversed &&
      0 < t.sendAmountMinor && (s.shared.entriesOfTransfer 103).all fun e =>
        !decide (SeemsFunding e) || (s.shared.entriesOfTransfer 103).head?.all fun f =>
          !comesFirst s.shared.scan e f) (by decide) (by decide +kernel)
  obtain ⟨t, ht, hs⟩ := (Option.any_eq_true ..).1 hs
  simp only [Bool.and_eq_true, decide_eq_true_eq, List.all_eq_true, Bool.or_eq_true,
    Bool.not_eq_true', decide_eq_false_iff_not] at hs
  obtain ⟨⟨hst, hpos⟩, hall⟩ := hs
  obtain ⟨f, c, o, r, hes, hf, -, -, hiff⟩ :=
    refund_cites_iff (wf_sampleWorld "NG") rfl hr ht hst
  refine ⟨s, f, c, o, r, hr, hes, hiff.2 ⟨.inl hpos, fun e he hseems => ?_⟩⟩
  have hmem : e ∈ [f, c, o, r] := by
    simp only [List.mem_cons, List.not_mem_nil, or_false] at he ⊢
    tauto
  have hlater := (hall e (hes ▸ hmem)).resolve_left (not_not.2 hseems)
  rw [hes] at hlater
  simpa using hlater

/-- The database of a customer with a quote whose send amount was rounded down to nothing. -/
def freeWorld : World :=
  { sampleWorld "NG" with
    quotes := [{ sampleQuote 3 with sendAmountMinor := 0, receiveAmountMinor := 1 }] }

/-- A transfer of nothing is completed and reversed. -/
def freeOps : Fin 3 → Op
  | 0 => sampleCreate false "transfer" 3
  | 1 => .advanceToCompletion (sampleState false) 100 fun _ => "payout"
  | 2 => .reverseTransfer 100 "operator" none

theorem wf_freeWorld : Wf freeWorld :=
  .of_new rfl rfl rfl rfl rfl rfl rfl (by simp [freeWorld, sampleWorld, sampleQuote])
    (by simp [freeWorld, sampleWorld, sampleQuote])

/-- The refund of a transfer whose send amount is zero names no entry: none is negative and says
that it funded the transfer. -/
theorem refund_cites_nothing :
    ∃ s t f c o r, Reach (Step Env) (system freeOps freeWorld) s ∧
      s.shared.transfer 100 = some t ∧ t.currentStatus = .reversed ∧
      s.shared.entriesOfTransfer 100 = [f, c, o, r] ∧ f.strip = debit t ∧ r.strip = refund t ∧
      r.reversalOfEntryId = none := by
  obtain ⟨s, hr, hs⟩ := exists_reach freeOps freeWorld [0, 1, 2] [(0, 41), (1, 52), (2, 12)]
    (fun s => (s.shared.transfer 100).any fun t => t.currentStatus = .reversed &&
      (s.shared.entriesOfTransfer 100).getLast?.any fun r => r.reversalOfEntryId = none)
    (by decide) (by decide +kernel)
  obtain ⟨t, ht, hs⟩ := (Option.any_eq_true ..).1 hs
  simp only [Bool.and_eq_true, decide_eq_true_eq] at hs
  obtain ⟨hst, hlast⟩ := hs
  obtain ⟨f, c, o, r, hes, hf, hr', -⟩ := refund_cites_iff wf_freeWorld rfl hr ht hst
  rw [hes] at hlast
  exact ⟨s, t, f, c, o, r, hr, ht, hst, hes, hf, hr', of_decide_eq_true hlast⟩

end Runs

end Kimana
