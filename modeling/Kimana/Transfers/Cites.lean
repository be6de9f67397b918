import Kimana.ReadCommitted.Held
import Kimana.Transfers.Legible

/-!
# The entry that a refund points at

The compensating entry of a reversal names the debit that funded the transfer, found by a search:
negative amount, "funded" in the description, the earliest transaction first, and of those that
began together the one that the database comes upon first.
-/

namespace Kimana

open ReadCommitted Table TransferStatus Engine

/-! ### The search -/

variable {scan : Uuid → ℕ}

theorem comesFirst_iff {e b : LedgerEntry} : comesFirst scan e b = true ↔
    e.postedAt < b.postedAt ∨ e.postedAt = b.postedAt ∧ scan e.id < scan b.id := by
  simp [comesFirst]

theorem comesFirst_trans {a b c : LedgerEntry} (h : comesFirst scan a b = true)
    (h' : comesFirst scan b c = true) : comesFirst scan a c = true := by
  rw [comesFirst_iff] at *
  rcases h with h | ⟨h, hs⟩ <;> rcases h' with h' | ⟨h', hs'⟩
  · exact .inl (h.trans h')
  · exact .inl (h' ▸ h)
  · exact .inl (h ▸ h')
  · exact .inr ⟨h.trans h', hs.trans hs'⟩

theorem comesFirst_cotrans {a b : LedgerEntry} (h : comesFirst scan a b = true) (c : LedgerEntry) :
    comesFirst scan a c = true ∨ comesFirst scan c b = true := by
  simp only [comesFirst_iff] at *
  rcases lt_trichotomy a.postedAt c.postedAt with hlt | heq | hgt
  · exact .inl (.inl hlt)
  · rcases h with h | ⟨h, hs⟩
    · exact .inr (.inl (heq ▸ h))
    · rcases lt_or_ge (scan a.id) (scan c.id) with hc | hc
      · exact .inl (.inr ⟨heq, hc⟩)
      · exact .inr (.inr ⟨heq.symm.trans h, hc.trans_lt hs⟩)
  · rcases h with h | ⟨h, -⟩
    · exact .inr (.inl (hgt.trans h))
    · exact .inr (.inl (h ▸ hgt))

/-- The better of two entries for the search. -/
def earlier (scan : Uuid → ℕ) (best : Option LedgerEntry) (e : LedgerEntry) : Option LedgerEntry :=
  match best with
  | none => some e
  | some b => if comesFirst scan e b then some e else some b

/-- An entry that the search considers. -/
def SeemsFunding (e : LedgerEntry) : Prop :=
  e.amountMinor < 0 ∧ Util.contains "funded" e.description = true

instance : DecidablePred SeemsFunding := fun _ => inferInstanceAs (Decidable (_ ∧ _))

/-- The entry that the search finds among a transfer's entries. -/
def fundingOf (scan : Uuid → ℕ) (es : List LedgerEntry) : Option LedgerEntry :=
  (es.filter fun e => decide (SeemsFunding e)).foldl (earlier scan) none

theorem fundingEntryId_eq (d : World) (id : Uuid) :
    fundingEntryId d id = (fundingOf d.scan (d.entriesOfTransfer id)).map (·.id) := by
  have hfilter : ∀ e : LedgerEntry, (decide (e.amountMinor < 0) &&
      Util.contains "funded" e.description) = decide (SeemsFunding e) := by
    intro e
    rw [Bool.eq_iff_iff, Bool.and_eq_true, decide_eq_true_iff, decide_eq_true_iff]
    rfl
  simp only [fundingEntryId, fundingOf, hfilter]
  rfl

/-- A search that has found an entry ends in it or in one that comes before it. -/
theorem foldl_earlier (b : LedgerEntry) (es : List LedgerEntry) :
    ∃ b', es.foldl (earlier scan) (some b) = some b' ∧ b' ∈ b :: es ∧
      (∀ e ∈ b :: es, comesFirst scan e b' = false) ∧
      ((∀ e ∈ es, comesFirst scan e b = false) → b' = b) := by
  induction es generalizing b with
  | nil => exact ⟨b, rfl, List.mem_cons_self, by simp [comesFirst], fun _ => rfl⟩
  | cons e es ih =>
    by_cases hlt : comesFirst scan e b = true
    · obtain ⟨b', hb', hmem, hle, -⟩ := ih e
      refine ⟨b', ?_, List.mem_cons_of_mem _ hmem, ?_, fun hall => ?_⟩
      · rw [List.foldl_cons, earlier, if_pos hlt, hb']
      · intro x hx
        rcases List.mem_cons.1 hx with rfl | hx
        · rw [Bool.eq_false_iff]
          intro hb
          -- `e` has replaced `b`, so nothing that `b` precedes can come back.
          have := comesFirst_trans hlt hb
          simp [hle e List.mem_cons_self] at this
        · exact hle x hx
      · simp [hall e List.mem_cons_self] at hlt
    · obtain ⟨b', hb', hmem, hle, hfirst⟩ := ih b
      refine ⟨b', ?_, ?_, ?_, fun hall => hfirst fun x hx => hall x (List.mem_cons_of_mem _ hx)⟩
      · rw [List.foldl_cons, earlier, if_neg hlt, hb']
      · rcases List.mem_cons.1 hmem with rfl | hmem
        · exact List.mem_cons_self
        · exact List.mem_cons_of_mem _ (List.mem_cons_of_mem _ hmem)
      · intro x hx
        rcases List.mem_cons.1 hx with rfl | hx
        · exact hle _ List.mem_cons_self
        · rcases List.mem_cons.1 hx with rfl | hx
          · rw [Bool.eq_false_iff]
            intro hx
            rcases comesFirst_cotrans hx b with h | h
            · exact hlt h
            · simp [hle b List.mem_cons_self] at h
          · exact hle x (List.mem_cons_of_mem _ hx)

/-- What the search finds is an entry it considers, and none of those comes before it. -/
theorem fundingOf_spec {es : List LedgerEntry} {x : LedgerEntry} (h : fundingOf scan es = some x) :
    x ∈ es ∧ SeemsFunding x ∧ ∀ e ∈ es, SeemsFunding e → comesFirst scan e x = false := by
  rw [fundingOf] at h
  cases hl : es.filter fun e => decide (SeemsFunding e) with
  | nil => rw [hl] at h; cases h
  | cons b l =>
    rw [hl] at h
    obtain ⟨b', hb', hin, hle, -⟩ := foldl_earlier b l
    cases (show some x = some b' from h.symm.trans hb')
    rw [← hl] at hin hle
    obtain ⟨hmem, hseems⟩ := List.mem_filter.1 hin
    exact ⟨hmem, of_decide_eq_true hseems, fun e he hs =>
      hle e (List.mem_filter.2 ⟨he, decide_eq_true hs⟩)⟩

/-- The first entry of a transfer is found exactly when it is a debit described as a funding, and no
later one that seems so comes before it. -/
theorem fundingOf_cons_iff {f : LedgerEntry} {es : List LedgerEntry} :
    fundingOf scan (f :: es) = some f ↔
      SeemsFunding f ∧ ∀ e ∈ es, SeemsFunding e → comesFirst scan e f = false := by
  constructor
  · intro h
    obtain ⟨-, hseems, hle⟩ := fundingOf_spec h
    exact ⟨hseems, fun e he => hle e (List.mem_cons_of_mem _ he)⟩
  · rintro ⟨hs, hle⟩
    have hcons : (f :: es).filter (fun e => decide (SeemsFunding e)) =
        f :: es.filter fun e => decide (SeemsFunding e) :=
      List.filter_cons_of_pos (decide_eq_true hs)
    obtain ⟨b', hb', -, -, hfirst⟩ : ∃ b', _ ∧ _ ∧ _ ∧ _ :=
      @foldl_earlier scan f (es.filter fun e => decide (SeemsFunding e))
    have heq : b' = f := hfirst fun e he => by
      obtain ⟨he, hse⟩ := List.mem_filter.1 he
      exact hle e he (of_decide_eq_true hse)
    rw [fundingOf, hcons]
    exact heq ▸ hb'

/-! ### What a transaction publishes -/

/-- The entries of a transfer among the writes of a transaction. -/
def entriesIn (id : Uuid) (ws : List Write) : List LedgerEntry :=
  (ws.filterMap Write.entry).filter fun e => e.source = .transfer id

/-- What the search for a debit looks at: the entries of a transfer, and the order of the rows. -/
abbrev Postings := List LedgerEntry × (Uuid → ℕ)

/-- The entries of a transfer. -/
abbrev postings (id : Uuid) (d : World) : Postings := (d.entriesOfTransfer id, d.scan)

/-- What the search finds when more is posted. -/
def Postings.funding (v : Postings) (es : List LedgerEntry) : Option LedgerEntry :=
  fundingOf v.2 (v.1 ++ es)

/-- When the writes make the transfer `REVERSED`, the last entry they add points at what the search
finds among the entries before it. -/
def Cites (id : Uuid) (v : Postings) (ws : List Write) : Prop :=
  ∀ row ∈ ws.filterMap Write.historyRow, row.transferId = id → row.status = .reversed →
    ∃ pre e, entriesIn id ws = pre ++ [e] ∧ e.reversalOfEntryId = (v.funding pre).map (·.id)

/-- No write makes the transfer `REVERSED`. -/
def Open (id : Uuid) (ws : List Write) : Prop :=
  ∀ row ∈ ws.filterMap Write.historyRow, row.transferId = id → row.status ≠ .reversed

/-- A write of no entry and no history row. -/
def Silent (w : Write) : Prop := w.entry = none ∧ w.historyRow = none

theorem Open.cites {id : Uuid} {ws : List Write} (h : Open id ws) (v : Postings) :
    Cites id v ws := fun row hrow hid hs => absurd hs (h row hrow hid)

theorem entriesIn_append (id : Uuid) (ws us : List Write) :
    entriesIn id (ws ++ us) = entriesIn id ws ++ entriesIn id us := by
  rw [entriesIn, List.filterMap_append, List.filter_append]
  rfl

theorem entriesIn_of_silent {id : Uuid} {us : List Write} (h : ∀ w ∈ us, Silent w) :
    entriesIn id us = [] := by
  rw [entriesIn, List.filterMap_eq_nil_iff.2 fun w hw => (h w hw).1]
  rfl

theorem rows_of_silent {us : List Write} (h : ∀ w ∈ us, Silent w) :
    us.filterMap Write.historyRow = [] := List.filterMap_eq_nil_iff.2 fun w hw => (h w hw).2

theorem Cites.append {id : Uuid} {v : Postings} {ws us : List Write} (h : Cites id v ws)
    (hus : ∀ w ∈ us, Silent w) : Cites id v (ws ++ us) := by
  intro row hrow hid hs
  rw [List.filterMap_append, rows_of_silent hus, List.append_nil] at hrow
  rw [entriesIn_append, entriesIn_of_silent hus, List.append_nil]
  exact h row hrow hid hs

theorem Open.append {id : Uuid} {ws us : List Write} (h : Open id ws) (hus : Open id us) :
    Open id (ws ++ us) := by
  intro row hrow
  rw [List.filterMap_append] at hrow
  rcases List.mem_append.1 hrow with hrow | hrow
  · exact h row hrow
  · exact hus row hrow

theorem open_of_silent {id : Uuid} {us : List Write} (h : ∀ w ∈ us, Silent w) : Open id us := by
  intro row hrow
  rw [rows_of_silent h] at hrow
  cases hrow

theorem open_of_logsOnly {id target : Uuid} {status : TransferStatus} {payload : Option JObj}
    {us : List Write} (h : ∀ w ∈ us, LogsOnly target status payload w)
    (hne : target = id → status ≠ .reversed) : Open id us := by
  intro row hrow hid
  obtain ⟨htarget, hs, -⟩ := LogsOnly.of_mem h hrow
  exact hs ▸ hne (htarget.symm.trans hid)

/-! ### The programs -/

section Held

variable {E A B : Type} {id : Uuid} {v : Option Postings} {ws : List Write}

theorem scan_applyAll (ws : List Write) (d : World) : (applyAll ws d).scan = d.scan := by
  induction ws generalizing d with
  | nil => rfl
  | cons w ws ih => cases w <;> exact ih _

/-- Every commit of the program satisfies `Cites`; `v` is the transfer's entries, as long as its row
is locked. -/
abbrev Refers (id : Uuid) (Φ : A → Option Postings → List Write → Prop)
    (p : Prog World Write Key Label E A) (v : Option Postings) (ws : List Write) : Prop :=
  p.Held (.transfer id) (postings id) (Cites id) Φ v ws

/-- What is not yet published may be committed. -/
def Committable (id : Uuid) (v : Option Postings) (ws : List Write) : Prop :=
  ∀ d, Knows (postings id) v d → Cites id (postings id d) ws

theorem Open.committable (h : Open id ws) : Committable id v ws := fun _ _ => h.cites _

theorem refers_lock {target : Uuid} :
    Refers id (fun t v' ws' => t.row.id = target ∧ (target = id → ∃ es, v' = some es) ∧ ws' = ws)
      (Engine.lock target) v ws := by
  intro snap d _
  simp only [Prog.bind_eq, Prog.bind, Tx.mark]
  split
  case h_2 => trivial
  case h_1 _ row _ hrow =>
    split
    case h_2 => trivial
    case h_1 =>
      exact ⟨(World.transfer_mem hrow).2, fun he => ⟨_, if_pos (he ▸ rfl)⟩, rfl⟩

/-- A transition that is not to `REVERSED`, or that follows a refund. -/
theorem refers_apply {conn : Conn} {t : LockedTransfer} {actor : Option Uuid}
    {source target : TransferStatus} {payload : Option JObj} :
    Refers id (fun _ v' ws' => HeldOn (LogsOnly t.row.id target payload) v v' ws ws')
      (Engine.apply conn t actor source target payload) v ws :=
  held_of_adds (adds_apply ..) (.refl v ws)

/-- A posting locks an account, which is no lock of a transfer. -/
theorem refers_appendEntry {conn : Conn} {acct : Uuid} {amount : ℤ} {currency : LedgerCurrency}
    {text : String} {source : EntrySource} {reversal : Option Uuid} :
    Refers id (fun _ v' ws' => (∀ x, v = some x → v' = some x) ∧ ∃ e,
        ws' = ws ++ [.insertEntry e] ∧ e.source = source ∧ e.reversalOfEntryId = reversal)
      (Ledger.appendEntry conn acct amount currency text source reversal) v ws := by
  have hlock : Refers id (fun _ v' ws' => v' = v ∧ ws' = ws)
      (Tx.lock (.account acct) : Tx Unit) v ws := fun _ _ _ => ⟨rfl, rfl⟩
  simp only [Ledger.appendEntry, Prog.bind_eq, Prog.pure_eq]
  refine held_bind_of hlock fun _ v₁ ws₁ h₁ => ?_
  obtain ⟨rfl, rfl⟩ := h₁
  refine held_bind_of (held_of_adds (Ledger.adds_accountBalanceMinor (V := fun _ => False) acct)
    (.refl _ _)) fun _ v₂ ws₂ h₂ n => ?_
  obtain ⟨us, rfl, hus⟩ := h₂.adds
  rw [List.eq_nil_iff_forall_not_mem.2 hus, List.append_nil]
  exact ⟨h₂.value, _, rfl, rfl, rfl⟩

/-- The refund of a transfer whose row is locked cites what the search finds. -/
theorem refers_postSendRefund {conn : Conn} {t : LockedTransfer} :
    Refers id (fun _ v' ws' => (∀ x, v = some x → v' = some x) ∧ ∃ us e,
        ws' = ws ++ us ++ [.insertEntry e] ∧ (∀ w ∈ us, Silent w) ∧
        e.source = .transfer t.row.id ∧ ∀ es, t.row.id = id → v = some es →
          e.reversalOfEntryId = (es.funding (entriesIn id ws)).map (·.id))
      (postSendRefund conn t) v ws := by
  simp only [postSendRefund, Prog.bind_eq, Tx.read, Prog.bind]
  intro d hd
  have hsilent : ∀ row, Silent (.insertAccount row) := fun _ => ⟨rfl, rfl⟩
  refine held_bind_of (held_bind_of (held_of_adds (adds_getOrCreateAccount hsilent _ _)
    (.refl v ws)) fun acct v₁ ws₁ h₁ => ?_) fun _ _ _ h => h
  obtain ⟨us, rfl, hus⟩ := h₁.adds
  refine held_mono (fun _ v₂ ws₂ h₂ => ?_) refers_appendEntry
  obtain ⟨hval, e, rfl, hsource, hcite⟩ := h₂
  refine ⟨fun x hx => hval x (h₁.value x hx), us, e, rfl, hus, hsource, fun es hid hes => ?_⟩
  rw [hcite, fundingEntryId_eq, scan_applyAll, entriesOfTransfer_applyAll, hid, ← hd es hes]
  rfl

/-- The refund and the transition to `REVERSED` leave what may be committed. -/
theorem refers_close {conn : Conn} {t : LockedTransfer} {actor : Option Uuid}
    {source : TransferStatus} {payload : Uuid → Option JObj} {g : Uuid → Tx A}
    {Φ : A → Option Postings → List Write → Prop} (hopen : Open id ws)
    (hv : t.row.id = id → ∃ es, v = some es)
    (hg : ∀ n v ws, Committable id v ws → Refers id Φ (g n) v ws) :
    Refers id Φ ((postSendRefund conn t).bind fun n =>
      (Engine.apply conn t actor source .reversed (payload n)).bind fun _ => g n) v ws := by
  refine held_bind_of refers_postSendRefund fun n v₁ ws₁ h₁ => ?_
  refine held_bind_of refers_apply fun _ v₂ ws₂ h₂ => hg n _ _ fun d hd => ?_
  obtain ⟨hval, us, e, rfl, hsilent, hsource, hcites⟩ := h₁
  obtain ⟨us', rfl, hus'⟩ := h₂.adds
  by_cases hid : t.row.id = id
  · obtain ⟨es, rfl⟩ := hv hid
    rw [hd es (h₂.value es (hval es rfl))]
    refine fun row _ _ _ => ⟨entriesIn id ws, e, ?_, hcites es hid rfl⟩
    have hus : us'.filterMap Write.entry = [] := entries_of_reversed hus'
    rw [entriesIn_append, entriesIn_append, entriesIn_append, entriesIn_of_silent hsilent,
      List.append_nil]
    simp [entriesIn, hus, Write.entry, hsource, hid]
  · have hentry : Open id [.insertEntry e] := by simp [Open, Write.historyRow]
    exact (((hopen.append (open_of_silent hsilent)).append hentry).append
      (open_of_logsOnly hus' fun he => absurd he hid)).cites _

/-- A path that has not been to `REVERSED` ends in what may be committed. -/
theorem refers_walk {conn : Conn} {t : LockedTransfer} {payload : JObj} {source : TransferStatus}
    {path : List TransferStatus} (hp : pathAllowed source path = true) (hopen : Open id ws)
    (hv : t.row.id = id → ∃ es, v = some es) :
    Refers id (fun _ v' ws' => Committable id v' ws') (walk conn t payload source path) v ws := by
  induction path generalizing source v ws with
  | nil => exact hopen.committable
  | cons target path ih =>
    simp only [pathAllowed, Bool.and_eq_true, decide_eq_true_eq] at hp
    obtain ⟨-, hp⟩ := hp
    rw [walk]
    split
    case isFalse hne =>
      refine held_bind_of refers_apply fun _ v₁ ws₁ h₁ => ?_
      obtain ⟨us, rfl, hus⟩ := h₁.adds
      refine ih hp (hopen.append (open_of_logsOnly hus fun _ => hne)) fun hid => ?_
      obtain ⟨es, hes⟩ := hv hid
      exact ⟨es, h₁.value es hes⟩
    case isTrue heq =>
      subst heq
      -- Nothing follows `REVERSED`.
      have hnil : path = [] := by
        cases path with
        | nil => rfl
        | cons st path => simp [pathAllowed, allowed] at hp
      subst hnil
      exact refers_close hopen hv fun n v₁ ws₁ h₁ => h₁

theorem refers_applyOnchain {conn : Conn} {target : Uuid} {goal : OnchainTarget} {payload : JObj}
    (hopen : Open id ws) :
    Refers id (fun _ v' ws' => Committable id v' ws')
      (applyOnchain conn target goal payload) v ws := by
  refine held_bind_of refers_lock fun t v₁ ws₁ h₁ => ?_
  obtain ⟨rfl, hv, rfl⟩ := h₁
  simp only
  split
  · exact hopen.committable
  · split
    case isTrue hp =>
      exact held_bind_of (refers_walk hp hopen hv) fun _ _ _ h => h
    case isFalse => exact hopen.committable

theorem refers_deliver {target : Uuid} {goal : OnchainTarget} {payload : JObj} :
    Refers id (fun _ _ _ => True) (deliver target goal payload) v [] := by
  simp only [deliver, begin, Prog.bind_eq, Tx.query, Prog.pure_eq, Prog.bind]
  intro d _
  exact held_bind_of (refers_applyOnchain fun row hrow => by cases hrow) fun _ _ _ h => ⟨h, trivial⟩

theorem refers_reverseTransfer {target : Uuid} {reason : String} {actor : Option Uuid} :
    Refers id (fun _ _ _ => True) (reverseTransfer target reason actor) v [] := by
  simp only [reverseTransfer, begin, Prog.bind_eq, Tx.query, Prog.pure_eq, Prog.bind]
  intro d _
  refine held_bind_of refers_lock fun t v₁ ws₁ h₁ => ?_
  obtain ⟨rfl, hv, rfl⟩ := h₁
  refine held_bind_of refers_apply fun _ v₂ ws₂ h₂ => ?_
  obtain ⟨us, rfl, hus⟩ := h₂.adds
  refine refers_close (open_of_logsOnly hus fun _ => by decide) (fun hid => ?_)
    fun n v₃ ws₃ h₃ => ⟨h₃, trivial⟩
  obtain ⟨es, hes⟩ := hv hid
  exact ⟨es, h₂.value es hes⟩

/-! ### The listener -/

open Listener

theorem adds_insertEvent (row : SettlementEvent) : (insertEvent row).Adds Silent := by
  unfold insertEvent
  split
  · trivial
  · intro _ _ d
    simp only [Prog.bind]
    split
    · trivial
    · exact ⟨⟨rfl, rfl⟩, trivial⟩

theorem adds_getBlock (block : ℕ) : (getBlock block).Adds Silent := by
  intro d
  simp only [Prog.bind]
  split <;> trivial

theorem adds_quoteExpiredAt (target : Uuid) (block : ℕ) :
    (quoteExpiredAt target block).Adds Silent := by
  intro d
  simp only [Prog.bind]
  split
  · trivial
  · trivial
  · exact (adds_getBlock block).bind fun _ => .ret _

theorem adds_targetOf (event : VaultEvent) (target : Uuid) (block : ℕ) :
    (targetOf event target block).Adds Silent := by
  cases event
  case quoteCancelled => exact (adds_quoteExpiredAt _ _).bind fun _ => .ret _
  all_goals trivial

theorem adds_blockHash (block : ℕ) : (blockHash block).Adds fun _ => False := by
  intro d
  simp only [Prog.bind]
  split <;> trivial

/-- A piece that adds nothing that matters. -/
theorem refers_silent {p : Prog World Write Key Label E A} (hp : p.Adds Silent)
    (h : Committable id v ws) :
    Refers id (fun _ v' ws' => Committable id v' ws') p v ws := by
  refine held_mono (fun _ v' ws' h' d hd => ?_) (held_of_adds hp (.refl v ws))
  obtain ⟨us, rfl, hus⟩ := h'.adds
  exact (h d fun x hx => hd x (h'.value x hx)).append hus

/-- A piece that adds nothing. -/
theorem refers_reads {p : Prog World Write Key Label E A} (hp : p.Adds fun _ => False) :
    Refers id (fun _ _ ws' => ws' = ws) p v ws := by
  refine held_mono (fun _ v' ws' h => ?_) (held_of_adds hp (.refl v ws))
  obtain ⟨us, rfl, hus⟩ := h.adds
  rw [List.eq_nil_iff_forall_not_mem.2 hus, List.append_nil]

theorem refers_at' (p : PassPoint) : Refers id (fun _ _ ws' => ws' = ws) (at' p) v ws := rfl

theorem refers_record {cfg : ListenerConfig} {conn : Conn} {event : VaultEvent} {target : Uuid}
    {txHash : B256} {logIndex block : ℕ} {hash : BlockHash} :
    Refers id (fun _ _ ws' => ws' = []) (record cfg conn event target txHash logIndex block hash)
      v [] := by
  simp only [record, Prog.bind_eq]
  refine held_bind_of (held_of_adds (adds_targetOf event target block) (.refl v []))
    fun goal v₁ ws₁ h₁ => ?_
  obtain ⟨us, hws, hus⟩ := h₁.adds
  rw [List.nil_append] at hws
  subst hws
  have hopen : Open id ws₁ := open_of_silent hus
  have happlied : Refers id (fun _ v' ws' => Committable id v' ws')
      (applyTarget conn target [("event", .str (describe event).1), ("txHash", .hash txHash),
        ("blockNumber", .num block)] goal) v₁ ws₁ := by
    cases goal with
    | none => exact hopen.committable
    | some goal =>
      exact held_bind_of (held_mapError.2 (refers_applyOnchain hopen)) fun _ _ _ h => h
  refine held_bind_of happlied fun outcome v₂ ws₂ h₂ => ?_
  refine held_bind_of (refers_silent (adds_insertEvent _) h₂) fun fresh v₃ ws₃ h₃ => ?_
  split
  · split
    · exact ⟨fun d hd => (h₃ d hd).append (by simp [Silent, Write.entry, Write.historyRow]), rfl⟩
    · exact ⟨h₃, rfl⟩
  · rfl

theorem refers_handle {cfg : ListenerConfig} {log : RpcLog} :
    Refers id (fun _ _ ws' => ws' = []) (handle cfg log) v [] := by
  unfold handle
  split
  · rfl
  split
  · simp only [lift, begin, Tx.query, Prog.bind_eq, Prog.pure_eq, Prog.bind, Prog.mapError]
    intro d _
    simp only
    split
    · rfl
    · intro d' _ d'' _
      simp only
      split
      · rfl
      · exact refers_record
  · trivial

theorem refers_handleAll {cfg : ListenerConfig} {logs : List RpcLog} :
    Refers id (fun _ _ ws' => ws' = []) (handleAll cfg logs) v [] := by
  induction logs generalizing v with
  | nil => rfl
  | cons log logs ih =>
    change Refers id _ ((handle cfg log).bind fun _ => handleAll cfg logs) v []
    refine held_bind_of refers_handle fun _ v₁ ws₁ h₁ => ?_
    exact h₁ ▸ ih

theorem refers_ranges {cfg : ListenerConfig} {confirmed fuel start : ℕ} :
    Refers id (fun _ _ ws' => ws' = []) (ranges cfg confirmed fuel start) v [] := by
  induction fuel generalizing start v with
  | zero => rfl
  | succ fuel ih =>
    rw [ranges]
    split
    case isFalse => rfl
    case isTrue =>
      simp only [Prog.bind_eq, Prog.bind]
      intro d _
      simp only
      refine held_bind_of refers_handleAll fun _ v₁ ws₁ h₁ => ?_
      subst h₁
      refine held_bind_of (refers_at' _) fun _ v₂ ws₂ h₂ => ?_
      subst h₂
      refine held_bind_of (refers_reads (adds_blockHash _)) fun hash v₃ ws₃ h₃ => ?_
      subst h₃
      refine held_bind_of (refers_at' _) fun _ v₄ ws₄ h₄ => ?_
      subst h₄
      exact ⟨fun d _ => Open.cites
        (open_of_silent (by simp [Silent, Write.entry, Write.historyRow])) _,
        ih⟩

theorem refers_startFrom {cfg : ListenerConfig} :
    Refers id (fun _ _ ws' => ws' = []) (startFrom cfg) v [] := by
  simp only [startFrom, Prog.bind_eq, Prog.bind]
  intro d _
  simp only
  refine held_bind_of (refers_at' _) fun _ v₁ ws₁ h₁ => ?_
  subst h₁
  split
  · refine held_bind_of (refers_reads (adds_blockHash _)) fun hash v₂ ws₂ h₂ => ?_
    split
    · trivial
    · exact h₂
  · rfl

theorem refers_runOnce {cfg : ListenerConfig} :
    Refers id (fun _ _ _ => True) (runOnce cfg) v [] := by
  simp only [runOnce, Prog.bind_eq, Prog.bind]
  intro d _
  simp only
  split
  · trivial
  refine held_bind_of refers_startFrom fun start v₁ ws₁ h₁ => ?_
  subst h₁
  split
  · trivial
  refine held_bind_of (refers_at' _) fun _ v₂ ws₂ h₂ => ?_
  subst h₂
  exact held_bind_of refers_ranges fun _ _ _ _ => trivial

/-! ### Operations -/

theorem refers_wrap {e : E → Failure} {a : A → Answer} {p : Prog World Write Key Label E A}
    {Φ : A → Option Postings → List Write → Prop} (h : Refers id Φ p v ws) :
    Refers id (fun _ _ _ => True) (wrap e a p) v ws :=
  held_bind_of (held_mapError.2 h) fun _ _ _ _ => trivial

theorem open_of_forward {us : List Write} (h : ∀ w ∈ us, LogsForward w) : Open id us := by
  intro row hrow _
  obtain ⟨w, hw, hwrow⟩ := List.mem_filterMap.1 hrow
  cases w with
  | insertHistory r =>
    cases hwrow
    exact (h _ hw _ rfl).status
  | _ => cases hwrow

/-- The operations on transfers commit refunds that cite what the search finds. -/
theorem refers_prog {op : Op} (ht : op.ofTransfers = true) :
    Refers id (fun _ _ _ => True) op.prog v [] := by
  have hforward : ∀ {A : Type} {a : A → Answer} {p : Tx A}, Walks LogsForward (fun _ => True) p →
      Refers id (fun _ _ _ => True) (wrap .api a p) v [] := fun hp =>
    refers_wrap (held_of_writes (fun es _ h => (open_of_forward h).cites es) hp.writes (by simp))
  have hb := (creating_logsForward 0).toBasic
  cases op with
  | createTransfer => exact hforward (.createTransfer creating_logsForward ..)
  | advanceOnce => exact hforward (.advanceOnce hb ..)
  | advanceToCompletion => exact hforward (.advanceToCompletion hb ..)
  | expireTransfer => exact hforward (.expireTransfer hb ..)
  | resolveScreeningHold => exact hforward (.resolveScreeningHold hb ..)
  | reverseTransfer => exact refers_wrap refers_reverseTransfer
  | applyOnchain => exact refers_wrap refers_deliver
  | runOnce => exact refers_wrap refers_runOnce
  | executeTrade | cancelCollection | applyInbound | receiveYellowcard | receiveBridge => cases ht

end Held

end Kimana
