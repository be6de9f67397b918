import Kimana.Transfers.Advance
import Kimana.Transfers.Service

/-!
# Creating a transfer under interference

`createTransfer_spec` : a call commits at most one creation (`CreateCommits`), of a quote that
nobody has claimed and a key that nobody has used; its answer is the transfer of its key, and a
`CONFLICT` has committed nothing.
-/

namespace Kimana.Service

open ReadCommitted Table TransferStatus Ledger Engine

/-- What a creation commits: `q` is the quote it claims, `id` the new transfer. -/
structure Creation (state : AppState) (session : Session) (input : CreateTransferInput)
    (body : String) (d : World) (ws : List Write) (q : QuoteRow) (recipientId id : Uuid)
    (now : Time) : Prop where
  quote : d.quote input.quoteId = some q
  unclaimed : q.consumedByTransferId = none
  customer : q.customerId = session.customerId
  brief : brief ws = [.insertTransfer
      ((newTransfer session input recipientId (Quote.intoStored q).firmQuote body).row id now),
    .consumeQuote input.quoteId id, .setSettlementRef id (state.transferRef id),
    .insertHistory ⟨id, 0, .created, 0, none, none⟩]

/-- What `createTransfer` commits: the creation, and forward steps of the transfer it created. -/
def CreateCommits (A : Assumed) (state : AppState) (session : Session)
    (input : CreateTransferInput) (body : String) (d : World) (ws : List Write) : Prop :=
  (∃ q recipientId id now, Creation state session input body d ws q recipientId id now) ∨
    ∃ id, AdvanceCommits A state id d ws

/-- The id of the transfer that a customer made with a key. -/
def keyed (d : World) (customerId : Uuid) (key : String) : Option Uuid :=
  (d.transferByKey customerId key).map (·.id)

theorem keyed_ext {d d' : World} (h : Ext d d') (hwf : Wf d') {c id : Uuid} {key : String}
    (hk : keyed d c key = some id) : keyed d' c key = some id := by
  obtain ⟨t, ht, rfl⟩ := Option.map_eq_some_iff.1 hk
  obtain ⟨t', ht', hc⟩ := h.transfers t (List.mem_of_find?_eq_some ht)
  have hcols : t.customerId = c ∧ t.idempotencyKey = key := by simpa using List.find?_some ht
  have hcols' : t'.customerId = c ∧ t'.idempotencyKey = key :=
    ⟨(TransferRow.customerId_of_core hc).trans hcols.1,
      (TransferRow.idempotencyKey_of_core hc).trans hcols.2⟩
  have := hwf.transferByKey_eq ht'
  rw [hcols'.1, hcols'.2] at this
  rw [keyed, this, Option.map_some, TransferRow.id_of_core hc]

variable {ι : Type} {R : Rules ι World Key Label} {i : ι} {loc : Loc} {d : World} {A : Assumed}

/-- An insert takes the key and the reference, or finds them taken. -/
theorem insert_spec (hR : Framed R) (h : InTx loc d) {conn : Conn} {input : Repo.InsertTransfer}
    (hrec : ∃ r ∈ (view loc d).recipients, r.id = input.recipientId) :
    wp R i (fun r loc' d' => (r = none ∧ Ran R loc d loc' d' []) ∨
        ∃ id, r = some id ∧ .transfer id ∈ loc'.locks ∧
          Ran R loc d loc' d' [.insertTransfer (input.row id conn.now)])
      (fun _ _ _ => False) (Repo.insert conn input) loc d := by
  simp only [Repo.insert, Prog.bind_eq, Tx.fresh, Tx.lock, Tx.read, Tx.write, Prog.pure_eq,
    Prog.bind]
  refine (Ran.refl h).wp_fresh hR fun id d₁ _ hu h₁ => ?_
  refine (Ran.refl h₁.inTx).wp_lock hR fun _ d₂ _ _ h₂ => h₂.wp_lock hR fun _ d₃ _ _ h₃ =>
    h₃.wp_lock hR fun _ d₄ _ _ h₄ => h₄.wp_read hR fun d₅ _ h₅ => ?_
  split
  case isTrue => exact .inl ⟨rfl, h₁.trans h₅⟩
  case isFalse hfree =>
    simp only [Bool.or_eq_true, not_or, Bool.not_eq_true, Option.isSome_eq_false_iff,
      Option.isNone_iff_eq_none] at hfree
    obtain ⟨r, hr, hid⟩ := hrec
    refine h₅.wp_write (w := .insertTransfer _) ⟨by simp [Write.keys, Repo.InsertTransfer.row],
      ⟨rfl, hfree.1, hfree.2, r, ((h₁.trans h₅).ext_view hR).recipients r hr, hid⟩, ?_⟩
      fun h₆ => .inr ⟨id, rfl, by simp, h₁.trans h₆⟩
    rintro _ ⟨⟩
    exact ⟨List.mem_cons_self, (h₅.agree_view hR).unused id List.mem_cons_self hu⟩

/-- Claiming a quote for a transfer of this transaction. -/
theorem tryConsume_spec (hR : Framed R) (h : InTx loc d) {quoteId transferId : Uuid}
    (ht : ∃ t ∈ (view loc d).transfers, t.id = transferId) :
    wp R i (fun ok loc' d' => (ok = false ∧ Ran R loc d loc' d' []) ∨
        ok = true ∧ Ran R loc d loc' d' [.consumeQuote quoteId transferId] ∧
          .quote quoteId ∈ loc'.locks ∧
          ∃ q, (view loc d').quote quoteId = some q ∧ q.consumedByTransferId = none)
      (fun _ _ _ => False) (Quote.tryConsume quoteId transferId) loc d := by
  simp only [Quote.tryConsume, Prog.bind_eq, Tx.write, Prog.pure_eq, Prog.bind]
  refine (Ran.refl h).wp_lock hR fun _ d₁ _ _ h₁ => ?_
  split
  case h_2 => exact .inl ⟨rfl, h₁⟩
  case h_1 q hq =>
    split
    case isFalse => exact .inl ⟨rfl, h₁⟩
    case isTrue hnone =>
      obtain ⟨t, ht, rfl⟩ := ht
      obtain ⟨t', ht', hc⟩ := (h₁.ext_view hR).transfers t ht
      have hn : q.consumedByTransferId = none := by simpa using hnone
      exact h₁.wp_write (w := .consumeQuote _ _) ⟨by simp [Write.keys],
        ⟨⟨q, hq, hn⟩, t', ht', TransferRow.id_of_core hc⟩, by simp [Write.publishes]⟩
        fun h₂ => .inr ⟨rfl, h₂, List.mem_cons_self, q, hq, hn⟩

/-- Storing the vault's key of a new transfer. -/
theorem setSettlementRef_spec (hR : Framed R) (h : InTx loc d) {state : AppState} {id : Uuid}
    (hk : .transfer id ∈ loc.locks) {t : TransferRow} (ht : (view loc d).transfer id = some t)
    (hn : ∀ t ∈ (view loc d).transferRows id, t.settlementRef = none) :
    wp R i (fun _ loc' d' => Ran R loc d loc' d' [.setSettlementRef id (state.transferRef id)])
      (fun e loc' d' => Failed loc loc' d' ∧ e = .serverError)
      (Repo.setSettlementRef state id) loc d := by
  simp only [Repo.setSettlementRef, Prog.bind_eq, Tx.lock, Tx.read, Tx.write, Prog.bind]
  refine (Ran.refl h).wp_lock hR fun _ d₁ _ _ h₁ => h₁.wp_read hR fun d₂ _ h₂ => ?_
  split
  case isTrue => exact ⟨h₂.failed, rfl⟩
  case isFalse hfree =>
    have ha := h₂.agree_view hR
    have hrows := (Seen.transfer.inj (ha.seen _ hk)).1
    exact h₂.wp_write (w := .setSettlementRef _ _) ⟨by simp [Write.keys, hk],
      ⟨⟨t, (ha.transfer hk).symm.trans ht⟩, fun r hr => hn r (hrows ▸ hr), by simpa using hfree⟩,
      by simp [Write.publishes]⟩ fun h₃ => h₃

/-- A history row, under the transfer's row lock. -/
theorem appendHistory_spec (hR : Framed R) (h : InTx loc d) {id : Uuid} {status : TransferStatus}
    {payload : Option JObj} {note : Option String} (hk : .transfer id ∈ loc.locks)
    {t : TransferRow} (ht : (view loc d).transfer id = some t) :
    wp R i (fun _ loc' d' => ∃ ws, Ran R loc d loc' d' ws ∧
        brief ws = [.insertHistory ⟨id, 0, status, 0, note, payload⟩])
      (fun _ _ _ => False) (Repo.appendHistory id status payload note) loc d := by
  simp only [Repo.appendHistory, Prog.bind_eq, Tx.read, Tx.write, Prog.bind]
  refine (Ran.refl h).wp_read hR fun d₁ _ h₁ => ?_
  exact h₁.wp_write (w := .insertHistory _) ⟨by simpa [Write.keys] using hk,
    ⟨⟨t, ((h₁.agree_view hR).transfer hk).symm.trans ht⟩, rfl⟩, by simp [Write.publishes]⟩
    fun h₂ => ⟨_, h₂, rfl⟩

/-- The lookup by key, on a connection of its own. -/
theorem findByIdempotencyKey_spec (hR : Framed R) (h : InTx loc d) {c : Uuid} {key : String} :
    wp R i (fun r loc' d' => loc' = loc ∧ Ran R loc d loc d' [] ∧
        ∀ t, r = some t → keyed d' c key = some t.row.id)
      (fun _ _ _ => False) (Repo.findByIdempotencyKey c key) loc d := by
  simp only [Repo.findByIdempotencyKey, Prog.bind_eq, Tx.query, Prog.pure_eq, Prog.bind]
  refine (Ran.refl h).wp_query hR fun d₁ _ h₁ => ⟨rfl, h₁, fun t ht => ?_⟩
  obtain ⟨row, hrow, rfl⟩ := Option.map_eq_some_iff.1 ht
  rw [keyed, hrow]
  rfl

theorem keyed_insertTransfer {ws : List Write} {row : TransferRow} {d : World}
    (hwf : Wf (applyAll (.insertTransfer row :: ws) d)) :
    keyed (applyAll (.insertTransfer row :: ws) d) row.customerId row.idempotencyKey =
      some row.id := by
  obtain ⟨t, ht, hc⟩ := (ext_applyAll ws ((Write.insertTransfer row).apply d)).transfers row
    (by simp [Write.apply])
  have := hwf.transferByKey_eq ht
  rw [TransferRow.customerId_of_core hc, TransferRow.idempotencyKey_of_core hc] at this
  rw [keyed, this, Option.map_some, TransferRow.id_of_core hc]

/-- The quote of a transfer to be created: its row, as some earlier query found it. -/
structure Offered (d : World) (session : Session) (input : CreateTransferInput)
    (quote : Quote.StoredQuote) : Prop where
  row : ∃ q ∈ d.quotes, q.id = input.quoteId ∧ quote = Quote.intoStored q
  customer : quote.customerId = session.customerId

theorem Offered.ext {d d' : World} {session : Session} {input : CreateTransferInput}
    {quote : Quote.StoredQuote} (h : Offered d session input quote) (he : Ext d d') :
    Offered d' session input quote := by
  obtain ⟨⟨q, hq, hid, rfl⟩, hc⟩ := h
  obtain ⟨q', hq', hcore⟩ := he.quotes q hq
  refine ⟨⟨q', hq', (congrArg QuoteRow.id hcore :).trans hid, ?_⟩, hc⟩
  exact (congrArg Quote.intoStored hcore.symm :)

theorem Wf.quote_eq {d : World} (h : Wf d) {q : QuoteRow} (hq : q ∈ d.quotes) :
    d.quote q.id = some q := by
  cases hf : d.quote q.id with
  | none => simpa using ne_of_find?_eq_none hf q hq
  | some q' =>
    have hid : q'.id = q.id := by simpa using List.find?_some hf
    rw [of_nodup_map h.quoteIds (List.mem_of_find?_eq_some hf) hq hid]

theorem brief_createdAudit (session : Session) (transferId quoteId recipientId : Uuid) :
    (Write.insertAudit (createdAudit session transferId quoteId recipientId)).brief = none :=
  Write.brief_of_action (by simp [createdAudit, stateChange])

/-- The creation commits, or nothing does. -/
theorem insertTransfer_spec (hR : Framed R) {state : AppState} {conn : Conn} {session : Session}
    {input : CreateTransferInput} {quote : Quote.StoredQuote} {recipientId : Uuid} {body : String}
    (hg : Grants R i (CreateCommits A state session input body)) (h : InTx loc d)
    (hp : loc.pending = []) (hq : Offered d session input quote)
    (hr : ∃ r ∈ d.recipients, r.id = recipientId) :
    wp R i (fun r loc' d' => match r with
        | .ok id => Committed loc loc' d' ∧
          keyed d' session.customerId input.idempotencyKey = some id
        | .error raced => Dropped loc loc' d' ∧
          keyed d' session.customerId input.idempotencyKey = some raced.row.id)
      (fun _ loc' d' => Dropped loc loc' d')
      (insertTransfer state conn session input quote recipientId body) loc d := by
  have hqid : quote.id = input.quoteId := by
    obtain ⟨q, -, hid, rfl⟩ := hq.row
    exact hid
  simp only [insertTransfer, Prog.bind_eq, Tx.rollback, Tx.write, Tx.commit, Prog.pure_eq,
    Prog.bind]
  refine wp_bind_of (insert_spec hR h (by rw [view_of_pending _ hp]; exact hr))
    (fun _ _ _ he => he.elim) ?_
  rintro r loc₁ d₁ (⟨rfl, h₁⟩ | ⟨id, rfl, hk, h₁⟩)
  · -- The key or the reference is taken.
    refine h₁.wp_rollback hR fun d₂ hr₂ h₂ => ?_
    refine wp_bind_of (findByIdempotencyKey_spec hR h₂) (fun _ _ _ he => he.elim) ?_
    rintro r loc₃ d₃ ⟨rfl, h₃, hkey⟩
    have hd : Dropped loc loc₁.ended d₃ := ⟨h₃.inTx.wf, h₃.inTx.calm, h₁.made⟩
    split
    · exact ⟨hd, hkey _ rfl⟩
    · exact hd
  -- From here on the transaction sees its own row, and only that row has the id.
  have hp₁ : loc₁.pending = [.insertTransfer ((newTransfer session input recipientId
      quote.firmQuote body).row id conn.now)] := by rw [h₁.pending, hp]; rfl
  have hrows : ∀ t ∈ (view loc₁ d₁).transferRows id, t = (newTransfer session input recipientId
      quote.firmQuote body).row id conn.now := by
    intro t ht
    simp only [World.transferRows, List.mem_filter, decide_eq_true_eq] at ht
    refine of_nodup_map h₁.inTx.view_wf.transferIds ht.1 ?_ ht.2
    rw [view, hp₁]
    simp [Write.apply]
  have hmem : ∃ t ∈ (view loc₁ d₁).transfers, t.id = id := by
    refine ⟨(newTransfer session input recipientId quote.firmQuote body).row id conn.now, ?_, rfl⟩
    rw [view, hp₁]
    simp [Write.apply]
  refine wp_bind_of (tryConsume_spec hR h₁.inTx hmem) (fun _ _ _ he => he.elim) ?_
  rintro ok loc₂ d₂ (⟨rfl, h₂⟩ | ⟨rfl, h₂, hkq, q, hqv, hqn⟩)
  · -- Another transfer claimed the quote.
    exact h₂.wp_rollback hR fun d₃ _ h₃ =>
      ⟨h₃.wf, h₃.calm, (h₁.trans h₂).made⟩
  have hq₂ : d₂.quote input.quoteId = some q := by
    rw [view, hp₁, hqid] at hqv
    exact hqv
  -- The row lock on the id keeps the settlement reference unset.
  have hrows₂ : ∀ t ∈ (view loc₂ d₂).transferRows id, t.settlementRef = none := by
    intro t ht
    rw [h₂.view_eq] at ht
    have := (Seen.transfer.inj ((h₂.agree_view hR).seen _ hk)).1
    rw [hrows t (this ▸ ht)]
    rfl
  have htr : ∀ {v : World}, Wf v → (∃ t ∈ v.transfers, t.id = id) → ∃ t, v.transfer id = some t :=
    fun hwf ht => ht.elim fun t ht => ⟨t, ht.2 ▸ hwf.of_transfer_mem ht.1⟩
  have hsome : ∀ {v : World}, Ext (view loc₁ d₁) v → ∃ t ∈ v.transfers, t.id = id := by
    intro v he
    obtain ⟨t, ht, rfl⟩ := hmem
    obtain ⟨t', ht', hc⟩ := he.transfers t ht
    exact ⟨t', ht', TransferRow.id_of_core hc⟩
  obtain ⟨t₂, ht₂⟩ := htr h₂.inTx.view_wf (hsome (h₂.ext_view hR))
  refine wp_bind_of (setSettlementRef_spec hR h₂.inTx (h₂.locks _ hk) ht₂ hrows₂)
    (fun _ _ _ he => (he.1.dropped h₂.inTx.calm).trans (h₁.trans h₂)) ?_
  rintro _ loc₃ d₃ h₃
  obtain ⟨t₃, ht₃⟩ := htr h₃.inTx.view_wf (hsome ((h₂.trans h₃).ext_view hR))
  refine wp_bind_of (appendHistory_spec hR h₃.inTx (h₃.locks _ (h₂.locks _ hk)) ht₃)
    (fun _ _ _ he => he.elim) ?_
  rintro _ loc₄ d₄ ⟨ws, h₄, hb⟩
  refine (h₃.trans h₄).wp_write (w := .insertAudit _)
    ⟨by simp [Write.keys], trivial, by simp [Write.publishes]⟩ fun h₅ => ?_
  have hpend := h₅.pending
  rw [h₂.pending, hp₁] at hpend
  refine h₅.wp_commit_of hR hg (fun d₆ h₆ => .inl ?_) fun d₆ h₆ hc =>
    ⟨hc.trans (h₁.trans h₂), ?_⟩
  · -- The quote was locked by `tryConsume`, so at the commit it is as it was found there.
    have hq₆ : d₆.quote input.quoteId = some q :=
      (Seen.quote.inj ((h₆.agree hR).seen (.quote input.quoteId) (hqid ▸ hkq))).symm.trans hq₂
    obtain ⟨⟨q₀, hq₀, hid₀, he₀⟩, hcust⟩ := hq.ext (((h₁.trans h₂).trans h₆).rely_ext hR)
    have : q₀ = q := Option.some.inj ((Wf.quote_eq h₆.inTx.wf hq₀).symm.trans (hid₀ ▸ hq₆))
    subst this
    subst he₀
    refine ⟨q₀, recipientId, id, conn.now, hq₆, hqn, hcust, ?_⟩
    rw [hpend]
    simp [brief_createdAudit, hb, ← hid₀, Quote.intoStored]
  · have hwf := hc.wf
    rw [view, hpend] at hwf ⊢
    exact keyed_insertTransfer hwf

/-- The customer's limits are read under the row lock. -/
theorem lockCustomerLimits_spec (hR : Framed R) (h : InTx loc d) {c : Uuid} :
    wp R i (fun _ loc' d' => Ran R loc d loc' d' [])
      (fun e loc' d' => Failed loc loc' d' ∧ e = .serverError) (lockCustomerLimits c) loc d := by
  simp only [lockCustomerLimits]
  refine (Ran.refl h).wp_lock hR fun _ d₁ _ _ h₁ => ?_
  split
  · exact h₁
  · exact ⟨h₁.failed, rfl⟩

/-- The limits are checked or the request is refused. -/
theorem checkExposureLimits_spec (hR : Framed R) (h : InTx loc d) {state : AppState} {c : Uuid}
    {limits : CustomerLimits} {quote : FirmQuote} :
    wp R i (fun _ loc' d' => Ran R loc d loc' d' [])
      (fun e loc' d' => Failed loc loc' d' ∧ e.code ≠ .conflict)
      (checkExposureLimits state c limits quote) loc d := by
  simp only [checkExposureLimits, customerOpenExposureMinor, Prog.bind_eq, Tx.read, Prog.pure_eq,
    Prog.bind]
  split
  · exact ⟨(Ran.refl (R := R) h).failed, fun hc => by cases hc⟩
  · refine (Ran.refl h).wp_read hR fun d₁ _ h₁ => wp_bind_of (toBigint_spec _) ?_ ?_
    · rintro e _ _ ⟨rfl, rfl, rfl, -⟩
      exact ⟨h₁.failed, fun hc => by cases hc⟩
    · rintro n _ _ ⟨rfl, rfl, -, -⟩
      split
      · exact ⟨h₁.failed, fun hc => by cases hc⟩
      · exact h₁

/-- **Creation**: the answer is the transfer of the key, and a conflict has committed nothing. -/
theorem createTransfer_spec (hR : Framed R) (hA : Granted A R) {state : AppState}
    {session : Session} {input : CreateTransferInput} {body : String} {bodies : ℕ → String}
    (hg : Grants R i (CreateCommits A state session input body)) (h : Idle loc d) :
    wp R i (fun t _ d' => Wf d' ∧
        keyed d' session.customerId input.idempotencyKey = some t.row.id)
      (fun e loc' _ => e.code = .conflict → loc'.made = loc.made)
      (createTransfer state session input body bodies) loc d := by
  simp only [createTransfer]
  generalize Util.byteLen (Util.trim input.idempotencyKey) = len
  split
  case isTrue => exact fun _ => rfl
  refine wp_bind_of (findByIdempotencyKey_spec hR h.inTx) (fun _ _ _ he => he.elim) ?_
  rintro r loc₁ d₁ ⟨rfl, h₁, hkey⟩
  split
  case h_1 existing => exact ⟨h₁.inTx.wf, hkey _ rfl⟩
  simp only [Quote.findById, Prog.bind_eq, Tx.query, Prog.pure_eq, Prog.bind]
  refine h₁.wp_query hR fun d₂ _ h₂ => ?_
  split
  case h_1 => exact fun _ => rfl
  case h_2 quote hquote =>
  have hoff : Offered d₂ session input quote := by
    obtain ⟨hq, hc⟩ := Option.filter_eq_some_iff.1 hquote
    obtain ⟨q, hrow, rfl⟩ := Option.map_eq_some_iff.1 hq
    exact ⟨⟨q, List.mem_of_find?_eq_some hrow, by simpa using List.find?_some hrow, rfl⟩,
      by simpa using hc⟩
  refine h₂.wp_query hR fun d₃ hr₃ h₃ => ?_
  split
  case isTrue => exact fun _ => rfl
  refine h₃.wp_query hR fun d₄ hr₄ h₄ => ?_
  split
  case h_1 => exact fun _ => rfl
  case h_2 recipient hrec =>
  have hrec' : ∃ r ∈ d₄.recipients, r.id = recipient.id :=
    ⟨recipient, List.mem_of_find?_eq_some hrec, rfl⟩
  refine wp_begin hR ⟨h₄.inTx.wf, h.calm, h.pending, h.ids⟩ fun conn d₅ hr₅ h₅ => ?_
  refine wp_bind_of (lockCustomerLimits_spec hR h₅.inTx) (fun e _ _ he hc => ?_) ?_
  · rw [he.2] at hc; cases hc
  rintro limits loc₆ d₆ h₆
  refine wp_bind_of (findByIdempotencyKey_spec hR h₆.inTx) (fun _ _ _ he => he.elim) ?_
  rintro r loc₇ d₇ ⟨rfl, h₇, hkey₇⟩
  split
  case h_1 existing =>
    -- A create with the same key committed while this one waited.
    refine h₇.wp_rollback hR fun d₈ hr₈ h₈ => ⟨h₈.wf, ?_⟩
    exact keyed_ext (hR.rely hr₈ h₇.inTx.wf).1.ext h₈.wf (hkey₇ _ rfl)
  refine wp_bind_of (checkExposureLimits_spec hR h₇.inTx) (fun _ _ _ he hc => absurd hc he.2) ?_
  rintro _ loc₈ d₈ h₈
  have h₅₈ := h₆.trans (h₇.trans h₈)
  have hext : Ext d₄ d₈ := (hR.rely hr₅ h₄.inTx.wf).1.ext.trans (h₅₈.rely_ext hR)
  have hoff₈ := hoff.ext (((hR.rely hr₃ h₂.inTx.wf).1.ext.trans
    (hR.rely hr₄ h₃.inTx.wf).1.ext).trans hext)
  have hrec₈ : ∃ r ∈ d₈.recipients, r.id = recipient.id :=
    hrec'.imp fun r hr => ⟨hext.recipients r hr.1, hr.2⟩
  have hp₈ : loc₈.pending = [] := by rw [h₅₈.pending, h.pending]; rfl
  refine wp_bind_of (insertTransfer_spec hR hg h₈.inTx hp₈ hoff₈ hrec₈) ?_ ?_
  · exact fun e _ _ he _ => he.made.trans h₅₈.made
  rintro r loc₉ d₉ h₉
  split
  case h_1 raced => exact ⟨h₉.1.wf, h₉.2⟩
  case h_2 id =>
  obtain ⟨hc₉, hkey₉⟩ := h₉
  have hadv : Grants R i (AdvanceCommits A state id) :=
    fun ℓ ids d ws hv hP => hg ℓ ids d ws hv (.inr ⟨id, hP⟩)
  refine wp_bind_of (wp_ext hR hc₉.wf (by simp [hc₉.ids])
    (advanceToAwaitingFunds_spec hR hA hadv hc₉.toIdle))
      (fun e _ _ he hc => absurd hc he.1.2.2.2) ?_
  rintro _ loc₁₀ d₁₀ ⟨⟨h₁₀, -⟩, he₁₀⟩
  simp only [Repo.findById, Prog.bind_eq, Tx.query, Prog.pure_eq, Prog.bind]
  refine (Ran.refl h₁₀.inTx).wp_query hR fun d₁₁ _ h₁₁ => ?_
  split
  case h_2 => exact fun hc => by cases hc
  case h_1 t ht =>
    obtain ⟨row, hrow, rfl⟩ := Option.map_eq_some_iff.1 ht
    refine ⟨h₁₁.inTx.wf, ?_⟩
    rw [show (Repo.joined d₁₁ row).row.id = id from (World.transfer_mem hrow).2]
    exact keyed_ext (he₁₀.trans (h₁₁.rely_ext hR)) h₁₁.inTx.wf hkey₉

end Kimana.Service
