import Kimana.Collections.Orphan
import Kimana.ReadCommitted.Keyed
import Mathlib.Data.List.Nodup
import Mathlib.Data.List.Pairwise

/-!
# Payment requests are opened once

A customer who repeats a request, at once or after a failure, gets the request that is on file under
its key.

* `Creation.Asks` : the row that a call may store.
* `Does` : what a call changes; `createCollection_spec` : nothing else.
* `asked_of_reach` : the unique columns stay unique, and every new row was asked for.
* `opened_of_reach` : **one request for each key**, in every run.
-/

namespace Kimana.Opening

open ReadCommitted Util Collections

/-! ### What a call may store -/

/-- The partner side of a request fits its currency. -/
def FitsCurrency (currency : CurrencyCode) (provider : String) (providerRef : Option String) :
    Prop :=
  currency = .ngn ∧ provider = yellowcardName ∧ providerRef.isSome ∨
    currency = .usd ∧ provider = bridgeName ∧ providerRef = none

/-- An optional text is within its bound, and not blank. -/
def Fits (maxChars : ℕ) (value : Option String) : Prop :=
  ∀ t, value = some t → t ≠ "" ∧ t.toList.length ≤ maxChars

/-- The row is what the call asks for, checked. -/
structure Creation.Asks (c : Creation) (row : CollectionRow) : Prop where
  customer : row.customerId = c.session.customerId
  key : row.idempotencyKey = c.input.idempotencyKey
  stable : 8 ≤ byteLen (trim row.idempotencyKey)
  amount : row.amountMinor = c.input.amount.amountMinor ∧ row.currency = c.input.amount.currency
  positive : 0 < row.amountMinor
  partner : FitsCurrency row.currency row.provider row.providerRef
  payerName : Fits maxPayerNameChars row.payerName
  note : Fits maxNoteChars row.note
  fresh : row.status = .pending ∧ row.paidAt = none ∧ row.cancelledAt = none
  expiry : row.expiresAt ≤ row.createdAt + days maxTtlDays

theorem fits_of_optionalText {value : Option String} {field : String} {maxChars : ℕ}
    {r : Option String} (h : optionalText value field maxChars = .ok r) : Fits maxChars r := by
  unfold optionalText at h
  split at h
  case h_1 =>
    cases h
    rintro t ⟨⟩
  case h_2 v hv =>
    split at h
    case isTrue => cases h
    case isFalse hle =>
      cases h
      rintro t ⟨⟩
      obtain ⟨-, hne⟩ := Option.filter_eq_some_iff.1 hv
      exact ⟨by simpa using hne, Nat.not_lt.1 hle⟩

theorem le_of_expiry {rfc3339 : String → Option Time} {raw : Option String} {now t : Time}
    (h : expiry rfc3339 raw now = .ok t) : t ≤ now + days maxTtlDays := by
  unfold expiry at h
  dsimp only at h
  split at h
  case h_1 => cases h
  case h_2 =>
    split at h
    case isTrue => cases h
    case isFalse =>
      split at h
      case isTrue => cases h
      case isFalse hle =>
        cases h
        exact Nat.not_lt.1 hle

/-! ### Keys -/

/-- What no other request may have. -/
def rowKeys (row : CollectionRow) : List Key :=
  [.requestKey row.customerId row.idempotencyKey, .reference row.reference] ++
    (row.providerRef.map (.providerRef row.provider)).toList

/-- The requests, with their unique columns. -/
def requests : Keyed Desk Key where
  keys d := d.collections.flatMap rowKeys
  ids d := d.collections.map (·.id)

theorem nodup_rowKeys (row : CollectionRow) : (rowKeys row).Nodup := by
  unfold rowKeys
  cases row.providerRef <;> simp

/-- What a call does to the tables at once, with the locks it holds and the ids it has drawn. -/
inductive Does (c : Creation) (ℓ : List Key) (ids : List ℕ) : Desk → Desk → Prop
  | submit {d : Desk} (receive : String) (new : NewReceive) :
      Does c ℓ ids d (d.submitted receive new)
  | cancel {d : Desk} (receive : String) : Does c ℓ ids d (d.withCancelled receive)
  | store {d : Desk} {row : CollectionRow} (a : AuditRow) : c.Asks row →
      (∀ k ∈ rowKeys row, k ∈ ℓ ∧ k ∉ requests.keys d) → row.id ∈ ids →
      row.id ∉ requests.ids d ∧ row.id < d.nextId →
      Does c ℓ ids d (applyAll [.insertCollection row, .insertAudit a] d)

variable {ι : Type} {creations : ι → Creation} {d d' : Desk} {c : Creation}

/-- The rules of creations. -/
def rules (creations : ι → Creation) : Rules ι Desk Key Label where
  guar i ℓ ids d d' := Does (creations i) ℓ ids d d'
  env := Env

theorem Does.takes {ℓ : List Key} {ids : List ℕ} (h : Does c ℓ ids d d') :
    Takes requests ℓ ids d d' := by
  cases h with
  | submit | cancel => exact ⟨fun _ h => .inl h, fun _ h => .inl h, le_rfl⟩
  | store a hasks hkeys hid hnew =>
    refine ⟨fun k hk => ?_, fun n hn => ?_, le_rfl⟩
    · obtain ⟨row', hrow, hk'⟩ := List.mem_flatMap.1 hk
      rcases List.mem_append.1 hrow with hrow | hrow
      · exact .inl (List.mem_flatMap.2 ⟨row', hrow, hk'⟩)
      · rw [List.mem_singleton.1 hrow] at hk'
        exact .inr (hkeys k hk').1
    · obtain ⟨row, hrow, rfl⟩ := List.mem_map.1 hn
      rcases List.mem_append.1 hrow with hrow | hrow
      · exact .inl (List.mem_map_of_mem hrow)
      · obtain rfl := List.mem_singleton.1 hrow
        exact .inr hid

theorem Does.distinct {ℓ : List Key} {ids : List ℕ} (h : Does c ℓ ids d d')
    (hd : Distinct requests d) : Distinct requests d' := by
  cases h with
  | submit | cancel => exact hd.same rfl rfl le_rfl
  | store a hasks hkeys hid hnew =>
    refine hd.insert ?_ ?_ rfl (nodup_rowKeys _) (fun k hk => (hkeys k hk).2) hnew
    · exact (List.flatMap_append ..).trans (by simp [requests])
    · exact List.map_append ..

/-- Requests stay as they are, and time goes on. -/
structure Later (d d' : Desk) : Prop where
  collections : ∀ row ∈ d.collections, row ∈ d'.collections
  clock : d.clock ≤ d'.clock

theorem Later.refl (d : Desk) : Later d d := ⟨fun _ h => h, le_rfl⟩

theorem Later.trans {d₁ d₂ d₃ : Desk} (h : Later d₁ d₂) (h' : Later d₂ d₃) : Later d₁ d₃ :=
  ⟨fun row hr => h'.collections row (h.collections row hr), h.clock.trans h'.clock⟩

theorem Does.later {ℓ : List Key} {ids : List ℕ} (h : Does c ℓ ids d d') : Later d d' := by
  cases h with
  | submit | cancel => exact ⟨fun _ h => h, le_rfl⟩
  | store => exact ⟨fun _ h => List.mem_append_left _ h, le_rfl⟩

theorem Env.takes (h : Env d d') : Takes requests [] [] d d' := by
  obtain ⟨now, -⟩ := h
  exact ⟨fun _ h => .inl h, fun _ h => .inl h, le_rfl⟩

theorem fair_rules : Fair requests (rules creations) where
  guar _ _ _ _ _ h := Does.takes h
  env _ _ h := Env.takes h
  bump _ := ⟨fun _ h => .inl h, fun _ h => .inl h, Nat.le_succ _⟩

theorem later_of_others {ℓ : List Key} {ids : List ℕ} {l : Label} {w : Option Desk}
    (h : (rules creations).Others ℓ ids l w d d') : Later d d' := by
  cases h with
  | bump => exact ⟨fun _ h => h, le_rfl⟩
  | guar _ _ _ _ _ _ hg _ => exact Does.later hg
  | env he _ =>
    obtain ⟨now, hle⟩ := he
    exact ⟨fun _ h => h, hle⟩

variable {loc : Local Desk Write Key Label} {w : Option Desk} {ks : List Key} {ids : List ℕ}
  {pending : List Write} {t : Time} {i : ι}

theorem later_of_rely (h : (rules creations).Rely loc w d d') : Later d d' :=
  h.invariant (P := Later d) (.refl d) fun _ _ h₁ ho => h₁.trans (later_of_others ho)

theorem distinct_of_rely (h : (rules creations).Rely loc w d d') (hd : Distinct requests d) :
    Distinct requests d' := by
  refine h.invariant hd fun d₁ d₂ h₁ ho => ?_
  cases ho with
  | bump => exact h₁.same rfl rfl (Nat.le_succ _)
  | guar _ _ _ _ _ _ hg _ => exact Does.distinct hg h₁
  | env he _ =>
    obtain ⟨now, -⟩ := he
    exact h₁.same rfl rfl le_rfl

/-! ### Statements -/

/-- Where a call stands: the keys it holds, the ids it has drawn, what it has not published, and a
time that has passed. -/
structure Goes (ks : List Key) (ids : List ℕ) (pending : List Write) (t : Time)
    (loc : Local Desk Write Key Label) (d : Desk) : Prop where
  distinct : Distinct requests d
  holds : Holds requests ks loc d
  ids : loc.ids = ids
  pending : loc.pending = pending
  time : t ≤ d.clock

theorem Goes.rely (h : Goes ks ids pending t loc d) (hr : (rules creations).Rely loc w d d') :
    Goes ks ids pending t loc d' :=
  ⟨distinct_of_rely hr h.distinct, h.holds.rely fair_rules hr, h.ids, h.pending,
    h.time.trans (later_of_rely hr).clock⟩

/-- A change of the partner's side only. -/
theorem Goes.changed (h : Goes ks ids pending t loc d) (d' : Desk)
    (hc : d'.collections = d.collections) (hn : d'.nextId = d.nextId) (hclock : d'.clock = d.clock)
    (l : Label) :
    Goes ks ids pending t ((loc.changed d d').at' l) d' := by
  have hkeys : requests.keys d' = requests.keys d := congrArg (List.flatMap rowKeys) hc
  have hids : requests.ids d' = requests.ids d := congrArg (List.map CollectionRow.id) hc
  have hholds : Holds requests ks ((loc.changed d d').at' l) d :=
    h.holds.mono (fun _ h => h) fun _ h => h
  exact ⟨h.distinct.same hkeys hids hn.ge, hholds.same hkeys hids hn, h.ids, h.pending,
    hclock ▸ h.time⟩

theorem Goes.hold (h : Goes ks ids pending t loc d) (k : Key) :
    Goes ks ids pending t (loc.hold k) d :=
  { h with holds := h.holds.mono (fun _ hk => List.mem_cons_of_mem _ hk) fun _ h => h }

theorem Goes.lock (h : Goes ks ids pending t loc d) {k : Key} (hk : k ∈ loc.locks)
    (hfree : k ∉ requests.keys d) : Goes (k :: ks) ids pending t loc d :=
  { h with holds := h.holds.lock hk hfree }

theorem Goes.at' (h : Goes ks ids pending t loc d) (l : Label) :
    Goes ks ids pending t (loc.at' l) d :=
  { h with holds := h.holds.mono (fun _ h => h) fun _ h => h }

theorem Goes.wrote (h : Goes ks ids pending t loc d) (w : Write) :
    Goes ks ids (pending ++ [w]) t (loc.wrote w) d :=
  { h with
    holds := h.holds.mono (fun _ h => h) fun _ h => h
    pending := by rw [Local.wrote_pending, h.pending] }

theorem Goes.draw (h : Goes ks ids pending t loc d) :
    Goes ks (seq d :: ids) pending t (loc.draw (seq d)) (bump d) where
  distinct := h.distinct.same rfl rfl (Nat.le_succ _)
  holds := h.holds.draw h.distinct ⟨fun _ h => .inl h, fun _ h => .inl h, Nat.le_succ _⟩
  ids := by rw [Local.draw, h.ids]
  pending := h.pending
  time := h.time

theorem Goes.ended (h : Goes ks ids pending t loc d) : Goes [] [] [] t loc.ended d where
  distinct := h.distinct
  holds := ⟨by simp, by simp, by simp [Local.ended]⟩
  ids := rfl
  pending := rfl
  time := h.time

/-- A free key of a customer. -/
theorem requestKey_free {customerId : Uuid} {key : String} (h : d.byKey customerId key = none) :
    .requestKey customerId key ∉ requests.keys d := by
  intro hk
  obtain ⟨row, hrow, hk⟩ := List.mem_flatMap.1 hk
  have hne := List.find?_eq_none.1 h row hrow
  cases hr : row.providerRef <;> simp [rowKeys, hr] at hk <;> simp [hk] at hne

/-- The other unique columns of a row that are free. -/
theorem free_of_unclaimed {row : CollectionRow} (h : d.unclaimed row = true) :
    .reference row.reference ∉ requests.keys d ∧
      ∀ r, row.providerRef = some r → .providerRef row.provider r ∉ requests.keys d := by
  have hall := List.all_eq_true.1 h
  refine ⟨fun hk => ?_, fun r hr hk => ?_⟩
  · obtain ⟨c, hc, hk⟩ := List.mem_flatMap.1 hk
    have := hall c hc
    cases hcr : c.providerRef <;> simp [rowKeys, hcr] at hk <;> simp [hk] at this
  · obtain ⟨c, hc, hk⟩ := List.mem_flatMap.1 hk
    have := hall c hc
    cases hcr : c.providerRef <;> simp [rowKeys, hcr] at hk
    simp [hk, hr, hcr] at this

/-! ### What a call does -/

theorem findByKey_spec (h : Goes ks ids pending t loc d) (customerId : Uuid) (key : String) :
    wp (rules creations) i (fun r loc' d' => Goes ks ids pending t loc' d' ∧
        ∀ s, r = some s → s.row ∈ d'.collections ∧ s.row.customerId = customerId ∧
          s.row.idempotencyKey = key)
      (fun _ _ _ => True) (findByKey customerId key) loc d := by
  unfold findByKey
  split
  case isTrue => trivial
  case isFalse =>
    intro d' hr
    refine ⟨trivial, h.rely hr, fun s hs => ?_⟩
    obtain ⟨row, hrow, rfl⟩ := Option.map_eq_some_iff.1 hs
    have hkey : row.customerId = customerId ∧ row.idempotencyKey = key := by
      simpa using List.find?_some hrow
    exact ⟨List.mem_of_find?_eq_some hrow, hkey⟩

theorem cancelReceive_spec (h : Goes ks ids pending t loc d) (receive : String) :
    wp (rules creations) i (fun _ loc' d' => Goes ks ids pending t loc' d') (fun _ _ _ => True)
      (cancelReceive receive) loc d := by
  intro d' hr
  refine ⟨trivial, Does.cancel receive, ?_⟩
  rw [wp_mark]
  exact (h.rely hr).changed (d'.withCancelled receive) rfl rfl rfl .idle

/-- The partner side fits the currency, and expires no later than asked. -/
def Offers (currency : CurrencyCode) (expiresAt : Time) (opened : Opened) : Prop :=
  FitsCurrency currency opened.provider opened.providerRef ∧ opened.expiresAt ≤ expiresAt

theorem openYellowcard_spec (h : Goes ks ids pending t loc d) (rfc3339 : String → Option Time)
    (state : AppState) (session : Session) (id : Uuid) (reference : String) (amountMinor : ℤ)
    (note : Option String) (expiresAt : Time) (answer : Except ApiError OpenedReceive) :
    wp (rules creations) i (fun opened loc' d' => Goes ks ids pending t loc' d' ∧
        Offers .ngn expiresAt opened) (fun _ _ _ => True)
      (openYellowcard rfc3339 state session id reference amountMinor note expiresAt answer) loc
      d := by
  simp only [openYellowcard, Prog.bind_eq, Prog.pure_eq, Prog.bind]
  split
  case isTrue => trivial
  case isFalse =>
  intro d₁ hr₁
  refine ⟨trivial, ?_⟩
  dsimp only
  split
  case h_1 => trivial
  case h_2 contact _ =>
  split
  case h_1 => trivial
  case h_2 receive =>
  intro d₂ hr₂
  refine ⟨trivial, Does.submit _ _, ?_⟩
  rw [wp_mark]
  have h₂ : ∀ new, Goes ks ids pending t ((loc.changed d₂ (d₂.submitted receive.id new)).at'
      (.opened receive.id)) (d₂.submitted receive.id new) := fun new =>
    ((h.rely hr₁).rely hr₂).changed (d₂.submitted receive.id new) rfl rfl rfl _
  split
  case h_1 =>
    -- Without an account number the receive is cancelled, and the call fails.
    exact wp_bind_of (cancelReceive_spec (h₂ _) _) (fun _ _ _ _ => trivial) fun _ _ _ _ => trivial
  case h_2 =>
    refine ⟨h₂ _, .inl ⟨rfl, rfl, rfl⟩, ?_⟩
    cases parseTime rfc3339 receive.expiresAt with
    | none => exact le_rfl
    | some t => exact min_le_right t expiresAt

theorem openPartner_spec (h : Goes ks ids pending t loc d) (rfc3339 : String → Option Time)
    (state : AppState) (session : Session) (id : Uuid) (reference : String) (amount : Money)
    (note : Option String) (expiresAt : Time) (answer : Except ApiError OpenedReceive) :
    wp (rules creations) i (fun opened loc' d' => Goes ks ids pending t loc' d' ∧
        Offers amount.currency expiresAt opened) (fun _ _ _ => True)
      (openPartner rfc3339 state session id reference amount note expiresAt answer) loc d := by
  simp only [openPartner, Prog.bind_eq, Prog.pure_eq, Prog.bind]
  split
  case h_1 hngn =>
    rw [hngn]
    exact openYellowcard_spec h ..
  case h_2 husd =>
    intro d₁ hr₁
    refine ⟨trivial, ?_⟩
    dsimp only
    split
    case h_1 => trivial
    case h_2 => exact ⟨h.rely hr₁, .inr ⟨husd, rfl, rfl⟩, le_rfl⟩
  case h_3 => trivial

/-- A row goes in under keys that are held, or its key is taken. -/
theorem insertCollection_spec (h : Goes [] ids [] t loc d) (row : CollectionRow) :
    wp (rules creations) i (fun ok loc' d' => (ok = false ∧ ∃ ks, Goes ks ids [] t loc' d') ∨
        ok = true ∧ Goes (rowKeys row) ids [.insertCollection row] t loc' d')
      (fun _ _ _ => True) (insertCollection row) loc d := by
  -- The last statement, once all keys are locked.
  have hlast : ∀ {loc' d'}, Goes [.requestKey row.customerId row.idempotencyKey] ids [] t loc' d' →
      (∀ k ∈ rowKeys row, k ∈ loc'.locks) →
      wp (rules creations) i (fun ok loc' d' => (ok = false ∧ ∃ ks, Goes ks ids [] t loc' d') ∨
        ok = true ∧ Goes (rowKeys row) ids [.insertCollection row] t loc' d') (fun _ _ _ => True)
        (Prog.read fun d : Desk => if d.unclaimed row = true then
          Prog.write (.insertCollection row) (Prog.ret true)
          else Prog.fail ApiError.serverError) loc' d' := by
    intro loc' d' h' hlocks d'' hr
    refine ⟨trivial, ?_⟩
    have h'' := h'.rely hr
    rw [h''.pending, applyAll_nil]
    dsimp only
    split
    case isFalse => trivial
    case isTrue hun =>
      obtain ⟨href, hreceive⟩ := free_of_unclaimed hun
      have hfree : ∀ k ∈ rowKeys row, k ∉ requests.keys d'' := fun k hk => by
        simp only [rowKeys, List.mem_append, List.mem_cons, List.not_mem_nil, or_false,
          Option.mem_toList, Option.map_eq_some_iff] at hk
        rcases hk with (rfl | rfl) | ⟨r, hr, rfl⟩
        · exact h''.holds.free _ List.mem_cons_self
        · exact href
        · exact hreceive r hr
      have hall : Goes (rowKeys row) ids [] t loc' d'' :=
        { h'' with holds := ⟨hlocks, hfree, h''.holds.ids⟩ }
      exact .inr ⟨rfl, hall.wrote _⟩
  simp only [insertCollection, lockProviderRef, Prog.bind_eq, Prog.pure_eq, Prog.bind]
  intro d₁ hr₁
  refine ⟨trivial, fun d₂ hr₂ => ⟨trivial, ?_⟩⟩
  intro d₃ hr₃
  refine ⟨trivial, ?_⟩
  have h₃ := ((((h.rely hr₁).rely hr₂).hold
    (.requestKey row.customerId row.idempotencyKey)).at' (.keyed row)).rely hr₃
  rw [h₃.pending, applyAll_nil]
  dsimp only
  split
  case isTrue => trivial
  case isFalse =>
  split
  case isTrue => exact .inl ⟨rfl, _, h₃⟩
  case isFalse hnone =>
  have hkey := requestKey_free (Option.not_isSome_iff_eq_none.1 hnone)
  have h₄ := (h₃.lock List.mem_cons_self hkey).at' (.inserting row)
  rw [wp_mark]
  intro d₅ hr₅
  refine ⟨trivial, fun d₆ hr₆ => ⟨trivial, ?_⟩⟩
  have h₆ := ((h₄.rely hr₅).rely hr₆).hold (.reference row.reference)
  split
  case h_1 r hr =>
    intro d₇ hr₇
    refine ⟨trivial, fun d₈ hr₈ => ⟨trivial, ?_⟩⟩
    refine hlast (((h₆.rely hr₇).rely hr₈).hold _) fun k hk => ?_
    simp only [rowKeys, hr] at hk
    simp at hk ⊢
    tauto
  case h_2 hr =>
    refine hlast h₆ fun k hk => ?_
    simp only [rowKeys, hr] at hk
    simp at hk ⊢
    tauto

/-- The answer is a row on file under the call's key. -/
def Creation.Answers (c : Creation) (sel : Selected) (d : Desk) : Prop :=
  sel.row ∈ d.collections ∧ sel.row.customerId = c.session.customerId ∧
    sel.row.idempotencyKey = c.input.idempotencyKey

theorem closeReceive_spec (h : Goes ks ids pending t loc d) (state : AppState) (opened : Opened) :
    wp (rules creations) i (fun _ loc' d' => Goes ks ids pending t loc' d') (fun _ _ _ => True)
      (closeReceive state opened) loc d := by
  unfold closeReceive
  split
  · split
    · exact cancelReceive_spec h _
    · exact h
  · exact h

/-- What is asked for is stored, or what is on file under the key is returned. -/
theorem storeCollection_spec {id : Uuid} (h : Goes [] [id] [] t loc d)
    {payerName note : Option String} {reference : String} {opened : Opened}
    (hasks : ∀ createdAt, t ≤ createdAt → (creations i).Asks
      (newRow (creations i).session (creations i).input payerName note id reference opened
        createdAt)) :
    wp (rules creations) i (fun sel _ d' => (creations i).Answers sel d') (fun _ _ _ => True)
      (storeCollection (creations i).state (creations i).session (creations i).input payerName note
        id reference opened) loc d := by
  simp only [storeCollection, Prog.bind_eq, Prog.pure_eq, Prog.bind]
  intro d₁ hr₁
  refine ⟨trivial, ?_⟩
  dsimp only
  have h₁ := h.rely hr₁
  have hrow := hasks d₁.clock h₁.time
  have hid : (newRow (creations i).session (creations i).input payerName note id reference opened
    d₁.clock).id = id := rfl
  generalize newRow (creations i).session (creations i).input payerName note id reference opened
    d₁.clock = row at hrow hid
  refine wp_bind_of (insertCollection_spec h₁ row) (fun _ _ _ _ => trivial) ?_
  rintro ok loc₂ d₂ (⟨rfl, ks, h₂⟩ | ⟨rfl, h₂⟩)
  · -- Another request has the key.
    intro d₃ hr₃
    refine ⟨trivial, ?_⟩
    have h₃ := (h₂.rely hr₃).ended
    refine wp_bind_of (closeReceive_spec h₃ _ _) (fun _ _ _ _ => trivial) fun _ loc₄ d₄ h₄ => ?_
    refine wp_bind_of (findByKey_spec h₄ _ _) (fun _ _ _ _ => trivial) ?_
    rintro found loc₅ d₅ ⟨-, hfound⟩
    cases found with
    | none => trivial
    | some s => exact hfound s rfl
  · simp only [findById, selectById, Prog.bind_eq, Prog.pure_eq, Prog.bind]
    intro d₃ hr₃
    refine ⟨trivial, ?_⟩
    have h₃ := h₂.rely hr₃
    dsimp only
    -- The transaction finds its own row: nobody else's has the id.
    have hfound : (applyAll loc₂.pending d₃).collections.find? (fun c => c.id = id) = some row := by
      have hnew := (h₃.holds.ids id (h₃.ids ▸ List.mem_singleton_self _)).1
      have hnone : d₃.collections.find? (fun c => c.id = id) = none := by
        refine List.find?_eq_none.2 fun c hc hcid => hnew (List.mem_map.2 ⟨c, hc, ?_⟩)
        simpa using hcid
      rw [h₃.pending]
      exact List.find?_append.trans (by simp [hnone, hid])
    rw [hfound]
    intro d₄ hr₄
    have h₄ := (h₃.wrote _).rely hr₄
    have hmem := List.mem_singleton_self id
    rw [← h₄.ids, ← hid] at hmem
    rw [h₄.pending]
    refine ⟨trivial, Does.store _ hrow (fun k hk => ⟨h₄.holds.locks k hk, h₄.holds.free k hk⟩)
      hmem (h₄.holds.ids row.id hmem), ?_⟩
    exact ⟨List.mem_append_right _ (List.mem_singleton_self _), hrow.customer, hrow.key⟩

/-- A call does nothing else, and answers with a row on file. -/
theorem createCollection_spec (h : Goes [] [] [] t loc d) :
    wp (rules creations) i (fun sel _ d' => (creations i).Answers sel d') (fun _ _ _ => True)
      (creations i).prog loc d := by
  simp only [Creation.prog, createCollection, Prog.bind_eq, Prog.pure_eq, Prog.bind]
  generalize hlen : byteLen (trim (creations i).input.idempotencyKey) = len
  split
  case isTrue => trivial
  case isFalse hstable =>
  refine wp_bind_of (findByKey_spec h _ _) (fun _ _ _ _ => trivial) ?_
  rintro found loc₁ d₁ ⟨h₁, hfound⟩
  split
  case h_1 existing =>
    -- The call is repeated: nothing is checked or opened.
    exact hfound existing rfl
  case h_2 =>
  split
  case isTrue => trivial
  case isFalse hpos =>
  split
  case h_1 => trivial
  case h_2 => trivial
  case h_3 payerName note hpayer hnote =>
  intro d₂ hr₂
  refine ⟨trivial, ?_⟩
  dsimp only
  split
  case h_1 => trivial
  case h_2 expiresAt hexpiry =>
  intro d₃ hr₃
  refine ⟨trivial, ?_⟩
  have h₂ := h₁.rely hr₂
  have h₃ : Goes [] [seq d₃] [] d₂.clock (loc₁.draw (seq d₃)) (bump d₃) :=
    { ((h₂.rely hr₃).draw) with time := (later_of_rely hr₃).clock }
  refine wp_bind_of (openPartner_spec h₃ ..) (fun _ _ _ _ => trivial) ?_
  rintro opened loc₄ d₄ ⟨h₄, hfits, hexpires⟩
  refine storeCollection_spec h₄ fun createdAt hcreated => ?_
  exact
    { customer := rfl
      key := rfl
      stable := hlen ▸ Nat.not_lt.1 hstable
      amount := ⟨rfl, rfl⟩
      positive := Int.not_le.1 hpos
      partner := hfits
      payerName := fits_of_optionalText hpayer
      note := fits_of_optionalText hnote
      fresh := ⟨rfl, rfl, rfl⟩
      expiry := (hexpires.trans (le_of_expiry hexpiry)).trans (Nat.add_le_add_right hcreated _) }

/-- An answered call has its row on file. -/
def Creation.Post (c : Creation) (r : Except ApiError Selected) (d : Desk) : Prop :=
  ∀ sel, r = .ok sel → c.Answers sel d

/-- A call that has not begun. -/
theorem goes_start (h : Distinct requests d) : Goes [] [] [] d.clock { label := default } d where
  distinct := h
  holds := ⟨fun _ hk => absurd hk List.not_mem_nil, fun _ hk => absurd hk List.not_mem_nil,
    fun _ hn => absurd hn List.not_mem_nil⟩
  ids := rfl
  pending := rfl
  time := le_rfl

/-- The row of an answer stays on file. -/
theorem runs_createCollection (i : ι) (h : Distinct requests d) :
    Runs (rules creations) i (fun r _ d' => (creations i).Post r d') (creations i).prog
      { label := default } d := by
  refine wp_mono (fun sel _ d₁ ha d₂ hr sel' he => ?_) (fun e _ _ _ d₂ _ sel he => ?_)
    (createCollection_spec (goes_start h))
  · cases he
    obtain ⟨hrow, hkey⟩ := ha
    have hlater : Later d₁ d₂ := by
      induction hr with
      | refl => exact .refl d₁
      | tail _ ho ih => exact ih.trans (later_of_others ho)
    exact ⟨hlater.collections _ hrow, hkey⟩
  · cases he

/-! ### Every run -/

section Runs

variable [DecidableEq ι] {d₀ : Desk} {s s' : Sys ι Desk Write Key Label ApiError Selected}

omit [DecidableEq ι] in
theorem seqMono_rules : (rules creations).SeqMono where
  guar _ _ _ _ _ h := h.takes.seq
  env _ _ h := (Env.takes h).seq

theorem sysOk_of_reach (h₀ : Distinct requests d₀)
    (hr : Reach (Step Env) (creating creations d₀) s) :
    SysOk (rules creations) (fun i r _ d => (creations i).Post r d) s :=
  (SysOk.start fun i => runs_createCollection i h₀).reach seqMono_rules
    (hr.mono fun _ _ _ hst => ⟨hst, fun _ _ => trivial⟩)

/-- The keys stay distinct, and only rows that were asked for are added. -/
theorem asked_of_reach (h₀ : Distinct requests d₀)
    (hr : Reach (Step Env) (creating creations d₀) s) : Distinct requests s.shared ∧
      ∀ row ∈ s.shared.collections, row ∈ d₀.collections ∨ ∃ i, (creations i).Asks row := by
  refine hr.invariant (I := fun s => Distinct requests s.shared ∧
    ∀ row ∈ s.shared.collections, row ∈ d₀.collections ∨ ∃ i, (creations i).Asks row)
    ⟨h₀, fun _ h => .inl h⟩ fun s e s' hs h hst => ?_
  obtain ⟨hd, hrows⟩ := h
  have hm := (sysOk_of_reach h₀ hs).moved hst
  generalize s'.shared = d' at hm
  cases hm with
  | go i d _ hch =>
    rcases hch with rfl | rfl | hdoes
    · exact ⟨hd, hrows⟩
    · exact ⟨hd.same rfl rfl (Nat.le_succ _), hrows⟩
    · refine ⟨Does.distinct hdoes hd, ?_⟩
      cases hdoes with
      | submit | cancel => exact hrows
      | store a hasks =>
        intro row hrow
        rcases List.mem_append.1 hrow with hrow | hrow
        · exact hrows row hrow
        · rw [List.mem_singleton.1 hrow]
          exact .inr ⟨i, hasks⟩
  | crash i => exact ⟨hd, hrows⟩
  | env d he =>
    obtain ⟨now, -⟩ := he
    exact ⟨hd.same rfl rfl le_rfl, hrows⟩

omit [DecidableEq ι] in
/-- Rows with a key in common are one row. -/
theorem eq_of_key (h : Distinct requests d) {row row' : CollectionRow}
    (hrow : row ∈ d.collections) (hrow' : row' ∈ d.collections) {k : Key} (hk : k ∈ rowKeys row)
    (hk' : k ∈ rowKeys row') : row = row' := by
  obtain ⟨-, hpair⟩ := List.nodup_flatMap.1 h.keys
  have : Std.Symm (Function.onFun List.Disjoint rowKeys) := ⟨fun _ _ => List.disjoint_symm⟩
  by_contra hne
  exact hpair.forall hrow hrow' hne hk hk'

/-- **One request for each key**: however creations interleave, fail and are repeated, no two
requests share a customer and key, a reference or a receive, each new one is what a call asks for,
and calls of a customer with one key that answer Ok answer with one request. -/
theorem opened_of_reach (creations : ι → Creation) (h₀ : Distinct requests d₀)
    (hr : Reach (Step Env) (creating creations d₀) s) :
    (∀ row ∈ s.shared.collections, ∀ row' ∈ s.shared.collections, ∀ k ∈ rowKeys row,
      k ∈ rowKeys row' → row = row') ∧
    (∀ row ∈ s.shared.collections, row ∈ d₀.collections ∨ ∃ i, (creations i).Asks row) ∧
    (∀ i sel made, s.calls i = .done (.ok sel) made → (creations i).Answers sel s.shared) ∧
    ∀ i j sel sel' made made', s.calls i = .done (.ok sel) made →
      s.calls j = .done (.ok sel') made' →
      (creations i).session.customerId = (creations j).session.customerId →
      (creations i).input.idempotencyKey = (creations j).input.idempotencyKey →
      sel.row = sel'.row := by
  obtain ⟨hd, hrows⟩ := asked_of_reach h₀ hr
  have hans : ∀ i sel made, s.calls i = .done (.ok sel) made →
      (creations i).Answers sel s.shared := fun i sel made hi =>
    (sysOk_of_reach h₀ hr).answer hi sel rfl
  refine ⟨fun row hrow row' hrow' k hk hk' => eq_of_key hd hrow hrow' hk hk', hrows, hans,
    fun i j sel sel' made made' hi hj hcustomer hkey => ?_⟩
  obtain ⟨hrow, hc, hk⟩ := hans i sel made hi
  obtain ⟨hrow', hc', hk'⟩ := hans j sel' made' hj
  have hmem : Key.requestKey sel.row.customerId sel.row.idempotencyKey ∈ rowKeys sel.row := by
    simp [rowKeys]
  refine eq_of_key hd hrow hrow' hmem ?_
  rw [hc, hk, hcustomer, hkey, ← hc', ← hk']
  simp [rowKeys]

end Runs

/-- The row of an answered call. -/
def answerRow : Call Desk Write Key Label ApiError Selected → Option CollectionRow
  | .done (.ok sel) _ => some sel.row
  | _ => none

theorem answered_of_answerRow {c : Call Desk Write Key Label ApiError Selected}
    (h : (answerRow c).isSome) : ∃ sel made, c = .done (.ok sel) made := by
  unfold answerRow at h
  split at h
  case h_1 sel made => exact ⟨sel, made, rfl⟩
  case h_2 => cases h

/-- Two calls at once with one key: both answer with the one request there is. -/
theorem opened_of_race : ∃ s, Reach (Step Env) (creating sampleCreations sampleDesk) s ∧
    s.shared.collections.length = 1 ∧ ∃ sel sel' made made', s.calls 0 = .done (.ok sel) made ∧
      s.calls 1 = .done (.ok sel') made' ∧ sel.row = sel'.row := by
  obtain ⟨s, hr, h⟩ := exists_reach_of_play Env [0, 1]
    (schedule [(0, 5), (1, 5), (0, 11), (1, 7)]) (creating sampleCreations sampleDesk)
    (fun s => (answerRow (s.calls 0)).isSome && (answerRow (s.calls 1)).isSome &&
      decide (s.shared.collections.length = 1))
    (by decide) (env_schedule _) (by decide +kernel)
  simp only [Bool.and_eq_true, decide_eq_true_eq] at h
  obtain ⟨⟨h₀, h₁⟩, hone⟩ := h
  obtain ⟨sel, made, hsel⟩ := answered_of_answerRow h₀
  obtain ⟨sel', made', hsel'⟩ := answered_of_answerRow h₁
  have hstart : Distinct requests sampleDesk :=
    ⟨List.nodup_nil, List.nodup_nil, by simp [requests, sampleDesk]⟩
  obtain ⟨-, -, -, hsame⟩ := opened_of_reach sampleCreations hstart hr
  exact ⟨s, hr, hone, sel, sel', made, made', hsel, hsel', hsame 0 1 _ _ _ _ hsel hsel' rfl rfl⟩

end Kimana.Opening
