import Kimana.Onboarding.Service
import Kimana.ReadCommitted.Under

/-!
# Documents and their bytes

An upload stores its bytes first, under a key made of the millisecond and the name of the file, and
then writes its row; a removal deletes the row first, and then the bytes that it found there.

* `Stores` : the upload of a call may store its bytes under a key.
* `Filed` : every document names a file with the bytes of the upload that wrote its row.
* `filed_of_reach` : **document rows match stored bytes** in every reachable state, as long as no
  two uploads have one place.
* `unfiled_of_reused` : two uploads of the same millisecond and name share a file.
-/

namespace Kimana.Onboarding

open ReadCommitted Table FileSystem Storage

/-! ### Places -/

theorem isName_toString (n : ℕ) : IsName (toString n).toList := by
  rw [Nat.toString_eq_ofList_toDigits, String.toList_ofList]
  have hdigit : ∀ c ∈ Nat.toDigits 10 n, c.isDigit = true := fun c hc =>
    Nat.isDigit_of_mem_toDigits (by decide) (by decide) hc
  refine ⟨Nat.toDigits_ne_nil, fun h => ?_, fun h => ?_⟩
  · exact absurd (hdigit _ h) (by decide)
  · exact absurd (hdigit _ h) (by decide)

/-- The upload of a call, if it is one, may store its bytes under the key, for the application and
the kind of document. -/
structure Stores (op : Op) (appId : Uuid) (type : DocumentType) (key : String)
    (bytes : List UInt8) : Prop where
  call : ∃ session upload applicationId millis os,
    op = .uploadDocument session upload applicationId millis os ∧ type = upload.docType ∧
      key = storageKey (toString appId) upload.docType millis upload.fileName ∧ bytes = upload.bytes
  dots : Util.contains ".." key = false

section Stores

variable {op : Op} {root : String} {appId appId' : Uuid} {type type' : DocumentType}
  {key key' : String} {bytes bytes' : List UInt8}

theorem Stores.relative (h : Stores op appId type key bytes) : Relative key.toList := by
  obtain ⟨-, upload, -, millis, -, -, -, rfl, -⟩ := h.call
  exact relative_storageKey _ _ _ (isName_toString appId)

theorem Stores.folder (h : Stores op appId type key bytes) :
    applicationFolder root (toString appId) <+: place root key := by
  obtain ⟨⟨-, upload, -, millis, -, -, -, rfl, -⟩, hdots⟩ := h
  obtain ⟨rest, -, -, hp⟩ := below_storageKey _ _ _ root (isName_toString appId) hdots
  rw [hp, Onboarding.folder, List.append_assoc]
  exact List.prefix_append ..

/-- An upload has one place in each application. -/
theorem Stores.eq_of_place (h : Stores op appId type key bytes)
    (h' : Stores op appId' type' key' bytes')
    (hp : place root key = place root key') :
    appId = appId' ∧ type = type' ∧ key = key' ∧ bytes = bytes' := by
  have htext : toString appId = toString appId' := by
    by_contra hne
    exact ne_of_applicationFolder hne h.folder h'.folder hp.symm
  have happ : appId = appId' := by
    have hdigits := congrArg String.toList htext
    rw [Nat.toString_eq_ofList_toDigits, Nat.toString_eq_ofList_toDigits, String.toList_ofList,
      String.toList_ofList] at hdigits
    have := congrArg (Nat.ofDigitChars 10 · 0) hdigits
    simpa only [Nat.ofDigitChars_toDigits (show 1 < 10 by decide) (show 10 ≤ 10 by decide)]
      using this
  obtain ⟨session, upload, applicationId, millis, os, hop, rfl, rfl, rfl⟩ := h.call
  obtain ⟨session', upload', applicationId', millis', os', hop', rfl, rfl, rfl⟩ := h'.call
  rw [hop, Op.uploadDocument.injEq] at hop'
  obtain ⟨-, rfl, -, rfl, -⟩ := hop'
  exact ⟨happ, rfl, by rw [htext], rfl⟩

/-- Uploads in one place are of one kind of document. -/
theorem Stores.type_of_place {op' : Op} (h : Stores op appId type key bytes)
    (h' : Stores op' appId' type' key' bytes') (hp : place root key = place root key') :
    type = type' := by
  have hbelow : ∀ {op appId type key bytes}, Stores op appId type key bytes →
      ∃ rest, place root key = Onboarding.folder root (toString appId) type ++ rest := by
    rintro op appId type key bytes ⟨⟨-, upload, -, millis, -, -, rfl, rfl, -⟩, hdots⟩
    obtain ⟨rest, -, -, hp⟩ := below_storageKey _ _ _ root (isName_toString appId) hdots
    exact ⟨rest, hp⟩
  obtain ⟨rest, hrest⟩ := hbelow h
  obtain ⟨rest', hrest'⟩ := hbelow h'
  have hfolder := List.append_inj_left (hrest.symm.trans (hp.trans hrest'))
    (by simp [Onboarding.folder, applicationFolder])
  have hlast := List.append_inj_right' hfolder rfl
  have hname : type.asStr = type'.asStr := by simpa [String.toList_inj] using hlast
  revert hname
  cases type <;> cases type' <;> first | exact fun _ => rfl | exact fun h => absurd h (by decide)

end Stores

variable {ι : Type} {ops : ι → Op} {root : String}

/-- No two uploads have one place below the root. -/
def OwnPlaces (ops : ι → Op) (root : String) : Prop :=
  ∀ i j appId type key bytes appId' type' key' bytes', Stores (ops i) appId type key bytes →
    Stores (ops j) appId' type' key' bytes' → place root key = place root key' → i = j

/-! ### What is kept of the documents -/

/-- A document with the key was stored: a row of the audit log shows it. -/
def Archived (d : Records) (key : String) : Prop :=
  ∃ r ∈ d.audit, ∃ doc, r.after = some (.document doc) ∧ doc.storageKey = some key

/-- Every document names a file with the bytes of the upload that wrote its row. -/
structure Filed (ops : ι → Op) (root : String) (d : Records) : Prop where
  dir : d.storageDir = root
  pairs : (d.documents.map fun r => (r.applicationId, r.type)).Nodup
  rows : ∀ row ∈ d.documents, ∃ i key bytes, Stores (ops i) row.applicationId row.type key bytes ∧
    row.storageKey = some key ∧ d.files.file (place root key) = some bytes ∧
    row.sizeBytes = bytes.length ∧ Archived d key
  audit : ∀ key, Archived d key → ∃ i appId type bytes, Stores (ops i) appId type key bytes

/-- What the calls of `C` may do: put bytes in their own places and rows of their own keys, and
delete what was stored. -/
structure Handled (ops : ι → Op) (root : String) (C : ι → Prop) (d d' : Records) : Prop where
  filed : Filed ops root d → Filed ops root d'
  archived : ∀ key, Archived d key → Archived d' key
  fresh : ∀ key, Archived d' key → Archived d key ∨
    ∃ j appId type bytes, C j ∧ Stores (ops j) appId type key bytes
  rows : ∀ row ∈ d'.documents, ∀ key, row.storageKey = some key → Archived d key →
    ∃ old ∈ d.documents, old.id = row.id ∧ old.storageKey = some key
  files : ∀ p, d'.files.file p = d.files.file p ∨
    (∃ j appId type key bytes, C j ∧ Stores (ops j) appId type key bytes ∧ p = place root key) ∨
    ∃ key, Archived d key ∧ p = place root key

section Handled

variable {C C' : ι → Prop} {d d' d'' : Records}

theorem Handled.of_eq (hdocs : d'.documents = d.documents) (haudit : d'.audit = d.audit)
    (hfiles : d'.files = d.files) (hdir : d'.storageDir = d.storageDir) :
    Handled ops root C d d' := by
  have hiff : ∀ key, Archived d' key ↔ Archived d key :=
    fun key => by rw [Archived, haudit, Archived]
  refine ⟨fun h => ⟨hdir.trans h.dir, hdocs ▸ h.pairs, fun row hrow => ?_, fun key hk => ?_⟩,
    fun key => (hiff key).2, fun key h => .inl ((hiff key).1 h), fun row hrow key hk _ => ?_,
    fun p => .inl (by rw [hfiles])⟩
  · obtain ⟨i, key, bytes, hs, hkey, hfile, hsize, ha⟩ := h.rows row (hdocs ▸ hrow)
    exact ⟨i, key, bytes, hs, hkey, hfiles ▸ hfile, hsize, (hiff key).2 ha⟩
  · exact h.audit key ((hiff key).1 hk)
  · exact ⟨row, hdocs ▸ hrow, rfl, hk⟩

theorem Handled.refl (d : Records) : Handled ops root C d d := .of_eq rfl rfl rfl rfl

theorem Handled.mono (h : Handled ops root C d d') (hC : ∀ j, C j → C' j) :
    Handled ops root C' d d' where
  filed := h.filed
  archived := h.archived
  fresh key hk := (h.fresh key hk).imp_right fun ⟨j, a, t, b, hj, hs⟩ => ⟨j, a, t, b, hC j hj, hs⟩
  rows := h.rows
  files p := (h.files p).imp_right <| Or.imp_left
    fun ⟨j, a, t, k, b, hj, hs⟩ => ⟨j, a, t, k, b, hC j hj, hs⟩

theorem Handled.trans (h : Handled ops root C d d') (h' : Handled ops root C d' d'') :
    Handled ops root C d d'' where
  filed hf := h'.filed (h.filed hf)
  archived key hk := h'.archived key (h.archived key hk)
  fresh key hk := by
    rcases h'.fresh key hk with hk | hk
    · exact h.fresh key hk
    · exact .inr hk
  rows row hrow key hk ha := by
    obtain ⟨mid, hmid, hid, hmk⟩ := h'.rows row hrow key hk (h.archived key ha)
    obtain ⟨old, hold, hid', hok⟩ := h.rows mid hmid key hmk ha
    exact ⟨old, hold, hid'.trans hid, hok⟩
  files p := by
    rcases h'.files p with he | hs | ⟨key, ha, hp⟩
    · rcases h.files p with he' | hr
      · exact .inl (he.trans he')
      · exact .inr hr
    · exact .inr (.inl hs)
    · rcases h.fresh key ha with ha | ⟨j, a, t, b, hj, hs⟩
      · exact .inr (.inr ⟨key, ha, hp⟩)
      · exact .inr (.inl ⟨j, a, t, key, b, hj, hs, hp⟩)

end Handled

/-! ### Facts that the others keep -/

section Facts

variable {i : ι} {d d' : Records} {key : String} {bytes : List UInt8}

/-- What call `i` relies on. -/
abbrev Relied (ops : ι → Op) (root : String) (i : ι) : Records → Records → Prop :=
  Handled ops root (· ≠ i)

/-- What call `i` promises. -/
abbrev Promises (ops : ι → Op) (root : String) (i : ι) : Records → Records → Prop :=
  Handled ops root (· = i)

/-- Nothing that call `i` stores was stored yet. -/
structure Unstored (ops : ι → Op) (root : String) (i : ι) (d : Records) : Prop where
  filed : Filed ops root d
  new : ∀ appId type key bytes, Stores (ops i) appId type key bytes → ¬Archived d key

theorem Unstored.kept (hown : OwnPlaces ops root) (h : Unstored ops root i d)
    (hr : Relied ops root i d d') : Unstored ops root i d' := by
  refine ⟨hr.filed h.filed, fun appId type key bytes hs hk => ?_⟩
  rcases hr.fresh key hk with hk | ⟨j, appId', type', bytes', hj, hs'⟩
  · exact h.new _ _ _ _ hs hk
  · exact hj (hown _ _ _ _ _ _ _ _ _ _ hs' hs rfl)

/-- The place of a key not stored yet is not that of a key that was. -/
theorem Unstored.place_ne (hown : OwnPlaces ops root) (h : Unstored ops root i d) {appId : Uuid}
    {type : DocumentType} (hs : Stores (ops i) appId type key bytes) {key' : String}
    (hk : Archived d key') : place root key' ≠ place root key := by
  intro hp
  obtain ⟨j, appId', type', bytes', hs'⟩ := h.filed.audit key' hk
  obtain rfl := hown _ _ _ _ _ _ _ _ _ _ hs' hs hp
  obtain ⟨-, -, rfl, -⟩ := hs'.eq_of_place hs hp
  exact h.new _ _ _ _ hs hk

/-- The bytes that call `i` has put in place stay there. -/
theorem file_of_relied (hown : OwnPlaces ops root) (h : Unstored ops root i d) {appId : Uuid}
    {type : DocumentType} (hs : Stores (ops i) appId type key bytes)
    (hfile : d.files.file (place root key) = some bytes) (hr : Relied ops root i d d') :
    d'.files.file (place root key) = some bytes := by
  rcases hr.files (place root key) with he | ⟨j, _, _, key', _, hj, hs', hp⟩ | ⟨key', hk, hp⟩
  · exact he.trans hfile
  · exact absurd (hown _ _ _ _ _ _ _ _ _ _ hs' hs hp.symm) hj
  · exact absurd hp.symm (h.place_ne hown hs hk)

/-- The rows with a key have an id, and the key was stored. -/
def HasId (id : Uuid) (key : String) (d : Records) : Prop :=
  Archived d key ∧ ∀ row ∈ d.documents, row.storageKey = some key → row.id = id

theorem HasId.kept {C : ι → Prop} {id : Uuid} (h : HasId id key d) (hr : Handled ops root C d d') :
    HasId id key d' := by
  refine ⟨hr.archived key h.1, fun row hrow hk => ?_⟩
  obtain ⟨old, hold, hid, hok⟩ := hr.rows row hrow key hk h.1
  exact hid ▸ h.2 old hold hok

/-- No row has the key, which was stored once. -/
def Gone (key : String) (d : Records) : Prop :=
  Archived d key ∧ ∀ row ∈ d.documents, row.storageKey ≠ some key

theorem Gone.kept {C : ι → Prop} (h : Gone key d) (hr : Handled ops root C d d') : Gone key d' := by
  refine ⟨hr.archived key h.1, fun row hrow hk => ?_⟩
  obtain ⟨old, hold, -, hok⟩ := hr.rows row hrow key hk h.1
  exact h.2 old hold hok

/-- Rows with one key are one. -/
theorem Filed.hasId (hown : OwnPlaces ops root) (h : Filed ops root d) {row : DocumentRow}
    (hrow : row ∈ d.documents) (hk : row.storageKey = some key) : HasId row.id key d := by
  obtain ⟨i, k, bytes, hs, hkey, -, -, ha⟩ := h.rows row hrow
  cases hk.symm.trans hkey
  refine ⟨ha, fun row' hrow' hk' => ?_⟩
  obtain ⟨j, k', bytes', hs', hkey', -⟩ := h.rows row' hrow'
  cases hk'.symm.trans hkey'
  obtain rfl := hown _ _ _ _ _ _ _ _ _ _ hs' hs rfl
  obtain ⟨happ, htype, -⟩ := hs'.eq_of_place hs (rfl : place root key = place root key)
  rw [List.inj_on_of_nodup_map h.pairs hrow' hrow (Prod.ext happ htype)]

end Facts

/-! ### Changes -/

section Changes

variable {i : ι} {d : Records} {key : String} {bytes : List UInt8} {appId : Uuid}
  {type : DocumentType}

/-- Bytes are put in a place of their own. -/
theorem handled_put (hown : OwnPlaces ops root) (h : Unstored ops root i d)
    (hs : Stores (ops i) appId type key bytes) (os : Os) :
    Promises ops root i d { d with files := (put os d.storageDir key bytes d.files).2 } := by
  obtain ⟨hput, -⟩ := put_spec os root bytes d.files hs.relative
  rw [← h.filed.dir] at hput
  refine ⟨fun hf => ⟨hf.dir, hf.pairs, fun row hrow => ?_, hf.audit⟩, fun _ hk => hk,
    fun _ hk => .inl hk, fun row hrow key hk _ => ⟨row, hrow, rfl, hk⟩, fun p => ?_⟩
  · obtain ⟨j, k, b, hs', hk, hfile, hsize, ha⟩ := hf.rows row hrow
    refine ⟨j, k, b, hs', hk, ?_, hsize, ha⟩
    have hne := h.place_ne hown hs ha
    rw [← h.filed.dir] at hne hfile ⊢
    exact (hput.file_of_ne hne).trans hfile
  · by_cases hp : p = place root key
    · exact .inr (.inl ⟨i, _, _, key, _, rfl, hs, hp⟩)
    · rw [← h.filed.dir] at hp
      exact .inl (hput.file_of_ne hp)

/-- Bytes are deleted that no row names. -/
theorem handled_delete (hown : OwnPlaces ops root) (hf : Filed ops root d) (h : Gone key d)
    (os : Os) :
    Promises ops root i d { d with files := (delete os d.storageDir key d.files).2 } := by
  obtain ⟨j, appId, type, bytes, hs⟩ := hf.audit key h.1
  have hfile : ∀ q, q ≠ place root key →
      (delete os d.storageDir key d.files).2.file q = d.files.file q := fun q hq => by
    rw [Tree.file, delete_of_ne os d.storageDir d.files hs.relative (hf.dir ▸ hq), Tree.file]
  refine ⟨fun _ => ⟨hf.dir, hf.pairs, fun row hrow => ?_, hf.audit⟩, fun _ hk => hk,
    fun _ hk => .inl hk, fun row hrow key hk _ => ⟨row, hrow, rfl, hk⟩, fun p => ?_⟩
  · obtain ⟨j', k, b, hs', hk, hfile', hsize, ha⟩ := hf.rows row hrow
    refine ⟨j', k, b, hs', hk, ?_, hsize, ha⟩
    rw [← hfile']
    refine hfile _ fun hp => h.2 row hrow ?_
    obtain rfl := hown _ _ _ _ _ _ _ _ _ _ hs' hs hp
    obtain ⟨-, -, rfl, -⟩ := hs'.eq_of_place hs hp
    exact hk
  · by_cases hp : p = place root key
    · exact .inr (.inr ⟨key, h.1, hp⟩)
    · exact .inl (hfile p hp)

theorem archived_insert {d' : Records} {r : AuditRow} (haudit : d'.audit = d.audit ++ [r])
    {k : String} :
    Archived d' k ↔ Archived d k ∨ ∃ doc, r.after = some (.document doc) ∧
      doc.storageKey = some k := by
  simp only [Archived, haudit, List.mem_append, List.mem_singleton, or_and_right, exists_or,
    exists_eq_left]

/-- A change of the rows that leaves their keys and adds an audit row that shows no new one. -/
theorem handled_rows {d' : Records} {r : AuditRow} (hdir : d'.storageDir = d.storageDir)
    (hfiles : d'.files = d.files) (haudit : d'.audit = d.audit ++ [r])
    (hpairs : ((d'.documents.map fun r => (r.applicationId, r.type)).Sublist
      (d.documents.map fun r => (r.applicationId, r.type))))
    (hrows : ∀ row ∈ d'.documents, ∃ old ∈ d.documents, old.id = row.id ∧
      old.applicationId = row.applicationId ∧ old.type = row.type ∧
      old.storageKey = row.storageKey ∧ old.sizeBytes = row.sizeBytes)
    (hold : ∀ doc k, r.after = some (.document doc) → doc.storageKey = some k → Archived d k) :
    Promises ops root i d d' := by
  have haud : ∀ k, Archived d' k ↔ Archived d k := fun k => by
    rw [archived_insert haudit, or_iff_left_iff_imp]
    rintro ⟨doc, hafter, hk⟩
    exact hold doc k hafter hk
  refine ⟨fun hf => ⟨hdir.trans hf.dir, hf.pairs.sublist hpairs, fun row hrow => ?_,
    fun k hk => ?_⟩,
    fun k => (haud k).2, fun k hk => .inl ((haud k).1 hk), fun row hrow k hk _ => ?_,
    fun p => .inl (by rw [hfiles])⟩
  · obtain ⟨old, hold, -, happ, htype, hkey, hsize⟩ := hrows row hrow
    obtain ⟨j, k, b, hs, hk, hfile, hb, ha⟩ := hf.rows old hold
    exact ⟨j, k, b, happ ▸ htype ▸ hs, hkey ▸ hk, hfiles ▸ hfile, hsize ▸ hb, (haud k).2 ha⟩
  · exact hf.audit k ((haud k).1 hk)
  · obtain ⟨old, hold, hid, -, -, hkey, -⟩ := hrows row hrow
    exact ⟨old, hold, hid, hkey.trans hk⟩

/-- A document row after an upload: an old one of another kind, or the one that was written. -/
theorem mem_upsertDocument {new row : DocumentRow}
    (h : row ∈ ((Write.upsertDocument new).apply d).documents) :
    row ∈ d.documents ∨ row.applicationId = new.applicationId ∧ row.type = new.type ∧
      row.storageKey = new.storageKey ∧ row.sizeBytes = new.sizeBytes := by
  simp only [Write.apply] at h
  split at h
  · obtain ⟨old, hold, rfl⟩ := of_mem_updateWhere h
    split
    · exact .inr ⟨rfl, rfl, rfl, rfl⟩
    · exact .inl hold
  · rcases List.mem_append.1 h with h | h
    · exact .inl h
    · rw [List.mem_singleton.1 h]
      exact .inr ⟨rfl, rfl, rfl, rfl⟩

theorem pairs_upsertDocument {new : DocumentRow}
    (h : (d.documents.map fun r => (r.applicationId, r.type)).Nodup) :
    (((Write.upsertDocument new).apply d).documents.map
      fun r => (r.applicationId, r.type)).Nodup := by
  simp only [Write.apply]
  split
  · have hsame : (updateWhere (fun r : DocumentRow => r.applicationId = new.applicationId &&
        r.type = new.type) (·.replacedBy new) d.documents).map
          (fun r => (r.applicationId, r.type)) =
        d.documents.map fun r => (r.applicationId, r.type) := by
      simp only [updateWhere, List.map_map]
      refine List.map_congr_left fun r _ => ?_
      simp only [Function.comp_apply]
      split
      case isTrue hm =>
        simp only [Bool.and_eq_true, decide_eq_true_eq] at hm
        simp [DocumentRow.replacedBy, hm]
      case isFalse => rfl
    exact hsame ▸ h
  · next hno =>
    rw [List.map_append, List.map_singleton]
    refine List.nodup_append.2 ⟨h, List.nodup_singleton _, fun p hp q hq he => hno ?_⟩
    obtain ⟨r, hr, rfl⟩ := List.mem_map.1 hp
    rw [List.mem_singleton.1 hq, Prod.mk.injEq] at he
    exact List.any_eq_true.2 ⟨r, hr, by simp [he]⟩

/-- The row of an upload is written once its bytes are in place. -/
theorem handled_upsert (h : Unstored ops root i d) (hs : Stores (ops i) appId type key bytes)
    (hfile : d.files.file (place root key) = some bytes) {new : DocumentRow}
    (happ : new.applicationId = appId) (htype : new.type = type) (hkey : new.storageKey = some key)
    (hsize : new.sizeBytes = bytes.length) {r : AuditRow} {doc : DocumentRow}
    (hafter : r.after = some (.document doc)) (hdoc : doc.storageKey = some key) :
    Promises ops root i d (applyAll [.upsertDocument new, .insertAudit r] d) := by
  -- The audit row of the upload records its key, and no other.
  have haud : ∀ k, Archived (applyAll [.upsertDocument new, .insertAudit r] d) k ↔
      Archived d k ∨ k = key := fun k => by
    rw [archived_insert (d := d) (r := r) rfl]
    refine or_congr_right ⟨?_, ?_⟩
    · rintro ⟨doc', hdoc', hk⟩
      rw [hafter] at hdoc'
      cases hdoc'
      exact Option.some.inj (hk.symm.trans hdoc)
    · rintro rfl
      exact ⟨doc, hafter, hdoc⟩
  refine ⟨fun hf => ⟨hf.dir, pairs_upsertDocument hf.pairs, fun row hrow => ?_, fun k hk => ?_⟩,
    fun k hk => (haud k).2 (.inl hk), fun k hk => ?_, fun row hrow k hk ha => ?_,
    fun p => .inl rfl⟩
  · rcases mem_upsertDocument hrow with hold | ⟨happ', htype', hkey', hsize'⟩
    · obtain ⟨j, k, b, hs', hk, hfile', hb, ha⟩ := hf.rows row hold
      exact ⟨j, k, b, hs', hk, hfile', hb, (haud k).2 (.inl ha)⟩
    · refine ⟨i, key, bytes, ?_, hkey'.trans hkey, hfile, hsize'.trans hsize,
        (haud key).2 (.inr rfl)⟩
      rw [happ', htype', happ, htype]
      exact hs
  · rcases (haud k).1 hk with hk | rfl
    · exact hf.audit k hk
    · exact ⟨i, appId, type, bytes, hs⟩
  · rcases (haud k).1 hk with hk | rfl
    · exact .inl hk
    · exact .inr ⟨i, appId, type, bytes, rfl, hs⟩
  · rcases mem_upsertDocument hrow with hold | ⟨-, -, hkey', -⟩
    · exact ⟨row, hold, rfl, hk⟩
    · -- Keys are never used twice, so the new one was not recorded before.
      obtain rfl : key = k := Option.some.inj ((hkey.symm.trans hkey'.symm).trans hk)
      exact absurd ha (h.new _ _ _ _ hs)

end Changes

/-! ### Calls -/

section Calls

variable {i : ι} {d : Records} {ws : List Write} {A : Type}

/-- What call `i` does, with what it relies on. -/
abbrev Does (ops : ι → Op) (root : String) (i : ι) (Φ : A → List Write → Records → Prop) (p : Tx A)
    (ws : List Write) (d : Records) : Prop :=
  p.Under (Relied ops root i) (Promises ops root i) Φ ws d

/-- A fact that the others keep. -/
def Lasting (ops : ι → Op) (root : String) (i : ι) (S : Records → Prop) : Prop :=
  ∀ d d', S d → Relied ops root i d d' → S d'

theorem does_assemble {S : Records → Prop} (hS : Lasting ops root i S) (hd : S d)
    (row : ApplicationRow) :
    Does ops root i (fun _ ws' d' => ws' = ws ∧ S d') (Repo.assemble row) ws d :=
  fun _ h₁ _ h₂ => ⟨rfl, hS _ _ (hS _ _ hd h₁) h₂⟩

theorem does_loadOwned {S : Records → Prop} (hS : Lasting ops root i S) (hd : S d)
    (session : Session) (applicationId : Option Uuid) :
    Does ops root i (fun _ ws' d' => ws' = ws ∧ S d') (loadOwned session applicationId) ws d := by
  have hfind : Does ops root i (fun _ ws' d' => ws' = ws ∧ S d')
      (Repo.findByCustomer session.customerId) ws d := by
    intro d₁ h₁
    have hd₁ := hS _ _ hd h₁
    simp only [Prog.bind]
    split
    · exact under_bind_of (does_assemble hS hd₁ _) fun _ _ _ h => h
    · exact ⟨rfl, hd₁⟩
  refine under_bind_of hfind fun r ws₁ d₁ h₁ => ?_
  split
  · trivial
  · split
    · split
      · trivial
      · exact h₁
    · exact h₁

theorem lasting_unstored (hown : OwnPlaces ops root) : Lasting ops root i (Unstored ops root i) :=
  fun _ _ h hr => h.kept hown hr

theorem lasting_filed : Lasting ops root i (Filed ops root) := fun _ _ h hr => hr.filed h

/-- Bytes are stored whole, or the call fails. -/
theorem does_storagePut (hown : OwnPlaces ops root) (h : Unstored ops root i d) {appId : Uuid}
    {type : DocumentType} {key : String} {bytes : List UInt8} (hrel : Relative key.toList)
    (hs : Util.contains ".." key = false → Stores (ops i) appId type key bytes) (os : Os) :
    Does ops root i (fun _ ws' d' => ws' = ws ∧ Stores (ops i) appId type key bytes ∧
      Unstored ops root i d' ∧ d'.files.file (place root key) = some bytes)
      (storagePut os key bytes) ws d := by
  intro d' hr
  have h' := h.kept hown hr
  cases hdots : Util.contains ".." key with
  | true =>
    -- The key is refused, and no file changes.
    simp only [put_of_dots os _ bytes d'.files hrel hdots]
    exact ⟨.refl _, trivial⟩
  | false =>
    have hs := hs hdots
    have hput := handled_put hown h' hs os
    refine ⟨hput, ?_⟩
    simp only
    split
    case h_2 => trivial
    case h_1 hok =>
      refine ⟨rfl, hs, ⟨hput.filed h'.filed, h'.new⟩, ?_⟩
      rw [h'.filed.dir] at hok ⊢
      rcases (put_spec os root bytes d'.files hs.relative).1.oneFile with
        ⟨⟨e, he⟩, -⟩ | ⟨stored, -, hone, heq⟩
      · rw [hok] at he
        cases he
      · exact heq hok ▸ hone.file

/-- An upload. -/
theorem does_uploadDocument (hown : OwnPlaces ops root) {session : Session}
    {upload : DocumentUpload} {applicationId : Option Uuid} {millis : ℕ} {os : Os}
    (hop : ops i = .uploadDocument session upload applicationId millis os)
    (h : Unstored ops root i d) :
    Does ops root i (fun _ _ _ => True)
      (uploadDocument session upload applicationId millis os) [] d := by
  refine under_bind_of (does_loadOwned (lasting_unstored hown) h _ _) fun app ws₁ d₁ h₁ => ?_
  obtain ⟨rfl, h₁⟩ := h₁
  split
  · trivial
  split
  · trivial
  refine under_bind_of (does_storagePut hown h₁ (relative_storageKey _ _ _ (isName_toString _))
    (fun hdots => ⟨⟨session, upload, applicationId, millis, os, hop, rfl, rfl, rfl⟩, hdots⟩) os)
    fun _ ws₂ d₂ h₂ => ?_
  obtain ⟨rfl, hs, h₂, hfile⟩ := h₂
  generalize storageKey (toString app.row.id) upload.docType millis upload.fileName = key at *
  simp only [Tx.begin, Tx.query, Tx.fresh, Tx.lock, Tx.read, Tx.write, Tx.commit, Prog.bind_eq,
    Prog.pure_eq, Prog.bind]
  -- The others leave the bytes where they are.
  have hkept : ∀ d d', Unstored ops root i d ∧ d.files.file (place root key) = some upload.bytes →
      Relied ops root i d d' →
      Unstored ops root i d' ∧ d'.files.file (place root key) = some upload.bytes :=
    fun _ _ h hr => ⟨h.1.kept hown hr, file_of_relied hown h.1 hs h.2 hr⟩
  intro d₃ hr₃ d₄ n hr₄ snap d₅ hr₅ d₆ hr₆ d₇ hr₇
  have h₄ := hkept _ _ (hkept _ _ ⟨h₂, hfile⟩ hr₃) hr₄
  have hbump : Unstored ops root i (bump d₄) := h₄.1.kept hown (.of_eq rfl rfl rfl rfl)
  have h₅ := hkept _ _ ⟨hbump, h₄.2⟩ hr₅
  have h₇ := hkept _ _ (hkept _ _ h₅ hr₆) hr₇
  refine ⟨handled_upsert h₇.1 hs h₇.2 rfl rfl rfl rfl rfl ?_, trivial⟩
  split <;> rfl

/-- A document found by its id. -/
theorem does_ownedDocument {S : Records → Prop} (hS : Lasting ops root i S) (hd : S d)
    (app : Application) (documentId : Uuid) :
    Does ops root i (fun found ws' d' => ws' = ws ∧ S d' ∧ found ∈ d'.documents ∧
      found.id = documentId) (ownedDocument app documentId) ws d := by
  intro d₁ h₁
  simp only [Prog.bind]
  split
  case h_2 => trivial
  case h_1 found hfound =>
    obtain ⟨hfind, -⟩ := Option.filter_eq_some_iff.1 hfound
    exact ⟨rfl, hS _ _ hd h₁, List.mem_of_find?_eq_some hfind, by simpa using List.find?_some hfind⟩

/-- A retry. -/
theorem does_retryDocumentUpload {session : Session} {documentId : Uuid} (h : Filed ops root d) :
    Does ops root i (fun _ _ _ => True) (retryDocumentUpload session documentId) [] d := by
  refine under_bind_of (does_loadOwned lasting_filed h _ _) fun app ws₁ d₁ h₁ => ?_
  obtain ⟨rfl, h₁⟩ := h₁
  refine under_bind_of (does_ownedDocument lasting_filed h₁ _ _) fun found ws₂ d₂ h₂ => ?_
  obtain ⟨rfl, h₂, -, -⟩ := h₂
  simp only [Tx.begin, Tx.query, Tx.lock, Tx.read, Tx.write, Tx.commit, Prog.bind_eq, Prog.pure_eq,
    Prog.bind]
  intro d₃ hr₃ snap d₄ hr₄ d₅ hr₅
  have h₅ : Filed ops root d₅ := hr₅.filed (hr₄.filed (hr₃.filed h₂))
  simp only
  split
  · trivial
  · next updated hupdated =>
    -- What the audit row shows was stored before.
    have harchived : ∀ k, updated.storageKey = some k → Archived d₅ k := by
      intro k hk
      obtain ⟨old, hold, rfl⟩ := of_mem_updateWhere (List.mem_of_find?_eq_some hupdated)
      obtain ⟨-, k', -, -, hk', -, -, ha⟩ := h₅.rows old hold
      have : old.storageKey = some k := by
        split at hk <;> exact hk
      cases this.symm.trans hk'
      exact ha
    intro d₆ hr₆
    have hpairs : (updateWhere (fun r : DocumentRow => r.id = documentId) (fun r =>
        { r with
          status := .uploaded
          uploadProgressPercent := 100
          errorMessage := none
          uploadedAt := some d₃.clock }) d₆.documents).map (fun r => (r.applicationId, r.type)) =
        d₆.documents.map fun r => (r.applicationId, r.type) := map_updateWhere fun _ => rfl
    refine ⟨handled_rows rfl rfl rfl (hpairs ▸ List.Sublist.refl _) (fun row hrow => ?_)
      fun doc k hafter hk => ?_, trivial⟩
    · obtain ⟨old, hold, rfl⟩ := of_mem_updateWhere hrow
      refine ⟨old, hold, ?_⟩
      split <;> exact ⟨rfl, rfl, rfl, rfl, rfl⟩
    · cases hafter
      exact hr₆.archived k (harchived k hk)

/-- A removal. -/
theorem does_removeDocument (hown : OwnPlaces ops root) {session : Session} {documentId : Uuid}
    {os : Os} (h : Filed ops root d) :
    Does ops root i (fun _ _ _ => True) (removeDocument session documentId os) [] d := by
  refine under_bind_of (does_loadOwned lasting_filed h _ _) fun app ws₁ d₁ h₁ => ?_
  obtain ⟨rfl, h₁⟩ := h₁
  refine under_bind_of (does_ownedDocument lasting_filed h₁ _ _) fun found ws₂ d₂ h₂ => ?_
  obtain ⟨rfl, h₂, hmem, rfl⟩ := h₂
  simp only [Tx.begin, Tx.query, Tx.lock, Tx.write, Tx.commit, Prog.bind_eq, Prog.pure_eq,
    Prog.bind]
  intro d₃ hr₃ snap d₄ hr₄ d₅ hr₅
  have h₅ : Filed ops root d₅ := hr₅.filed (hr₄.filed (hr₃.filed h₂))
  have hid : ∀ k, found.storageKey = some k → HasId found.id k d₅ := fun k hk =>
    (((h₂.hasId hown hmem hk).kept hr₃).kept hr₄).kept hr₅
  have hcommit : Promises ops root i d₅ (applyAll [.deleteDocument found.id, .insertAudit
      (auditBy session "onboarding.document_removed" "onboarding_document" found.id
        (some (.document found)) none)] d₅) := by
    refine handled_rows rfl rfl rfl ?_ (fun row hrow => ?_)
      fun _ _ h => by cases h
    · exact List.filter_sublist.map _
    · exact ⟨row, List.mem_of_mem_filter hrow, rfl, rfl, rfl, rfl, rfl⟩
  refine ⟨hcommit, ?_⟩
  split
  case h_2 => trivial
  case h_1 key hkey =>
    -- Once the row is gone no row has the key, so the file may be deleted.
    have hgone : Gone key (applyAll [.deleteDocument found.id, .insertAudit
      (auditBy session "onboarding.document_removed" "onboarding_document" found.id
        (some (.document found)) none)] d₅) := by
      refine ⟨hcommit.archived key (hid key hkey).1, fun row hrow hk => ?_⟩
      obtain ⟨hrow, hne⟩ := List.mem_filter.1 hrow
      exact of_decide_eq_true hne ((hid key hkey).2 row hrow hk)
    intro d₆ hr₆
    exact ⟨handled_delete hown (hr₆.filed (hcommit.filed h₅)) (hgone.kept hr₆) os, trivial⟩

/-- Uploads, retries and removals. -/
def Op.onDocuments : Op → Bool
  | uploadDocument .. | retryDocumentUpload .. | removeDocument .. => true
  | _ => false

theorem does_prog (hown : OwnPlaces ops root) (h : Unstored ops root i d) {isDigit : Char → Bool}
    {lower : String → String} (hop : (ops i).onDocuments = true) :
    Does ops root i (fun _ _ _ => True) ((ops i).prog isDigit lower) [] d := by
  cases he : ops i with
  | uploadDocument => exact under_bind_of (does_uploadDocument hown he h) fun _ _ _ _ => trivial
  | retryDocumentUpload =>
    exact under_bind_of (does_retryDocumentUpload h.filed) fun _ _ _ _ => trivial
  | removeDocument =>
    exact under_bind_of (does_removeDocument hown h.filed) fun _ _ _ _ => trivial
  | _ => rw [he] at hop; cases hop

end Calls

/-! ### Every interleaving -/

theorem promised_handled : Promised Env (Relied ops root) (Promises ops root) where
  refl _ := .refl
  trans _ _ _ _ := .trans
  env i d d' he := by
    obtain ⟨t, -, rfl⟩ := he
    exact .of_eq rfl rfl rfl rfl
  bump _ _ := .of_eq rfl rfl rfl rfl
  guar i j _ _ hij h := h.mono fun _ hk hi => hij (hi.symm.trans hk)

section Runs

variable [DecidableEq ι] {isDigit : Char → Bool} {lower : String → String}

/-- **Document rows match stored bytes**: when no two uploads have one place below the root, then in
every reachable state, whether calls are in progress or not, the key of each document names a file
with the bytes of the upload that has this key, as many as the row says. -/
theorem filed_of_reach {d₀ : Records} (hops : ∀ i, (ops i).onDocuments = true)
    (hown : OwnPlaces ops d₀.storageDir) (hdocs : d₀.documents = [])
    (hnew : ∀ key, ¬Archived d₀ key) {s : Sys ι Records Write Key Label ApiError Unit}
    (hr : Reach (Step Env) ⟨d₀, fun i => .start ((ops i).prog isDigit lower)⟩ s) :
    ∀ row ∈ s.shared.documents, ∃ i key bytes,
      Stores (ops i) row.applicationId row.type key bytes ∧ row.storageKey = some key ∧
      s.shared.files.file (place d₀.storageDir key) = some bytes ∧
        row.sizeBytes = bytes.length := by
  have h₀ : Filed ops d₀.storageDir d₀ :=
    ⟨rfl, by simp [hdocs], by simp [hdocs], fun key hk => absurd hk (hnew key)⟩
  have hfiled : Filed ops d₀.storageDir s.shared := by
    refine under_of_reach promised_handled (I := Filed ops d₀.storageDir) (fun d d' h he => ?_)
      (fun d h => ?_) (fun _ _ _ h hg => hg.filed h) h₀
        (fun i => Call.under_settle (fun _ => .refl _)
        (does_prog hown ⟨h₀, fun _ _ key _ _ => hnew key⟩ (hops i))) hr
    · obtain ⟨t, -, rfl⟩ := he
      have hsame : Handled ops d₀.storageDir (fun _ => True) d { d with clock := t } :=
        .of_eq rfl rfl rfl rfl
      exact hsame.filed h
    · have hsame : Handled ops d₀.storageDir (fun _ => True) d (bump d) := .of_eq rfl rfl rfl rfl
      exact hsame.filed h
  intro row hrow
  obtain ⟨i, key, bytes, hs, hkey, hfile, hsize, -⟩ := hfiled.rows row hrow
  exact ⟨i, key, bytes, hs, hkey, hfile, hsize⟩

end Runs

/-! ### Samples -/

/-- An upload of some bytes. -/
def sampleUpload (type : DocumentType) (bytes : List UInt8) : Op :=
  .uploadDocument sampleSession ⟨type, "scan.pdf", "application/pdf", bytes⟩ none 5 {}

/-- Two uploads of different kinds, and the removal of the first. -/
def twoKinds : Fin 3 → Op
  | 0 => sampleUpload .memart [1]
  | 1 => sampleUpload .cacCertificate [2, 3]
  | 2 => .removeDocument sampleSession 100 {}

/-- The same document is uploaded twice in a millisecond. -/
def reused : Fin 2 → Op
  | 0 => sampleUpload .memart [1]
  | 1 => sampleUpload .memart [2, 3]

/-- The calls of `ops` before they begin. -/
def beforeDocuments {n : ℕ} (ops : Fin n → Op) :
    Sys (Fin n) Records Write Key Label ApiError Unit :=
  ⟨sampleRecords, fun i => .start ((ops i).prog Char.isDigit sampleLower)⟩

/-- Uploads of two kinds of documents have places of their own. -/
theorem ownPlaces_twoKinds : OwnPlaces twoKinds ".storage" := by
  have hkind : ∀ {i appId type key bytes}, Stores (twoKinds i) appId type key bytes →
      i = 0 ∧ type = .memart ∨ i = 1 ∧ type = .cacCertificate := by
    intro i appId type key bytes hs
    obtain ⟨session, upload, applicationId, millis, os, hop, htype, -⟩ := hs.call
    have hcases : ∀ i : Fin 3, i = 0 ∨ i = 1 ∨ i = 2 := by decide
    rcases hcases i with rfl | rfl | rfl
    · obtain ⟨-, rfl, -⟩ := Op.uploadDocument.inj hop
      exact .inl ⟨rfl, htype⟩
    · obtain ⟨-, rfl, -⟩ := Op.uploadDocument.inj hop
      exact .inr ⟨rfl, htype⟩
    · exact absurd hop nofun
  intro i j appId type key bytes appId' type' key' bytes' hs hs' hp
  have htype := hs.type_of_place hs' hp
  have hi := hkind hs
  have hj := hkind hs'
  clear hs hs' hp
  subst htype
  rcases hi with ⟨hi, ht⟩ | ⟨hi, ht⟩ <;> rcases hj with ⟨hj, ht'⟩ | ⟨hj, ht'⟩ <;>
    first | exact hi.trans hj.symm | exact absurd (ht.symm.trans ht') (by decide)

/-- Two documents are uploaded, and the first is removed: the other has its bytes. -/
theorem filed_of_twoKinds :
    ∃ s : Sys (Fin 3) Records Write Key Label ApiError Unit,
      Reach (Step Env) (beforeDocuments twoKinds) s ∧ (∀ i, (s.calls i).ended = true) ∧
      s.shared.documents.length = 1 ∧ ∀ row ∈ s.shared.documents, ∃ i key bytes,
        Stores (twoKinds i) row.applicationId row.type key bytes ∧ row.storageKey = some key ∧
        s.shared.files.file (place ".storage" key) = some bytes ∧ row.sizeBytes = bytes.length := by
  obtain ⟨s, hr, hs⟩ := exists_reach_of_turns Env [0, 1, 2] [(0, 10), (1, 10), (2, 9)]
    (beforeDocuments twoKinds)
    (fun s => decide (∀ i, (s.calls i).ended = true) && decide (s.shared.documents.length = 1))
    (by decide) (by decide +kernel)
  simp only [Bool.and_eq_true, decide_eq_true_eq] at hs
  exact ⟨s, hr, hs.1, hs.2, filed_of_reach (by decide) ownPlaces_twoKinds rfl
    (by simp [Archived, sampleRecords]) hr⟩

/-- The bytes of a second upload take the place of those of the first.  Its transaction is lost, and
the row goes on to describe the first. -/
theorem unfiled_of_reused :
    ∃ s : Sys (Fin 2) Records Write Key Label ApiError Unit,
      Reach (Step Env) (beforeDocuments reused) s ∧ (∀ i, (s.calls i).ended = true) ∧
      ∃ row ∈ s.shared.documents, ∃ key, row.storageKey = some key ∧ row.sizeBytes = 1 ∧
        s.shared.files.file (place ".storage" key) = some [2, 3] := by
  let key := storageKey "7" .memart 5 "scan.pdf"
  obtain ⟨s, hr, hs⟩ := exists_reach_of_play Env [0, 1] (schedule [(0, 10), (1, 4)] ++ [.crash 1])
    (beforeDocuments reused)
    (fun s => decide (∀ i, (s.calls i).ended = true) && s.shared.documents.any fun row =>
      decide (row.storageKey = some key) && decide (row.sizeBytes = 1) &&
        decide (s.shared.files.file (place ".storage" key) = some [2, 3]))
    (by decide) (by simp [schedule]) (by decide +kernel)
  obtain ⟨hended, hs⟩ := Bool.and_eq_true_iff.1 hs
  obtain ⟨row, hrow, hs⟩ := List.any_eq_true.1 hs
  simp only [Bool.and_eq_true, decide_eq_true_eq] at hs
  exact ⟨s, hr, of_decide_eq_true hended, row, hrow, key, hs.1.1, hs.1.2, hs.2⟩

end Kimana.Onboarding
