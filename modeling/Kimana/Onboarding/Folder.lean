import Kimana.Onboarding
import Kimana.Storage

/-!
# The folder of an upload

The bytes of an upload are stored under a key that ends in the name the client chose for the file.
Whatever that name is, they stay in the folder of the application and the kind of document.

* `storageKey` : the key.
* `below_storageKey` : the place it names.
* `put_confined` : **uploads stay in their own folder.**
-/

namespace Kimana.Onboarding

open FileSystem Storage

/-- The key of an upload. -/
def storageKey (appId : String) (docType : DocumentType) (millis : ℕ) (fileName : String) :
    String :=
  "onboarding/" ++ appId ++ "/" ++ docType.asStr ++ "/" ++ toString millis ++ "-" ++ fileName

/-- The folder of an application. -/
def applicationFolder (root appId : String) : Path :=
  components root.toList ++ [.normal "onboarding".toList, .normal appId.toList]

/-- The folder of an application and a kind of document. -/
def folder (root appId : String) (docType : DocumentType) : Path :=
  applicationFolder root appId ++ [.normal docType.asStr.toList]

/-- The text of an id: 32 hexadecimal digits in groups. -/
def isUuid (s : String) : Bool :=
  s.toList.length = 36 && s.toList.zipIdx.all fun (c, i) =>
    if i ∈ [8, 13, 18, 23] then c = '-' else c.isDigit || ('a' ≤ c && c ≤ 'f')

/-- An id as it is written. -/
structure UuidText where
  text : String
  valid : isUuid text = true

theorem UuidText.isName (id : UuidText) : IsName id.text.toList := by
  obtain ⟨hlen, hall⟩ := Bool.and_eq_true_iff.1 id.valid
  have hchar : ∀ c ∈ id.text.toList, c ≠ '/' ∧ c ≠ '.' := by
    intro c hc
    obtain ⟨i, hi, rfl⟩ := List.getElem_of_mem hc
    have := List.all_eq_true.1 hall (id.text.toList[i], i) (List.mk_mem_zipIdx_iff_getElem?.2
      (List.getElem?_eq_getElem hi))
    constructor <;> intro he <;> simp only [he] at this <;> split at this <;> revert this <;> decide
  refine ⟨fun he => ?_, fun h => (hchar _ h).1 rfl, fun h => (hchar _ h).2 rfl⟩
  rw [he] at hlen
  cases hlen

theorem isName_asStr (docType : DocumentType) : IsName docType.asStr.toList := by
  cases docType <;> exact ⟨by decide, by decide, by decide⟩

/-! ### The place of an upload -/

variable {appId : String} (docType : DocumentType) (millis : ℕ) (fileName : String)

theorem splitOn_storageKey (h : IsName appId.toList) :
    (storageKey appId docType millis fileName).toList.splitOn '/' =
      "onboarding".toList :: appId.toList :: docType.asStr.toList ::
        ((toString millis).toList ++ '-' :: fileName.toList).splitOn '/' := by
  have hkey : (storageKey appId docType millis fileName).toList =
      "onboarding".toList ++ '/' :: (appId.toList ++ '/' :: (docType.asStr.toList ++ '/' ::
        ((toString millis).toList ++ '-' :: fileName.toList))) := by
    have hroot : "onboarding/".toList = "onboarding".toList ++ ['/'] := by decide
    have hslash : "/".toList = ['/'] := by decide
    have hyphen : "-".toList = ['-'] := by decide
    unfold storageKey
    rw [String.toList_append, String.toList_append, String.toList_append, String.toList_append,
      String.toList_append, String.toList_append, String.toList_append, hroot, hslash, hyphen]
    simp only [List.append_assoc, List.cons_append, List.nil_append]
  rw [hkey, List.splitOn_append_cons_self, List.splitOn_append_cons_self,
    List.splitOn_append_cons_self, h.splitOn, (isName_asStr docType).splitOn]
  rfl

theorem relative_storageKey (h : IsName appId.toList) :
    Relative (storageKey appId docType millis fileName).toList :=
  ⟨_, _, splitOn_storageKey docType millis fileName h, by decide, by decide⟩

/-- An upload whose name has no two dots in a row is strictly below its folder. -/
theorem below_storageKey (root : String) (h : IsName appId.toList)
    (hdots : Util.contains ".." (storageKey appId docType millis fileName) = false) :
    Below (folder root appId docType) (place root (storageKey appId docType millis fileName)) := by
  have hsplit := splitOn_storageKey docType millis fileName h
  generalize hkey : storageKey appId docType millis fileName = key at *
  generalize htail : (toString millis).toList ++ '-' :: fileName.toList = tail at *
  refine ⟨(tail.splitOn '/').filterMap part, fun he => ?_, fun c hc => ?_, ?_⟩
  · -- The hyphen before the name is in a part of its own kind.
    obtain ⟨name, hname, hmem⟩ := exists_mem_splitOn (c := '-') (s := tail)
      (htail ▸ by simp) (by decide)
    obtain ⟨c, hc⟩ := Option.ne_none_iff_exists'.1 (part_ne_none hmem (by decide))
    have := List.mem_filterMap.2 ⟨name, hname, hc⟩
    rw [he] at this
    cases this
  · obtain ⟨name, hname, hc⟩ := List.mem_filterMap.1 hc
    have hnot : ¬ "..".toList <:+: key.toList := fun hinfix => by
      rw [Util.contains_of_infix hinfix] at hdots
      cases hdots
    have hmem : name ∈ key.toList.splitOn '/' := by
      rw [hsplit]
      exact List.mem_cons_of_mem _ (List.mem_cons_of_mem _ (List.mem_cons_of_mem _ hname))
    exact part_eq_normal hc fun he => part_ne_parent hnot hmem (he ▸ hc)
  · have hrel : Relative key.toList := ⟨_, _, hsplit, by decide, by decide⟩
    have hfirst : part "onboarding".toList = some (.normal "onboarding".toList) := by decide
    rw [place, hrel.components, hsplit]
    simp only [List.filterMap_cons, hfirst, h.part, (isName_asStr docType).part, folder,
      applicationFolder, List.append_assoc, List.cons_append, List.nil_append]

/-- Nothing below the folder of one application is below that of another. -/
theorem ne_of_applicationFolder {root appId appId' : String} {p q : Path} (hne : appId ≠ appId')
    (hp : applicationFolder root appId <+: p) (hq : applicationFolder root appId' <+: q) :
    q ≠ p := by
  rintro rfl
  have := List.prefix_of_prefix_length_le hp hq (by simp [applicationFolder])
  have := this.eq_of_length (by simp [applicationFolder])
  simp only [applicationFolder, List.append_cancel_left_eq, List.cons.injEq, and_true, true_and,
    Component.normal.injEq] at this
  exact hne (String.toList_inj.1 this)

/-! ### Confinement -/

/-- Whatever the client calls a file, its upload is refused and changes nothing, or its place is
strictly below the folder of the application and the kind of document.  The directories that are
then made lie on the way down to that place, and the call fails and writes no file, or the one file
written is there.  So it leaves the files of the other applications alone, and so does the removal
of the upload. -/
theorem put_confined (os : Os) (root : String) (app : UuidText) (docType : DocumentType)
    (millis : ℕ) (fileName : String) (bytes : List UInt8) (t : Tree) :
    let key := storageKey app.text docType millis fileName
    let r := put os root key bytes t
    ((∃ e, r.1 = .error e) ∧ r.2 = t ∨
      Below (folder root app.text docType) (place root key) ∧ MadeOn (place root key) t r.2 ∧
        ((∃ e, r.1 = .error e) ∧ SameFiles t r.2 ∨
          ∃ stored, stored <+: bytes ∧ OneFile (place root key) stored t r.2 ∧
            (r.1 = .ok () → stored = bytes))) ∧
    ∀ other : UuidText, app.text ≠ other.text → ∀ q, applicationFolder root other.text <+: q →
      r.2.file q = t.file q ∧ (delete os root key t).2.file q = t.file q := by
  intro key r
  have hrel : Relative key.toList := relative_storageKey docType millis fileName app.isName
  cases hdots : Util.contains ".." key with
  | true =>
    have hr : r = (.error (.validation "Invalid storage key."), t) :=
      put_of_dots os root bytes t hrel hdots
    have hd : delete os root key t = (.error (.validation "Invalid storage key."), t) := by
      rw [delete, pathFor_eq root hrel, hdots, if_pos rfl]
    rw [hr, hd]
    exact ⟨.inl ⟨⟨_, rfl⟩, rfl⟩, fun _ _ _ _ => ⟨rfl, rfl⟩⟩
  | false =>
    have hbelow := below_storageKey docType millis fileName root app.isName hdots
    obtain ⟨hput, hmade⟩ := put_spec os root bytes t hrel
    have happ : applicationFolder root app.text <+: place root key := by
      obtain ⟨rest, -, -, hp⟩ := hbelow
      rw [hp, folder, List.append_assoc]
      exact List.prefix_append ..
    refine ⟨.inr ⟨hbelow, hmade, hput.oneFile⟩, fun other hne q hq => ?_⟩
    have hqp := ne_of_applicationFolder hne happ hq
    exact ⟨hput.file_of_ne hqp, by rw [Tree.file, delete_of_ne os root t hrel hqp, Tree.file]⟩

/-- An absolute path is a name like any other. -/
example : place ".storage" (storageKey "7" .memart 5 "/etc/passwd") =
    folder ".storage" "7" .memart ++
      [.normal "5-".toList, .normal "etc".toList, .normal "passwd".toList] := by
  decide

end Kimana.Onboarding
