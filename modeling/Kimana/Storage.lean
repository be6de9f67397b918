import Kimana.FileSystem.Tree
import Kimana.Util

/-!
# Storage of uploaded bytes

Bytes are kept in files below a root directory, under a key that is a path relative to it.

* `pathFor_eq` : the place of a key that begins with a name.
* `put_spec` : what storing bytes changes.
* `delete_of_ne` : what forgetting them leaves alone.
-/

namespace Kimana.Storage

open FileSystem

/-- The path of a key, unless it escapes the root. -/
def pathFor (root key : String) : Except ApiError (List Char) :=
  let full := join root.toList key.toList
  if !startsWith (components full) (components root.toList) || Util.contains ".." key then
    .error (.validation "Invalid storage key.")
  else .ok full

/-- Store bytes under a key. -/
def put (os : Os) (root key : String) (bytes : List UInt8) (t : Tree) :
    Except ApiError Unit × Tree :=
  match pathFor root key with
  | .error e => (.error e, t)
  | .ok path =>
    let (made, t) :=
      match parent (components path) with
      | some dir => createDirAll os dir t
      | none => (true, t)
    if !made then (.error .serverError, t)
    else
      let (written, t) := writeFile os path bytes t
      if written then (.ok (), t) else (.error .serverError, t)

/-- Forget the bytes under a key.  Whether there were any does not matter. -/
def delete (os : Os) (root key : String) (t : Tree) : Except ApiError Unit × Tree :=
  match pathFor root key with
  | .error e => (.error e, t)
  | .ok path => (.ok (), removeFile os path t)

/-- The place below the root that a key names. -/
def place (root key : String) : Path := components root.toList ++ components key.toList

/-! ### What a key reaches -/

/-- A key that begins with a name is refused for dots only, and has its place below the root. -/
theorem pathFor_eq (root : String) {key : String} (h : Relative key.toList) :
    pathFor root key = if Util.contains ".." key then .error (.validation "Invalid storage key.")
      else .ok (join root.toList key.toList) := by
  simp only [pathFor, components_join root.toList h, startsWith_append, Bool.not_true,
    Bool.false_or]

/-- One file was written. -/
structure OneFile (p : Path) (bytes : List UInt8) (t t' : Tree) : Prop where
  file : t'.file p = some bytes
  others : ∀ q, q ≠ p → t'.file q = t.file q

theorem OneFile.of_wrote {p : Path} {bytes : List UInt8} {t t₁ t₂ : Tree} (h : SameFiles t t₁)
    (hw : Wrote p bytes t₁ t₂) : OneFile p bytes t t₂ where
  file := by rw [Tree.file, hw.file]
  others q hq := by rw [Tree.file, hw.others q hq, ← h q, Tree.file]

/-- How storing bytes at a place ends. -/
inductive Put (p : Path) (bytes : List UInt8) (t : Tree) : Except ApiError Unit → Tree → Prop
  | stored {t' : Tree} (h : OneFile p bytes t t') : Put p bytes t (.ok ()) t'
  | cut {t' : Tree} (n : ℕ) (h : OneFile p (bytes.take n) t t') : Put p bytes t
    (.error .serverError) t'
  | failed {t' : Tree} (e : ApiError) (h : SameFiles t t') : Put p bytes t (.error e) t'

/-- Bytes are stored in one file, as far as the disk has room, or the call fails. -/
theorem Put.oneFile {p : Path} {bytes : List UInt8} {t t' : Tree} {r : Except ApiError Unit}
    (h : Put p bytes t r t') : (∃ e, r = .error e) ∧ SameFiles t t' ∨
      ∃ stored, stored <+: bytes ∧ OneFile p stored t t' ∧ (r = .ok () → stored = bytes) := by
  cases h with
  | stored h => exact .inr ⟨bytes, List.prefix_rfl, h, fun _ => rfl⟩
  | cut n h => exact .inr ⟨_, List.take_prefix n bytes, h, nofun⟩
  | failed e h => exact .inl ⟨⟨e, rfl⟩, h⟩

/-- The other files are left alone. -/
theorem Put.file_of_ne {p : Path} {bytes : List UInt8} {t t' : Tree} {r : Except ApiError Unit}
    (h : Put p bytes t r t') {q : Path} (hq : q ≠ p) : t'.file q = t.file q := by
  cases h with
  | stored h | cut _ h => exact h.others q hq
  | failed _ h => exact h q

/-- `t'` has directories on the way down to `p` that `t` has not, and no others. -/
def MadeOn (p : Path) (t t' : Tree) : Prop :=
  ∀ q, t'.node q = some .dir → t.node q = some .dir ∨ q <+: p ∧ q ≠ p

variable (os : Os) (root : String) {key : String} (bytes : List UInt8) (t : Tree)

/-- Nothing happens under a key with two dots in a row. -/
theorem put_of_dots (h : Relative key.toList) (hdots : Util.contains ".." key = true) :
    put os root key bytes t = (.error (.validation "Invalid storage key."), t) := by
  simp only [put, pathFor_eq root h, hdots, if_true]

/-- Bytes are stored in one file, in whole or in part, or no file changes and the call fails, and
directories are made only on the way down to it. -/
theorem put_spec (h : Relative key.toList) :
    Put (place root key) bytes t (put os root key bytes t).1 (put os root key bytes t).2 ∧
      MadeOn (place root key) t (put os root key bytes t).2 := by
  have hplace : components (join root.toList key.toList) = place root key := components_join _ h
  unfold put
  rw [pathFor_eq root h]
  split
  · next e he => exact ⟨.failed e (.refl t), fun q hq => .inl hq⟩
  · next path hpath =>
    obtain rfl : join root.toList key.toList = path := by
      split at hpath <;> cases hpath
      rfl
    rw [hplace]
    -- The directories above the file come first.
    obtain ⟨made, t₁, hdirs, hsame, hmade⟩ : ∃ made t₁,
        (match parent (place root key) with
          | some dir => createDirAll os dir t
          | none => (true, t)) = (made, t₁) ∧ SameFiles t t₁ ∧ MadeOn (place root key) t t₁ := by
      split
      · next dir hdir =>
        refine ⟨_, _, rfl, createDirAll_files os dir t, fun q hq => ?_⟩
        rcases createDirAll_spec os dir t q with hn | ⟨hle, -, -⟩
        · exact .inl (hn ▸ hq)
        · obtain ⟨hpre, hne⟩ := parent_prefix hdir
          refine .inr ⟨hle.trans hpre, fun he => hne ?_⟩
          exact List.IsPrefix.eq_of_length_le hpre (he ▸ hle).length_le
      · exact ⟨true, t, rfl, .refl t, fun q hq => .inl hq⟩
    rw [hdirs]
    dsimp only
    cases made with
    | false => exact ⟨.failed _ hsame, hmade⟩
    | true =>
      -- A file is no directory, so that those made are the same.
      have hwrote : ∀ bytes' t₂, Wrote (place root key) bytes' t₁ t₂ →
          OneFile (place root key) bytes' t t₂ ∧ MadeOn (place root key) t t₂ := by
        intro bytes' t₂ hw
        refine ⟨.of_wrote hsame hw, fun q hq => ?_⟩
        by_cases hqp : q = place root key
        · rw [hqp, hw.file] at hq
          cases hq
        · exact hmade q (hw.others q hqp ▸ hq)
      rcases writeFile_spec os (join root.toList key.toList) bytes t₁ with hw | ⟨hw, hok⟩ |
        ⟨n, hw, hok⟩
      · rw [hw]
        exact ⟨.failed _ hsame, hmade⟩
      · rw [hplace] at hw
        rw [hok]
        exact ⟨.stored (hwrote _ _ hw).1, (hwrote _ _ hw).2⟩
      · rw [hplace] at hw
        rw [hok]
        exact ⟨.cut n (hwrote _ _ hw).1, (hwrote _ _ hw).2⟩

/-- Nothing is forgotten but the bytes at the place of the key. -/
theorem delete_of_ne (h : Relative key.toList) {q : Path} (hq : q ≠ place root key) :
    (delete os root key t).2.node q = t.node q := by
  rw [delete, pathFor_eq root h]
  split
  · rfl
  · next hpath =>
    split at hpath
    · cases hpath
    · cases hpath
      exact removeFile_of_ne os (components_join root.toList h ▸ hq) t

end Kimana.Storage
