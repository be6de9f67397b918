import Kimana.FileSystem.Path

/-!
# Directories and files

What a file system holds, keyed by the components of each place, and the calls that make the
directories of a path, write a file and remove one.  There are no links, so that two paths name one
place only if they have the same components.

Whatever else the operating system may refuse or break off is an argument, `Os`.
-/

namespace FileSystem

/-- What stands at a place. -/
inductive Node
  | dir
  | file (bytes : List UInt8)
  deriving DecidableEq

/-- The places in use, the last change of a place first. -/
structure Tree where
  entries : List (Path × Option Node) := []
  deriving DecidableEq

namespace Tree

/-- What stands at a place. -/
def node (t : Tree) (p : Path) : Option Node := (t.entries.find? fun e => e.1 = p).bind (·.2)

/-- Put something at a place, or nothing. -/
def set (t : Tree) (p : Path) (n : Option Node) : Tree := ⟨(p, n) :: t.entries⟩

/-- The bytes of a file. -/
def file (t : Tree) (p : Path) : Option (List UInt8) :=
  match t.node p with
  | some (.file bytes) => some bytes
  | _ => none

@[simp] theorem node_set_self (t : Tree) (p : Path) (n : Option Node) :
    (t.set p n).node p = n := by
  simp [node, set]

theorem node_set_of_ne {p q : Path} (h : q ≠ p) (t : Tree) (n : Option Node) :
    (t.set p n).node q = t.node q := by
  simp [node, set, Ne.symm h]

end Tree

/-- What goes wrong in the operating system. -/
structure Os where
  /-- A directory cannot be made, or a file not be opened. -/
  refuses : Path → Bool := fun _ => false
  /-- The disk is full after so many bytes. -/
  room : Option ℕ := none

/-- The place of a file that a text names.  One that ends in a separator, or in dots, names a
directory, and one with a NUL in it nothing. -/
def filePlace (path : List Char) : Option Path :=
  match part ((path.splitOn '/').getLastD []) with
  | some (.normal _) => if '\x00' ∈ path then none else some (components path)
  | _ => none

/-- Make the directories on the way from `done` down to `done ++ rest` that are missing. -/
def makeDirs (os : Os) : Path → Path → Tree → Bool × Tree
  | _, [], t => (true, t)
  | done, c :: rest, t =>
    match t.node (done ++ [c]) with
    | some .dir => makeDirs os (done ++ [c]) rest t
    | some (.file _) => (false, t)
    | none =>
      if os.refuses (done ++ [c]) then (false, t)
      else makeDirs os (done ++ [c]) rest (t.set (done ++ [c]) (some .dir))

/-- The operating system takes no name with a NUL in it. -/
def Component.hasNul : Component → Bool
  | normal name => '\x00' ∈ name
  | _ => false

/-- Make a directory and those above it that are missing. -/
def createDirAll (os : Os) (dir : Path) (t : Tree) : Bool × Tree :=
  if dir.any Component.hasNul then (false, t) else makeDirs os [] dir t

/-- Write a file, in place of what stood there. -/
def writeFile (os : Os) (path : List Char) (bytes : List UInt8) (t : Tree) : Bool × Tree :=
  match filePlace path with
  | none => (false, t)
  | some p =>
    if os.refuses p || t.node p = some .dir || t.node p.dropLast ≠ some .dir then (false, t)
    else
      match os.room with
      | none => (true, t.set p (some (.file bytes)))
      | some n => (false, t.set p (some (.file (bytes.take n))))

/-- Remove a file. -/
def removeFile (os : Os) (path : List Char) (t : Tree) : Tree :=
  match filePlace path with
  | none => t
  | some p => if os.refuses p || (t.file p).isNone then t else t.set p none

/-! ### What the calls change -/

theorem filePlace_eq {path : List Char} {p : Path} (h : filePlace path = some p) :
    p = components path := by
  unfold filePlace at h
  split at h
  · split at h
    · cases h
    · exact (Option.some.inj h).symm
  · cases h

/-- Only directories are made, where nothing was, on the way down. -/
theorem makeDirs_spec (os : Os) (done rest : Path) (t : Tree) (q : Path) :
    (makeDirs os done rest t).2.node q = t.node q ∨
      q <+: done ++ rest ∧ t.node q = none ∧ (makeDirs os done rest t).2.node q = some .dir := by
  induction rest generalizing done t with
  | nil => exact .inl rfl
  | cons c rest ih =>
    have hassoc : done ++ [c] ++ rest = done ++ c :: rest := by simp
    unfold makeDirs
    split
    · simpa only [hassoc] using ih (done ++ [c]) t
    · exact .inl rfl
    · next hnone =>
      split
      · exact .inl rfl
      by_cases hq : q = done ++ [c]
      · -- This directory is made here, and not touched again.
        subst hq
        refine .inr ⟨hassoc ▸ List.prefix_append .., hnone, ?_⟩
        rcases ih (done ++ [c]) (t.set (done ++ [c]) (some .dir)) with h | ⟨-, h, -⟩
        · rw [h, Tree.node_set_self]
        · rw [Tree.node_set_self] at h
          cases h
      · have := ih (done ++ [c]) (t.set (done ++ [c]) (some .dir))
        rwa [Tree.node_set_of_ne hq, hassoc] at this

/-- Only directories are made, where nothing was, on the way down. -/
theorem createDirAll_spec (os : Os) (dir : Path) (t : Tree) (q : Path) :
    (createDirAll os dir t).2.node q = t.node q ∨
      q <+: dir ∧ t.node q = none ∧ (createDirAll os dir t).2.node q = some .dir := by
  unfold createDirAll
  split
  · exact .inl rfl
  · exact makeDirs_spec os [] dir t q

/-- The files of a tree are those of another. -/
def SameFiles (t t' : Tree) : Prop := ∀ q, t'.file q = t.file q

theorem SameFiles.refl (t : Tree) : SameFiles t t := fun _ => rfl

theorem createDirAll_files (os : Os) (dir : Path) (t : Tree) :
    SameFiles t (createDirAll os dir t).2 := by
  intro q
  unfold Tree.file
  rcases createDirAll_spec os dir t q with h | ⟨-, h, h'⟩
  · rw [h]
  · rw [h, h']

/-- The one place where a tree differs from another is a file that holds these bytes. -/
structure Wrote (p : Path) (bytes : List UInt8) (t t' : Tree) : Prop where
  file : t'.node p = some (.file bytes)
  others : ∀ q, q ≠ p → t'.node q = t.node q

/-- A file is written in one place, in whole if the call succeeds, or none is. -/
theorem writeFile_spec (os : Os) (path : List Char) (bytes : List UInt8) (t : Tree) :
    writeFile os path bytes t = (false, t) ∨
    Wrote (components path) bytes t (writeFile os path bytes t).2 ∧
      (writeFile os path bytes t).1 = true ∨
    ∃ n, Wrote (components path) (bytes.take n) t (writeFile os path bytes t).2 ∧
      (writeFile os path bytes t).1 = false := by
  unfold writeFile
  split
  · exact .inl rfl
  · next p hp =>
    rw [← filePlace_eq hp]
    split
    · exact .inl rfl
    split
    · exact .inr (.inl ⟨⟨Tree.node_set_self .., fun _ hq => Tree.node_set_of_ne hq ..⟩, rfl⟩)
    · exact .inr (.inr ⟨_, ⟨Tree.node_set_self .., fun _ hq => Tree.node_set_of_ne hq ..⟩, rfl⟩)

/-- Nothing is removed but the file. -/
theorem removeFile_of_ne (os : Os) {path : List Char} {q : Path} (h : q ≠ components path)
    (t : Tree) : (removeFile os path t).node q = t.node q := by
  unfold removeFile
  split
  · rfl
  · next p hp =>
    split
    · rfl
    · exact Tree.node_set_of_ne (filePlace_eq hp ▸ h) ..

end FileSystem
