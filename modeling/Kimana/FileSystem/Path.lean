import Mathlib.Data.List.Infix
import Mathlib.Data.Nat.Notation

/-!
# Paths

A path is a text, and two texts name the same place when they have the same components: repeated
separators do not count, nor does a dot that stands behind a separator.

* `components` : the components of a text.
* `join` : a text taken relative to another; `components_join` its components.
* `part_ne_parent` : a text without two dots in a row never climbs.
-/

namespace FileSystem

/-- A component of a path. -/
inductive Component
  | rootDir
  | curDir
  | parentDir
  | normal (name : List Char)
  deriving DecidableEq

/-- A place in the file system, as its components spell it. -/
abbrev Path := List Component

/-- What stands between two separators, behind the first part of a text. -/
def part : List Char → Option Component
  | [] => none
  | ['.'] => none
  | ['.', '.'] => some .parentDir
  | name => some (.normal name)

/-- The first part of a text that has others behind it, or is the whole of it. -/
def firstPart (whole : Bool) : List Char → Option Component
  | [] => if whole then none else some .rootDir
  | ['.'] => some .curDir
  | name => part name

/-- The components of a text. -/
def components (s : List Char) : Path :=
  match s.splitOn '/' with
  | [] => []
  | first :: rest => (firstPart rest.isEmpty first).toList ++ rest.filterMap part

/-- A text relative to another, or in its place if it begins with a separator. -/
def join (base s : List Char) : List Char :=
  if s.head? = some '/' then s
  else if base = [] ∨ base.getLast? = some '/' then base ++ s
  else base ++ '/' :: s

/-- A path begins with the components of another. -/
def startsWith (p base : Path) : Bool := base.isPrefixOf p

/-- The path without its last component, unless that is the root. -/
def parent (p : Path) : Option Path :=
  match p.getLast? with
  | none => none
  | some .rootDir => none
  | some _ => some p.dropLast

/-- What stands above a path is on the way down to it. -/
theorem parent_prefix {p dir : Path} (h : parent p = some dir) : dir <+: p ∧ dir ≠ p := by
  unfold parent at h
  split at h
  · cases h
  · cases h
  · next c _ hlast =>
    obtain rfl := Option.some.inj h
    refine ⟨List.dropLast_prefix p, fun he => ?_⟩
    have hlen := congrArg List.length he
    have : p ≠ [] := by rintro rfl; cases hlast
    have := List.length_pos_iff.2 this
    rw [List.length_dropLast] at hlen
    omega

example : components "/srv//a/./b/".toList =
    [.rootDir, .normal ['s', 'r', 'v'], .normal ['a'], .normal ['b']] := by decide

example : components "./a/..".toList = [.curDir, .normal ['a'], .parentDir] := by decide

/-! ### Joining -/

/-- A text that begins with a name. -/
def Relative (s : List Char) : Prop := ∃ name rest, s.splitOn '/' = name :: rest ∧
  name ≠ [] ∧ name ≠ ['.']

theorem Relative.head?_ne {s : List Char} (h : Relative s) : s.head? ≠ some '/' := by
  obtain ⟨name, rest, hs, hname, -⟩ := h
  intro hhead
  obtain ⟨s', rfl⟩ : ∃ s', s = '/' :: s' := by
    cases s with
    | nil => cases hhead
    | cons c s' => exact ⟨s', by rw [Option.some.inj hhead]⟩
  rw [← List.nil_append ('/' :: s'), List.splitOn_append_cons_self] at hs
  exact hname (List.cons.inj hs).1.symm

/-- The first part of a text that begins with a name is read as the others are. -/
theorem Relative.components {s : List Char} (h : Relative s) :
    components s = (s.splitOn '/').filterMap part := by
  obtain ⟨name, rest, hs, hname, hdot⟩ := h
  have hfirst : ∀ whole, firstPart whole name = part name := by
    intro whole
    unfold firstPart
    split
    · exact absurd rfl hname
    · exact absurd rfl hdot
    · rfl
  rw [FileSystem.components, hs]
  cases hpart : part name <;> simp [hfirst, hpart]

/-- The first part of a text with others behind it does not depend on them. -/
theorem components_append (base s : List Char) (hbase : base ≠ []) :
    components (base ++ '/' :: s) = components base ++ (s.splitOn '/').filterMap part := by
  have hsplit := List.splitOn_append_cons_self (a := '/') base s
  cases hb : base.splitOn '/' with
  | nil => exact absurd hb (List.splitOn_ne_nil _ _)
  | cons first rest =>
    have hwhole : first = [] → rest ≠ [] := by
      have hjoin : ['/'].intercalate (base.splitOn '/') = base := List.intercalate_splitOn '/'
      rintro rfl rfl
      exact hbase (by simpa [hb] using hjoin.symm)
    have hne : (rest ++ s.splitOn '/').isEmpty = false := by
      simp [List.splitOn_ne_nil]
    have hfirst : firstPart false first = firstPart rest.isEmpty first := by
      cases first with
      | nil => rw [List.isEmpty_eq_false_iff.2 (hwhole rfl)]
      | cons c cs => unfold firstPart; split <;> simp_all
    rw [components, components, hsplit, hb, List.cons_append]
    simp only [hne, hfirst, List.filterMap_append, List.append_assoc]

/-- A text that begins with a name, joined to another, stands below it. -/
theorem components_join (base : List Char) {s : List Char} (h : Relative s) :
    components (join base s) = components base ++ components s := by
  unfold join
  rw [if_neg h.head?_ne, h.components]
  by_cases hbase : base = []
  · rw [if_pos (.inl hbase), hbase, List.nil_append, h.components]
    rfl
  by_cases hlast : base.getLast? = some '/'
  · -- A separator at the end adds nothing to the components.
    obtain ⟨base', rfl⟩ : ∃ base', base = base' ++ ['/'] :=
      ⟨base.dropLast, (List.dropLast_append_getLast? '/' hlast).symm⟩
    rw [if_pos (.inr hlast), List.append_assoc, List.singleton_append]
    by_cases hb : base' = []
    · subst hb
      rw [List.nil_append, components, List.splitOn_cons_eq_if_modifyHead, if_pos (by decide)]
      simp [firstPart, List.splitOn_ne_nil]
      rfl
    · rw [components_append base' s hb, components_append base' [] hb]
      simp [part]
  · rw [if_neg (by simp [hbase, hlast]), components_append base s hbase]

theorem startsWith_append (base below : Path) : startsWith (base ++ below) base = true :=
  List.isPrefixOf_iff_prefix.2 (List.prefix_append ..)

/-! ### Climbing -/

theorem infix_intercalate {names : List (List Char)} {name : List Char} (h : name ∈ names) :
    name <:+: ['/'].intercalate names := by
  induction names with
  | nil => cases h
  | cons first rest ih =>
    cases rest with
    | nil =>
      rw [List.intercalate_singleton, List.mem_singleton.1 h]
    | cons second rest =>
      rw [List.intercalate_cons_cons]
      rcases List.mem_cons.1 h with rfl | h
      · exact ((List.prefix_append _ _).trans (List.prefix_append _ _)).isInfix
      · exact (ih h).trans (List.suffix_append _ _).isInfix

/-- A part of a text stands in it. -/
theorem infix_of_mem_splitOn {s name : List Char} (h : name ∈ s.splitOn '/') : name <:+: s := by
  have := infix_intercalate h
  rwa [List.intercalate_splitOn] at this

theorem mem_of_mem_intercalate {names : List (List Char)} {c : Char}
    (h : c ∈ ['/'].intercalate names) (hc : c ≠ '/') : ∃ name ∈ names, c ∈ name := by
  induction names with
  | nil => cases h
  | cons first rest ih =>
    cases rest with
    | nil => exact ⟨first, by simp, by rwa [List.intercalate_singleton] at h⟩
    | cons second rest =>
      rw [List.intercalate_cons_cons, List.append_assoc] at h
      rcases List.mem_append.1 h with h | h
      · exact ⟨first, by simp, h⟩
      · obtain ⟨name, hname, h⟩ := ih ((List.mem_cons.1 h).resolve_left hc)
        exact ⟨name, List.mem_cons_of_mem _ hname, h⟩

/-- A character other than the separator stands in one of the parts. -/
theorem exists_mem_splitOn {s : List Char} {c : Char} (h : c ∈ s) (hc : c ≠ '/') :
    ∃ name ∈ s.splitOn '/', c ∈ name :=
  mem_of_mem_intercalate (by rwa [List.intercalate_splitOn]) hc

/-- A text without two dots in a row does not climb. -/
theorem part_ne_parent {s name : List Char} (hdots : ¬ ['.', '.'] <:+: s)
    (h : name ∈ s.splitOn '/') : part name ≠ some .parentDir := by
  unfold part
  split
  · exact nofun
  · exact nofun
  · exact fun _ => hdots (infix_of_mem_splitOn h)
  · exact nofun

/-- What stands between separators is a name, unless it climbs. -/
theorem part_eq_normal {s : List Char} {c : Component} (h : part s = some c)
    (hc : c ≠ .parentDir) : ∃ name, c = .normal name := by
  unfold part at h
  split at h
  · cases h
  · cases h
  · exact absurd (Option.some.inj h).symm hc
  · exact ⟨_, (Option.some.inj h).symm⟩

/-- A text with another character than separators and dots has a component. -/
theorem part_ne_none {s : List Char} {c : Char} (h : c ∈ s) (hc : c ≠ '.') : part s ≠ none := by
  intro hpart
  unfold part at hpart
  split at hpart
  · cases h
  · exact hc (List.mem_singleton.1 h)
  · cases hpart
  · cases hpart

/-- A text that names one thing. -/
structure IsName (s : List Char) : Prop where
  ne_nil : s ≠ []
  slash : '/' ∉ s
  dot : '.' ∉ s

theorem IsName.splitOn {s : List Char} (h : IsName s) : s.splitOn '/' = [s] :=
  List.splitOn_eq_singleton h.slash

theorem IsName.part {s : List Char} (h : IsName s) : part s = some (.normal s) := by
  unfold FileSystem.part
  split
  · exact absurd rfl h.ne_nil
  · exact absurd (by simp) h.dot
  · exact absurd (by simp) h.dot
  · rfl

/-- `p` stands strictly below `dir`, by names only. -/
def Below (dir p : Path) : Prop :=
  ∃ rest, rest ≠ [] ∧ (∀ c ∈ rest, ∃ name, c = .normal name) ∧ p = dir ++ rest

end FileSystem
