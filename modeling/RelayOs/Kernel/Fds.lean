import RelayOs.Vfs.Contract

/-!
# A process's file descriptors

Thirty-two slots, each with a shared reference to an open file. What such a reference refers
to – the console, a file, an end of a pipe – is left open here: `F` is the type of the
references, and two of them are equal if they refer to the same open file.
-/

namespace RelayOs.Kernel

open Vfs

/-- Slots per process. -/
def fdSlots : ℕ := 32

/-- How many fds a `spawn` may hand on. -/
def spawnFds : ℕ := 8

/-- A child's fd, and the fd of its parent that it is to be. -/
structure FdMap where
  child : ℕ
  parent : ℕ
  deriving DecidableEq, Repr

/-- **The fds of a process.** -/
structure FdTable (F : Type) where
  slots : List (Option F)
  length_eq : slots.length = fdSlots

namespace FdTable

variable {F : Type}

/-- No fd open. -/
def new : FdTable F := ⟨List.replicate fdSlots none, List.length_replicate⟩

/-- Opens `file` as `fd`, closing what was there. -/
def set (t : FdTable F) (fd : ℕ) (file : Option F) : FdTable F :=
  ⟨t.slots.set fd file, by rw [List.length_set, t.length_eq]⟩

/-- Process 1's fds: the console as 0, 1 and 2. -/
def console (file : F) : FdTable F := ((new.set 0 (some file)).set 1 (some file)).set 2 (some file)

/-- The file open as `fd`; `EBADF` if none is. -/
def get (t : FdTable F) (fd : ℕ) : Except Errno F :=
  match t.slots[fd]?.join with
  | some file => .ok file
  | none => .error .EBADF

/-- **Opens `file` as the lowest fd that is free**; `EMFILE` if all are in use. -/
def insert (t : FdTable F) (file : F) : Except Errno (ℕ × FdTable F) :=
  match t.slots.findIdx? Option.isNone with
  | some fd => .ok (fd, t.set fd (some file))
  | none => .error .EMFILE

/-- **Closes `fd`**: the file, which lives on while anything else has it. -/
def remove (t : FdTable F) (fd : ℕ) : Except Errno (F × FdTable F) :=
  match t.slots[fd]?.join with
  | some file => .ok (file, t.set fd none)
  | none => .error .EBADF

/-- Every open file. -/
def files (t : FdTable F) : List F := t.slots.filterMap id

/-- How many fds are open. -/
def openCount (t : FdTable F) : ℕ := (t.slots.filter Option.isSome).length

/-- Hands on the files `maps` names, one after the other. -/
def giveEach (t : FdTable F) : List FdMap → FdTable F → Except Errno (FdTable F)
  | [], child => .ok child
  | m :: maps, child =>
    match t.get m.parent with
    | .error e => .error e
    | .ok file =>
      match child.slots[m.child]? with
      | none => .error .EBADF
      | some (some _) => .error .EINVAL
      | some none => t.giveEach maps (child.set m.child (some file))

/-- **A child's fds**: each one `maps` names gets the file this table has as the parent's fd,
every other one is closed. -/
def forChild (t : FdTable F) (maps : List FdMap) : Except Errno (FdTable F) :=
  if spawnFds < maps.length then .error .EINVAL else t.giveEach maps new

/-! ### Which files a table has -/

variable {t t' : FdTable F} {f file : F} {fd : ℕ}

theorem mem_files : f ∈ t.files ↔ ∃ i : ℕ, t.slots[i]? = some (some f) := by
  rw [files, List.mem_filterMap, ← List.mem_iff_getElem?]
  constructor
  · rintro ⟨x, hx, rfl⟩
    exact hx
  · intro hf
    exact ⟨some f, hf, rfl⟩

theorem files_new : (new : FdTable F).files = [] := by
  rw [files, new, List.filterMap_replicate_of_none rfl]

/-- What is in the slots after one of them is set. -/
theorem mem_set {x : Option F} (h : f ∈ (t.set fd x).files) : f ∈ t.files ∨ x = some f := by
  obtain ⟨i, hi⟩ := mem_files.mp h
  rw [set, List.getElem?_set] at hi
  split at hi
  · split at hi
    · exact Or.inr (Option.some.inj hi)
    · cases hi
  · exact Or.inl (mem_files.mpr ⟨i, hi⟩)

theorem mem_set_of_free {x : Option F} (hfree : t.slots[fd]?.join = none) (h : f ∈ t.files) :
    f ∈ (t.set fd x).files := by
  obtain ⟨i, hi⟩ := mem_files.mp h
  refine mem_files.mpr ⟨i, ?_⟩
  rw [set, List.getElem?_set_ne, hi]
  rintro rfl
  rw [hi] at hfree
  cases hfree

theorem mem_set_self (hfd : fd < fdSlots) : f ∈ (t.set fd (some f)).files := by
  refine mem_files.mpr ⟨fd, ?_⟩
  rw [set, List.getElem?_set_self (t.length_eq.symm ▸ hfd)]

theorem mem_of_get (h : t.get fd = .ok f) : f ∈ t.files := by
  rw [get] at h
  split at h
  · next file hfile =>
    cases h
    exact mem_files.mpr ⟨fd, Option.join_eq_some_iff.mp hfile⟩
  · cases h

theorem mem_insert (h : t.insert file = .ok (fd, t')) : f ∈ t'.files ↔ f ∈ t.files ∨ f = file := by
  rw [insert] at h
  split at h
  · next i hi =>
    cases h
    obtain ⟨hlt, hnone, -⟩ := List.findIdx?_eq_some_iff_getElem.mp hi
    have hfree : t.slots[fd]?.join = none := by
      rw [List.getElem?_eq_getElem hlt, Option.isNone_iff_eq_none.mp hnone]
      rfl
    constructor
    · intro hf
      refine (mem_set hf).imp_right fun he => ?_
      exact (Option.some.inj he).symm
    · rintro (hf | rfl)
      · exact mem_set_of_free hfree hf
      · exact mem_set_self (t.length_eq ▸ hlt)
  · cases h

theorem mem_remove (h : t.remove fd = .ok (file, t')) : f ∈ t.files ↔ f ∈ t'.files ∨ f = file := by
  rw [remove] at h
  split at h
  · next x hx =>
    cases h
    have hfile := Option.join_eq_some_iff.mp hx
    constructor
    · intro hf
      obtain ⟨i, hi⟩ := mem_files.mp hf
      by_cases he : fd = i
      · subst he
        rw [hfile] at hi
        exact Or.inr (Option.some.inj (Option.some.inj hi)).symm
      · exact Or.inl (mem_files.mpr ⟨i, by rw [set, List.getElem?_set_ne he, hi]⟩)
    · rintro (hf | rfl)
      · exact (mem_set hf).resolve_right nofun
      · exact mem_files.mpr ⟨fd, hfile⟩
  · cases h

theorem mem_giveEach {maps : List FdMap} {child : FdTable F} (h : t.giveEach maps child = .ok t')
    (hf : f ∈ t'.files) : f ∈ t.files ∨ f ∈ child.files := by
  induction maps generalizing child with
  | nil =>
    cases h
    exact Or.inr hf
  | cons m maps ih =>
    rw [giveEach] at h
    split at h
    · cases h
    · next file hfile =>
      split at h
      · cases h
      · cases h
      · rcases ih h with hin | hin
        · exact Or.inl hin
        · rcases mem_set hin with hin | he
          · exact Or.inr hin
          · cases he
            exact Or.inl (mem_of_get hfile)

/-- **A child has no file its parent does not have.** -/
theorem mem_forChild {maps : List FdMap} (h : t.forChild maps = .ok t') (hf : f ∈ t'.files) :
    f ∈ t.files := by
  rw [forChild] at h
  split at h
  · cases h
  · refine (mem_giveEach h hf).resolve_right ?_
    rw [files_new]
    exact List.not_mem_nil

end FdTable

end RelayOs.Kernel
