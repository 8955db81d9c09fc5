import RelayOs.Ext2.Superblock

/-!
# Block group descriptors

The group descriptor table is kept in memory as raw bytes. Of each descriptor the driver
uses six fields: where the group's two bitmaps and its inode table are, which never
change, and three counts, which do.
-/

namespace RelayOs.Ext2

/-- **The group descriptor table**, with a note of whether it changed since it was last
written. -/
structure Groups where
  raw : Bytes
  count : ℕ
  dirty : Bool
  count_le : count * descSize ≤ raw.length

namespace Groups

/-- The table in `raw` (whole blocks) for `count` groups; asserts that it holds them. -/
def new (raw : Bytes) (count : ℕ) : Option Groups :=
  if h : count * descSize ≤ raw.length then some ⟨raw, count, false, h⟩ else none

/-- The table has been written. -/
def setClean (t : Groups) : Groups := { t with dirty := false }

/-- Sets a 16-bit field of group `g`'s descriptor. -/
def set16 (t : Groups) (g field v : ℕ) : Groups where
  raw := setU16 t.raw (g * descSize + field) v
  count := t.count
  dirty := true
  count_le := by
    rw [length_setU16]
    exact t.count_le

/-- The block of a group's block bitmap. -/
def blockBitmap (t : Groups) (g : ℕ) : ℕ := u32At t.raw (g * descSize)

/-- The block of a group's inode bitmap. -/
def inodeBitmap (t : Groups) (g : ℕ) : ℕ := u32At t.raw (g * descSize + 4)

/-- The first block of a group's inode table. -/
def inodeTable (t : Groups) (g : ℕ) : ℕ := u32At t.raw (g * descSize + 8)

/-- The free blocks of a group. -/
def freeBlocks (t : Groups) (g : ℕ) : ℕ := u16At t.raw (g * descSize + 12)

/-- Sets the count of free blocks of a group. -/
def setFreeBlocks (t : Groups) (g n : ℕ) : Groups := t.set16 g 12 n

/-- The free inodes of a group. -/
def freeInodes (t : Groups) (g : ℕ) : ℕ := u16At t.raw (g * descSize + 14)

/-- Sets the count of free inodes of a group. -/
def setFreeInodes (t : Groups) (g n : ℕ) : Groups := t.set16 g 14 n

/-- The directories of a group. -/
def usedDirs (t : Groups) (g : ℕ) : ℕ := u16At t.raw (g * descSize + 16)

/-- Sets the count of directories of a group. -/
def setUsedDirs (t : Groups) (g n : ℕ) : Groups := t.set16 g 16 n

/-! ### Metadata -/

/-- What a part of a group's metadata is. -/
inductive Part
  | superblockCopy | blockBitmap | inodeBitmap | inodeTable
  deriving DecidableEq, Repr

/-- A run of blocks holding a part of a group's metadata. -/
structure Extent where
  first : ℕ
  len : ℕ
  what : Part

/-- The extent holds `block`. -/
def Extent.Holds (e : Extent) (block : ℕ) : Prop := e.first ≤ block ∧ block < e.first + e.len

instance (e : Extent) (block : ℕ) : Decidable (e.Holds block) :=
  inferInstanceAs (Decidable (_ ∧ _))

/-- Two extents share blocks. -/
def Extent.Overlaps (a b : Extent) : Prop :=
  0 < a.len ∧ 0 < b.len ∧ a.first < b.first + b.len ∧ b.first < a.first + a.len

instance (a b : Extent) : Decidable (a.Overlaps b) :=
  inferInstanceAs (Decidable (_ ∧ _ ∧ _ ∧ _))

/-- Group `g`'s metadata: its superblock and descriptor copy, bitmaps and inode table. -/
def metadata (t : Groups) (geo : Geometry) (g : ℕ) : List Extent :=
  [⟨geo.groupStart g, geo.superBlocks g, .superblockCopy⟩,
    ⟨t.blockBitmap g, 1, .blockBitmap⟩,
    ⟨t.inodeBitmap g, 1, .inodeBitmap⟩,
    ⟨t.inodeTable g, geo.inodeTableBlocks, .inodeTable⟩]

/-- **Whether `block` holds metadata**: a superblock or descriptor copy (reserved
descriptor blocks included), a bitmap or an inode table, or lies before the first
group. -/
def isMetadata (t : Groups) (geo : Geometry) (block : ℕ) : Bool :=
  if block < geo.firstDataBlock then true
  else
    let g := (block - geo.firstDataBlock) / geo.blocksPerGroup
    decide (g < t.count) && (t.metadata geo g).any fun e => decide (e.Holds block)

/-! ### The mount check -/

/-- Why a descriptor table is refused. -/
inductive Misplaced
  | outside (g : ℕ) (what : Part)
  | overlaps (g : ℕ) (what other : Part)
  deriving DecidableEq, Repr

/-- The extent does not lie inside group `g`. -/
def Extent.Outside (geo : Geometry) (g : ℕ) (e : Extent) : Prop :=
  e.first < geo.groupStart g ∨ e.first + e.len > geo.groupStart g + geo.groupBlocks g

instance (geo : Geometry) (g : ℕ) (e : Extent) : Decidable (e.Outside geo g) :=
  inferInstanceAs (Decidable (_ ∨ _))

/-- Every pair of list elements, in the order two nested loops meet them. -/
def pairs {α : Type} : List α → List (α × α)
  | [] => []
  | a :: l => l.map (fun b => (a, b)) ++ pairs l

/-- What is wrong with group `g`. -/
def checkGroup (t : Groups) (geo : Geometry) (g : ℕ) : Option Misplaced :=
  match (t.metadata geo g).find? fun e => decide (e.Outside geo g) with
  | some e => some (.outside g e.what)
  | none =>
    match (pairs (t.metadata geo g)).find? fun ab => decide (ab.1.Overlaps ab.2) with
    | some ab => some (.overlaps g ab.1.what ab.2.what)
    | none => none

/-- **Checks that every group's metadata lies inside the group** and does not overlap:
writing one part must never overwrite another. -/
def check (t : Groups) (geo : Geometry) : Except Misplaced Unit :=
  match (List.range t.count).findSome? (t.checkGroup geo) with
  | some why => .error why
  | none => .ok ()

/-- **The check's own arithmetic comes out**: no group starts past the end, where `groupBlocks`
would subtract below zero, and no sum leaves its machine type. -/
def Checkable (t : Groups) (geo : Geometry) : Prop :=
  ∀ g < t.count, geo.groupStart g ≤ geo.blocksCount ∧ geo.superBlocks g < 2 ^ 32 ∧
    ∀ e ∈ t.metadata geo g, e.first + e.len < 2 ^ 64

instance (t : Groups) (geo : Geometry) : Decidable (t.Checkable geo) :=
  inferInstanceAs (Decidable (∀ g < t.count, _ ∧ _ ∧ _))

/-- **What the check makes sure of.** -/
structure Placed (t : Groups) (geo : Geometry) : Prop where
  inside : ∀ g < t.count, ∀ e ∈ t.metadata geo g, geo.groupStart g ≤ e.first ∧
    e.first + e.len ≤ geo.groupStart g + geo.groupBlocks g
  disjoint : ∀ g < t.count, (t.metadata geo g).Pairwise fun a b => ¬a.Overlaps b

theorem pairwise_of_pairs {α : Type} {r : α → α → Prop} {l : List α}
    (h : ∀ ab ∈ pairs l, r ab.1 ab.2) : l.Pairwise r := by
  induction l with
  | nil => exact List.Pairwise.nil
  | cons a l ih =>
    simp only [pairs, List.mem_append, List.mem_map] at h
    refine List.pairwise_cons.mpr ⟨fun b hb => h (a, b) (Or.inl ⟨b, hb, rfl⟩), ih fun ab hab => ?_⟩
    exact h ab (Or.inr hab)

theorem Placed.of_check {t : Groups} {geo : Geometry} (h : t.check geo = .ok ()) :
    t.Placed geo := by
  have hall : ∀ g < t.count, t.checkGroup geo g = none := fun g hg => by
    unfold check at h
    split at h
    · cases h
    · rename_i hnone
      exact List.findSome?_eq_none_iff.mp hnone g (List.mem_range.mpr hg)
  -- a group with nothing wrong passed both searches
  have hgroup : ∀ g < t.count,
      (t.metadata geo g).find? (fun e => decide (e.Outside geo g)) = none ∧
      (pairs (t.metadata geo g)).find? (fun ab => decide (ab.1.Overlaps ab.2)) = none := by
    intro g hg
    have hnone := hall g hg
    unfold checkGroup at hnone
    split at hnone
    · cases hnone
    · rename_i hin
      split at hnone
      · cases hnone
      · rename_i hov
        exact ⟨hin, hov⟩
  refine ⟨fun g hg e he => ?_, fun g hg => pairwise_of_pairs fun ab hab => ?_⟩
  · have hin : ¬e.Outside geo g := fun hout =>
      List.find?_eq_none.mp (hgroup g hg).1 e he (decide_eq_true hout)
    unfold Extent.Outside at hin
    omega
  · have hov := List.find?_eq_none.mp (hgroup g hg).2 ab hab
    simpa only [decide_eq_true_eq] using hov

/-! ### Changing a count leaves the placement alone -/

section Set16

variable (t : Groups) {field : ℕ} (hf : 12 ≤ field) (hf' : field + 2 ≤ descSize) (g v : ℕ)
include hf hf'

theorem u32At_set16 {k : ℕ} (hk : k + 4 ≤ 12) (g' : ℕ) :
    u32At (t.set16 g field v).raw (g' * descSize + k) = u32At t.raw (g' * descSize + k) := by
  refine u32At_splice_of_disjoint _ ?_
  rw [length_u16Bytes]
  unfold descSize at *
  omega

theorem metadata_set16 (geo : Geometry) (g' : ℕ) :
    (t.set16 g field v).metadata geo g' = t.metadata geo g' := by
  have hbb : (t.set16 g field v).blockBitmap g' = t.blockBitmap g' :=
    t.u32At_set16 hf hf' g v (show 0 + 4 ≤ 12 by omega) g'
  have hib : (t.set16 g field v).inodeBitmap g' = t.inodeBitmap g' :=
    t.u32At_set16 hf hf' g v (show 4 + 4 ≤ 12 by omega) g'
  have hit : (t.set16 g field v).inodeTable g' = t.inodeTable g' :=
    t.u32At_set16 hf hf' g v (show 8 + 4 ≤ 12 by omega) g'
  unfold metadata
  rw [hbb, hib, hit]

theorem Placed.set16 {t : Groups} {geo : Geometry} (h : t.Placed geo) :
    (t.set16 g field v).Placed geo where
  inside g' hg' e he := by
    rw [t.metadata_set16 hf hf'] at he
    exact h.inside g' hg' e he
  disjoint g' hg' := by
    rw [t.metadata_set16 hf hf']
    exact h.disjoint g' hg'

end Set16

end Groups

end RelayOs.Ext2
