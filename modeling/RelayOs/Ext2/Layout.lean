import RelayOs.Ext2.Driver

/-!
# Where things are

The arithmetic of a checked geometry: every block belongs to one group, every inode to
one place in one group's inode table, and the metadata of the groups – bitmaps and inode
tables – lies inside the filesystem, each part apart from the others.
-/

namespace RelayOs.Ext2

/-! ### Rounding up -/

theorem lt_divCeil {n d k : ℕ} (hd : 0 < d) : k < divCeil n d ↔ k * d < n := by
  have hn := Nat.div_add_mod n d
  have hr := Nat.mod_lt n hd
  unfold divCeil
  rw [Nat.mul_comm] at hn
  split
  · rename_i h0
    rw [h0, Nat.add_zero] at hn
    rw [Nat.add_zero, ← Nat.mul_lt_mul_right hd, hn]
  · rename_i h0
    constructor
    · intro hk
      have := Nat.mul_le_mul_right d (Nat.lt_succ_iff.mp hk)
      omega
    · intro hk
      by_contra hge
      have := Nat.mul_le_mul_right d (not_lt.mp hge)
      rw [Nat.add_mul, Nat.one_mul] at this
      omega

namespace Geometry

variable (geo : Geometry)

/-! ### Blocks and groups -/

theorem blockSize_pos : 0 < geo.blockSize := by
  have := geo.blockSize_cases
  omega

theorem blockSize_le : geo.blockSize ≤ 4096 := by
  have := geo.blockSize_cases
  omega

theorem blockSize_ge : 1024 ≤ geo.blockSize := by
  have := geo.blockSize_cases
  omega

theorem blocksPerGroup_pos : 0 < geo.blocksPerGroup := by
  have := geo.blocksPerGroup_ge
  omega

theorem perBlock_pos : 0 < geo.perBlock := by
  have := geo.blockSize_ge
  unfold perBlock
  omega

/-- The group a block belongs to. -/
def groupOf (b : ℕ) : ℕ := (b - geo.firstDataBlock) / geo.blocksPerGroup

/-- A block's index in its group. -/
def indexOf (b : ℕ) : ℕ := (b - geo.firstDataBlock) % geo.blocksPerGroup

variable {g b ino : ℕ}

theorem lt_groups :
    g < geo.groups ↔ g * geo.blocksPerGroup < geo.blocksCount - geo.firstDataBlock := by
  rw [geo.groups_eq]
  exact lt_divCeil geo.blocksPerGroup_pos

theorem groups_pos : 0 < geo.groups := by
  have := geo.firstDataBlock_lt
  rw [geo.lt_groups]
  omega

variable {geo}

theorem groupStart_lt (hg : g < geo.groups) : geo.groupStart g < geo.blocksCount := by
  have := geo.lt_groups.mp hg
  unfold groupStart
  omega

theorem groupStart_add_groupBlocks_le (hg : g < geo.groups) :
    geo.groupStart g + geo.groupBlocks g ≤ geo.blocksCount := by
  have := groupStart_lt hg
  unfold groupBlocks
  omega

theorem groupBlocks_le (g : ℕ) : geo.groupBlocks g ≤ 8 * geo.blockSize := by
  have := geo.blocksPerGroup_le
  unfold groupBlocks
  omega

theorem groupOf_lt (hb : geo.firstDataBlock ≤ b) (hb' : b < geo.blocksCount) :
    geo.groupOf b < geo.groups := by
  have h := Nat.div_mul_le_self (b - geo.firstDataBlock) geo.blocksPerGroup
  rw [geo.lt_groups]
  unfold groupOf
  omega

theorem groupStart_groupOf (hb : geo.firstDataBlock ≤ b) :
    geo.groupStart (geo.groupOf b) + geo.indexOf b = b := by
  have h := Nat.div_add_mod (b - geo.firstDataBlock) geo.blocksPerGroup
  rw [Nat.mul_comm] at h
  unfold groupStart groupOf indexOf
  omega

theorem indexOf_lt (hb : geo.firstDataBlock ≤ b) (hb' : b < geo.blocksCount) :
    geo.indexOf b < geo.groupBlocks (geo.groupOf b) := by
  have h := groupStart_groupOf hb
  have hmod : geo.indexOf b < geo.blocksPerGroup := Nat.mod_lt _ geo.blocksPerGroup_pos
  unfold groupBlocks
  omega

theorem groupOf_eq {i : ℕ} (hi : i < geo.blocksPerGroup) :
    geo.groupOf (geo.groupStart g + i) = g ∧ geo.indexOf (geo.groupStart g + i) = i := by
  have h : geo.groupStart g + i - geo.firstDataBlock = i + g * geo.blocksPerGroup := by
    unfold groupStart
    omega
  unfold groupOf indexOf
  rw [h, Nat.add_mul_div_right _ _ geo.blocksPerGroup_pos, Nat.div_eq_of_lt hi, Nat.zero_add,
    Nat.add_mul_mod_self_right, Nat.mod_eq_of_lt hi]
  exact ⟨rfl, rfl⟩

theorem groupOf_of_inside (hb : geo.groupStart g ≤ b)
    (hb' : b < geo.groupStart g + geo.groupBlocks g) : geo.groupOf b = g := by
  obtain ⟨i, rfl⟩ := Nat.exists_eq_add_of_le hb
  refine (groupOf_eq ?_).1
  unfold groupBlocks at hb'
  omega

theorem firstDataBlock_le_groupStart (g : ℕ) : geo.firstDataBlock ≤ geo.groupStart g :=
  Nat.le_add_right _ _

theorem groupStart_lt_pow (hg : g < geo.groups) : geo.groupStart g < 2 ^ 32 :=
  lt_trans (groupStart_lt hg) geo.blocksCount_lt

theorem gdtBlocks_lt : geo.gdtBlocks < 2 ^ 16 := by
  by_contra h
  have hle : geo.groups ≤ 65536 := geo.groups_le
  have hlt : 65535 < geo.gdtBlocks := by omega
  rw [geo.gdtBlocks_eq, lt_divCeil geo.blockSize_pos] at hlt
  have := Nat.mul_le_mul_left 65535 geo.blockSize_ge
  unfold descSize at hlt
  omega

theorem superBlocks_lt (g : ℕ) : geo.superBlocks g < 2 ^ 32 := by
  have h1 := geo.gdtBlocks_lt
  have h2 := geo.reservedGdtBlocks_lt
  unfold superBlocks
  split <;> omega

/-! ### Inodes -/

theorem inodeTableBlocks_lt : geo.inodeTableBlocks < 2 ^ 32 := by
  by_contra h
  have hlt : 2 ^ 15 < geo.inodeTableBlocks := by omega
  rw [geo.inodeTableBlocks_eq, lt_divCeil geo.blockSize_pos] at hlt
  have hbytes := Nat.mul_le_mul geo.inodesPerGroup_le geo.inodeSize_le
  have hblock : 8 * geo.blockSize ≤ 2 ^ 15 := by
    rcases geo.blockSize_cases with h | h | h <;> omega
  have := Nat.mul_le_mul_right geo.blockSize hblock
  omega

theorem inodeSize_dvd : geo.inodeSize ∣ geo.blockSize := by
  obtain ⟨k, -, hk⟩ := geo.inodeSize_pow
  have hle := geo.inodeSize_le
  have hpow : ∃ n, geo.blockSize = 2 ^ n := by
    rcases geo.blockSize_cases with h | h | h
    · exact ⟨10, h⟩
    · exact ⟨11, h⟩
    · exact ⟨12, h⟩
  obtain ⟨n, hn⟩ := hpow
  rw [hk, hn] at hle ⊢
  exact pow_dvd_pow 2 ((Nat.pow_le_pow_iff_right (by norm_num)).mp hle)

theorem inodeSize_pos : 0 < geo.inodeSize := by
  have := geo.inodeSize_ge
  omega

/-- An inode number of the filesystem. -/
def InoOk (geo : Geometry) (ino : ℕ) : Prop := 1 ≤ ino ∧ ino ≤ geo.inodesCount

instance (geo : Geometry) (ino : ℕ) : Decidable (geo.InoOk ino) :=
  inferInstanceAs (Decidable (_ ∧ _))

/-- The group an inode belongs to. -/
def inoGroup (geo : Geometry) (ino : ℕ) : ℕ := (ino - 1) / geo.inodesPerGroup

/-- An inode's index in its group. -/
def inoIndex (geo : Geometry) (ino : ℕ) : ℕ := (ino - 1) % geo.inodesPerGroup

theorem inoGroup_lt (h : geo.InoOk ino) : geo.inoGroup ino < geo.groups := by
  obtain ⟨h1, h2⟩ := h
  rw [← geo.inodes_eq] at h2
  exact Nat.div_lt_of_lt_mul (by rw [Nat.mul_comm]; omega)

theorem inoIndex_lt (ino : ℕ) : geo.inoIndex ino < geo.inodesPerGroup :=
  Nat.mod_lt _ geo.inodesPerGroup_pos

theorem inoGroup_mul_add (h : 1 ≤ ino) :
    geo.inoGroup ino * geo.inodesPerGroup + geo.inoIndex ino + 1 = ino := by
  have := Nat.div_add_mod (ino - 1) geo.inodesPerGroup
  rw [Nat.mul_comm] at this
  unfold inoGroup inoIndex
  omega

theorem inoOk_of_group {i : ℕ} (hg : g < geo.groups) (hi : i < geo.inodesPerGroup) :
    geo.InoOk (g * geo.inodesPerGroup + i + 1) := by
  refine ⟨by omega, ?_⟩
  have := Nat.mul_le_mul_right geo.inodesPerGroup (Nat.succ_le_of_lt hg)
  rw [Nat.succ_mul, geo.inodes_eq] at this
  omega

/-- The byte of its group's inode table an inode starts at. -/
def inoByte (geo : Geometry) (ino : ℕ) : ℕ := geo.inoIndex ino * geo.inodeSize

theorem inoByte_div_lt (ino : ℕ) : geo.inoByte ino / geo.blockSize < geo.inodeTableBlocks := by
  rw [geo.inodeTableBlocks_eq, lt_divCeil geo.blockSize_pos]
  have h := Nat.div_mul_le_self (geo.inoByte ino) geo.blockSize
  have hlt : geo.inoByte ino < geo.inodesPerGroup * geo.inodeSize :=
    (Nat.mul_lt_mul_right geo.inodeSize_pos).mpr (geo.inoIndex_lt ino)
  omega

theorem inoByte_mod_add_le (ino : ℕ) :
    geo.inoByte ino % geo.blockSize + geo.inodeSize ≤ geo.blockSize := by
  obtain ⟨k, hk⟩ := geo.inodeSize_dvd
  -- the byte and the block size are both multiples of the inode size
  have hmod : geo.inoByte ino % geo.blockSize = geo.inodeSize * (geo.inoIndex ino % k) := by
    rw [hk, inoByte, Nat.mul_comm (geo.inoIndex ino), Nat.mul_mod_mul_left]
  have hkpos : 0 < k := by
    rcases Nat.eq_zero_or_pos k with rfl | h
    · have := geo.blockSize_pos
      omega
    · exact h
  have hlt := Nat.mod_lt (geo.inoIndex ino) hkpos
  calc geo.inoByte ino % geo.blockSize + geo.inodeSize
      = geo.inodeSize * (geo.inoIndex ino % k + 1) := by rw [hmod, Nat.mul_add, Nat.mul_one]
    _ ≤ geo.inodeSize * k := Nat.mul_le_mul_left _ hlt
    _ = geo.blockSize := hk.symm

theorem inoByte_disjoint {ino' : ℕ} (h : 1 ≤ ino) (h' : 1 ≤ ino')
    (hg : geo.inoGroup ino = geo.inoGroup ino')
    (hb : geo.inoByte ino / geo.blockSize = geo.inoByte ino' / geo.blockSize) (hne : ino ≠ ino') :
    geo.inoByte ino % geo.blockSize + geo.inodeSize ≤ geo.inoByte ino' % geo.blockSize ∨
      geo.inoByte ino' % geo.blockSize + geo.inodeSize ≤ geo.inoByte ino % geo.blockSize := by
  have hi : geo.inoIndex ino ≠ geo.inoIndex ino' := fun hi => by
    have h1 := @inoGroup_mul_add geo _ h
    have h2 := @inoGroup_mul_add geo _ h'
    rw [hg, hi] at h1
    omega
  have hd := Nat.div_add_mod (geo.inoByte ino) geo.blockSize
  have hd' := Nat.div_add_mod (geo.inoByte ino') geo.blockSize
  rw [hb] at hd
  have hstep : ∀ {i j : ℕ}, i < j → i * geo.inodeSize + geo.inodeSize ≤ j * geo.inodeSize :=
    fun hij => by
      have := Nat.mul_le_mul_right geo.inodeSize (Nat.succ_le_of_lt hij)
      rwa [Nat.succ_mul] at this
  rcases Nat.lt_or_gt_of_ne hi with hlt | hlt
  · have := hstep hlt
    unfold inoByte at *
    omega
  · have := hstep hlt
    unfold inoByte at *
    omega

end Geometry

/-! ### Metadata in memory -/

namespace Mem

variable {geo : Geometry}

/-- **Two memories place everything alike.** -/
structure Alike (m m' : Mem geo) : Prop where
  metadata_eq : ∀ g, m'.groups.metadata geo g = m.groups.metadata geo g

/-- **Two memories alike** in flags and in where everything is. -/
structure Same (m m' : Mem geo) : Prop extends m.Alike m' where
  readOnly_eq : m'.readOnly = m.readOnly
  neverWrite_eq : m'.neverWrite = m.neverWrite
  mountState_eq : m'.mountState = m.mountState

theorem Alike.trans {m m' m'' : Mem geo} (h : m.Alike m') (h' : m'.Alike m'') : m.Alike m'' :=
  ⟨fun g => (h'.metadata_eq g).trans (h.metadata_eq g)⟩

theorem Alike.symm {m m' : Mem geo} (h : m.Alike m') : m'.Alike m :=
  ⟨fun g => (h.metadata_eq g).symm⟩

namespace Same

variable {m m' m'' : Mem geo}

theorem refl (m : Mem geo) : m.Same m := ⟨⟨fun _ => rfl⟩, rfl, rfl, rfl⟩

theorem trans (h : m.Same m') (h' : m'.Same m'') : m.Same m'' :=
  ⟨h.toAlike.trans h'.toAlike, h'.readOnly_eq.trans h.readOnly_eq,
    h'.neverWrite_eq.trans h.neverWrite_eq,
    h'.mountState_eq.trans h.mountState_eq⟩

end Same

namespace Alike

variable {m m' : Mem geo}

theorem blockBitmap_eq (h : m.Alike m') (g : ℕ) :
    m'.groups.blockBitmap g = m.groups.blockBitmap g := by
  have := h.metadata_eq g
  simp only [Groups.metadata, List.cons.injEq, Groups.Extent.mk.injEq] at this
  exact this.2.1.1

theorem inodeBitmap_eq (h : m.Alike m') (g : ℕ) :
    m'.groups.inodeBitmap g = m.groups.inodeBitmap g := by
  have := h.metadata_eq g
  simp only [Groups.metadata, List.cons.injEq, Groups.Extent.mk.injEq] at this
  exact this.2.2.1.1

theorem inodeTable_eq (h : m.Alike m') (g : ℕ) :
    m'.groups.inodeTable g = m.groups.inodeTable g := by
  have := h.metadata_eq g
  simp only [Groups.metadata, List.cons.injEq, Groups.Extent.mk.injEq] at this
  exact this.2.2.2.1.1

theorem isMetadata_eq (h : m.Alike m') (b : ℕ) :
    m'.groups.isMetadata geo b = m.groups.isMetadata geo b := by
  unfold Groups.isMetadata
  simp only [h.metadata_eq, m.count_eq, m'.count_eq]

end Alike

variable (m : Mem geo)

variable {g b : ℕ} {e : Groups.Extent}

theorem same_setCount {field v : ℕ} (hf : 12 ≤ field) (hf' : field + 2 ≤ descSize) :
    m.Same (m.setCount g field v hf hf') :=
  ⟨⟨fun g' => m.groups.metadata_set16 hf hf' g v geo g'⟩, rfl, rfl, rfl⟩

theorem same_setSb (sb : Superblock) : m.Same (m.setSb sb) := ⟨⟨fun _ => rfl⟩, rfl, rfl, rfl⟩

theorem same_countFreeBlocks (g : ℕ) (delta : ℤ) : m.Same (m.countFreeBlocks g delta) :=
  (m.same_setCount le_rfl (by decide)).trans (same_setSb _ _)

theorem same_countUsedDirs (g : ℕ) (delta : ℤ) (dir : Bool) :
    m.Same (m.countUsedDirs g delta dir) := by
  unfold countUsedDirs
  split
  · exact m.same_setCount (by decide) (by decide)
  · exact Same.refl m

theorem same_countFreeInodes (g : ℕ) (delta : ℤ) (dir : Bool) :
    m.Same (m.countFreeInodes g delta dir) :=
  ((m.same_setCount (by decide) (by decide)).trans (same_countUsedDirs _ g (-delta) dir)).trans
    (same_setSb _ _)

/-! ### Parts of the metadata -/

theorem inside (hg : g < geo.groups) (he : e ∈ m.groups.metadata geo g) :
    geo.groupStart g ≤ e.first ∧ e.first + e.len ≤ geo.groupStart g + geo.groupBlocks g :=
  m.placed.inside g (by rw [m.count_eq]; exact hg) e he

/-- A block of a group's metadata is metadata, and belongs to the group. -/
theorem of_holds (hg : g < geo.groups) (he : e ∈ m.groups.metadata geo g) (hb : e.Holds b) :
    b < geo.blocksCount ∧ geo.firstDataBlock ≤ b ∧ geo.groupOf b = g ∧
      m.groups.isMetadata geo b = true := by
  obtain ⟨hin, hin'⟩ := m.inside hg he
  obtain ⟨hb1, hb2⟩ := hb
  have hend := Geometry.groupStart_add_groupBlocks_le hg
  have hfirst := geo.firstDataBlock_le_groupStart g
  have hgroup : geo.groupOf b = g := Geometry.groupOf_of_inside (by omega) (by omega)
  refine ⟨by omega, by omega, hgroup, ?_⟩
  unfold Groups.isMetadata
  rw [if_neg (by omega)]
  change (decide (geo.groupOf b < m.groups.count) &&
    (m.groups.metadata geo (geo.groupOf b)).any fun e => decide (e.Holds b)) = true
  rw [hgroup, m.count_eq, decide_eq_true hg, Bool.true_and, List.any_eq_true]
  exact ⟨e, he, decide_eq_true ⟨hb1, hb2⟩⟩

theorem isMetadata_iff (hb : b < geo.blocksCount) :
    m.groups.isMetadata geo b = true ↔ b < geo.firstDataBlock ∨
      ∃ e ∈ m.groups.metadata geo (geo.groupOf b), e.Holds b := by
  unfold Groups.isMetadata
  split
  · rename_i h
    simp [h]
  · rename_i h
    have hg := Geometry.groupOf_lt (not_lt.mp h) hb
    change (decide (geo.groupOf b < m.groups.count) &&
      (m.groups.metadata geo (geo.groupOf b)).any fun e => decide (e.Holds b)) = true ↔ _
    rw [m.count_eq, decide_eq_true hg, Bool.true_and, List.any_eq_true]
    simp only [decide_eq_true_eq, h, false_or]

/-- Two different parts of one group's metadata share no block. -/
theorem apart (hg : g < geo.groups) {d : Groups.Extent}
    (hd : d ∈ m.groups.metadata geo g) (he : e ∈ m.groups.metadata geo g) (hne : d.what ≠ e.what)
    (hb : d.Holds b) : ¬e.Holds b := by
  intro hb'
  have hover : d.Overlaps e ∧ e.Overlaps d := by
    unfold Groups.Extent.Overlaps Groups.Extent.Holds at *
    omega
  have hpair := m.placed.disjoint g (by rw [m.count_eq]; exact hg)
  simp only [Groups.metadata, List.pairwise_cons, List.mem_cons, List.not_mem_nil, or_false]
    at hpair hd he
  obtain ⟨h0, h1, h2, -⟩ := hpair
  rcases hd with rfl | rfl | rfl | rfl <;> rcases he with rfl | rfl | rfl | rfl <;>
    first
      | exact hne rfl
      | exact h0 _ (by simp) hover.1
      | exact h0 _ (by simp) hover.2
      | exact h1 _ (by simp) hover.1
      | exact h1 _ (by simp) hover.2
      | exact h2 _ (by simp) hover.1
      | exact h2 _ (by simp) hover.2

theorem part_eq {g' : ℕ} (hg : g < geo.groups) (hg' : g' < geo.groups) {d : Groups.Extent}
    (hd : d ∈ m.groups.metadata geo g) (he : e ∈ m.groups.metadata geo g') (hdb : d.Holds b)
    (heb : e.Holds b) :
    g = g' ∧ d.what = e.what := by
  have h := (m.of_holds hg hd hdb).2.2.1
  have h' := (m.of_holds hg' he heb).2.2.1
  obtain rfl : g = g' := h.symm.trans h'
  exact ⟨rfl, by_contra fun hne => m.apart hg hd he hne hdb heb⟩

theorem mem_blockBitmap (g : ℕ) :
    (⟨m.groups.blockBitmap g, 1, .blockBitmap⟩ : Groups.Extent) ∈ m.groups.metadata geo g := by
  simp [Groups.metadata]

theorem mem_inodeBitmap (g : ℕ) :
    (⟨m.groups.inodeBitmap g, 1, .inodeBitmap⟩ : Groups.Extent) ∈ m.groups.metadata geo g := by
  simp [Groups.metadata]

theorem mem_inodeTable (g : ℕ) :
    (⟨m.groups.inodeTable g, geo.inodeTableBlocks, .inodeTable⟩ : Groups.Extent) ∈
      m.groups.metadata geo g := by
  simp [Groups.metadata]

/-- A block pointer may lead here: inside the filesystem, and no metadata. -/
def DataBlock (b : ℕ) : Prop := b < geo.blocksCount ∧ m.groups.isMetadata geo b = false

/-- A block of a group's bitmaps. -/
def BitmapBlock (b : ℕ) : Prop :=
  ∃ g < geo.groups, b = m.groups.blockBitmap g ∨ b = m.groups.inodeBitmap g

/-- A block of a group's inode table. -/
def TableBlock (b : ℕ) : Prop :=
  ∃ g < geo.groups, m.groups.inodeTable g ≤ b ∧ b < m.groups.inodeTable g + geo.inodeTableBlocks

/-- **The block is what it is taken for**: what a pointer leads to holds no metadata, and what is
taken for metadata is that part of it. -/
def Fits : Use → ℕ → Prop
  | .bitmap, b => m.BitmapBlock b
  | .inodes, b => m.TableBlock b
  | .pointers, b => m.DataBlock b
  | .content, b => m.DataBlock b
  | .superblock, b => ∃ g < geo.groups, geo.hasSuper g = true ∧ b = (geo.superLocation g).1
  | .descriptors, b => ∃ i < geo.gdtBlocks, b = geo.firstDataBlock + 1 + i

/-- The block may be replaced as a whole: it is what it is taken for, and no part of it is of
another's. -/
def Overwritable (use : Use) (b : ℕ) : Prop :=
  m.Fits use b ∧ (use = .pointers ∨ use = .content ∨ use = .descriptors)

variable {m}

theorem metadataFits (m : Mem geo) (b : ℕ) : m.MetadataFits b := by
  refine ⟨geo.blocksPerGroup_pos.ne', fun hg => ?_⟩
  rw [m.count_eq] at hg
  have hstart := Geometry.groupStart_lt_pow hg
  refine ⟨by omega, geo.superBlocks_lt _, fun e he => ?_⟩
  have h1 := m.inside hg he
  have h2 := Geometry.groupStart_add_groupBlocks_le hg
  have h3 := geo.blocksCount_lt
  omega

/-- The block holding inode `ino`, and its offset there. -/
def location (m : Mem geo) (ino : ℕ) : ℕ × ℕ :=
  (m.groups.inodeTable (geo.inoGroup ino) + geo.inoByte ino / geo.blockSize,
    geo.inoByte ino % geo.blockSize)

theorem tableBlock_location {ino : ℕ} (h : geo.InoOk ino) : m.TableBlock (m.location ino).1 := by
  refine ⟨geo.inoGroup ino, Geometry.inoGroup_lt h, Nat.le_add_right _ _, ?_⟩
  have := geo.inoByte_div_lt ino
  unfold location
  omega

theorem Alike.location_eq {m' : Mem geo} (h : m.Alike m') (ino : ℕ) :
    m'.location ino = m.location ino := by
  unfold location
  rw [h.inodeTable_eq]

end Mem

end RelayOs.Ext2
