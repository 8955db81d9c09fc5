import RelayOs.Lib.Fields

/-!
# The superblock and the geometry it gives

The raw 1024 bytes of the superblock are kept and patched in place, so fields this
driver does not know survive a rewrite. `RelayOs.Ext2.Superblock.check` looks at them
once, at mount, and turns them into a `RelayOs.Ext2.Geometry`: the numbers every later
computation divides by, multiplies with or indexes with.
-/

namespace RelayOs.Ext2

/-- Where the superblock starts on the device, whatever the block size. -/
def superblockOffset : ℕ := 1024

/-- The length of the superblock in bytes. -/
def superblockSize : ℕ := 1024

/-- The root directory's inode. -/
def rootIno : ℕ := 2

/-- Bytes per group descriptor. -/
def descSize : ℕ := 32

/-- The most groups mounted. -/
def maxGroups : ℕ := 2 ^ 16

/-- The quotient, rounded up. -/
def divCeil (n d : ℕ) : ℕ := n / d + if n % d = 0 then 0 else 1

/-! ### The raw superblock -/

/-- **The superblock**, with a note of whether it changed since it was last written. -/
structure Superblock where
  raw : Block superblockSize
  dirty : Bool

namespace Superblock

/-- Wraps the first 1024 bytes of `raw`; there is nothing to wrap in fewer. -/
def new (raw : Bytes) : Option Superblock :=
  if h : superblockSize ≤ raw.length then
    some ⟨⟨raw.take superblockSize, by rw [List.length_take]; omega⟩, false⟩
  else none

/-- The 16-bit field at `i`. -/
def u16 (sb : Superblock) (i : ℕ) : ℕ := u16At sb.raw.val i

/-- The 32-bit field at `i`. -/
def u32 (sb : Superblock) (i : ℕ) : ℕ := u32At sb.raw.val i

/-- Sets a 16-bit field. Only a real change makes the superblock dirty. -/
def setU16 (sb : Superblock) (i v : ℕ) : Superblock :=
  if sb.u16 i = v then sb
  else ⟨⟨RelayOs.setU16 sb.raw.val i v, (length_setU16 _ i v).trans sb.raw.property⟩, true⟩

/-- Sets a 32-bit field. Only a real change makes the superblock dirty. -/
def setU32 (sb : Superblock) (i v : ℕ) : Superblock :=
  if sb.u32 i = v then sb
  else ⟨⟨RelayOs.setU32 sb.raw.val i v, (length_setU32 _ i v).trans sb.raw.property⟩, true⟩

/-- Notes that every copy has been written. -/
def setClean (sb : Superblock) : Superblock := { sb with dirty := false }

/-- The copy of group `group`, laid over a block from byte `offset` on. -/
def copyTo (sb : Superblock) (offset group : ℕ) : Edit :=
  (Edit.splice offset sb.raw.val).andThen (.u16 (offset + 90) (group % 2 ^ 16))

/-- Blocks reserved for root. -/
def rBlocksCount (sb : Superblock) : ℕ := sb.u32 8

/-- The free blocks of the filesystem. -/
def freeBlocksCount (sb : Superblock) : ℕ := sb.u32 12

/-- Sets the count of free blocks. -/
def setFreeBlocksCount (sb : Superblock) (n : ℕ) : Superblock := sb.setU32 12 n

/-- The free inodes of the filesystem. -/
def freeInodesCount (sb : Superblock) : ℕ := sb.u32 16

/-- Sets the count of free inodes. -/
def setFreeInodesCount (sb : Superblock) (n : ℕ) : Superblock := sb.setU32 16 n

/-- The state: clean or not. -/
def state (sb : Superblock) : ℕ := sb.u16 58

/-- Sets the state: clean or not. -/
def setState (sb : Superblock) (n : ℕ) : Superblock := sb.setU16 58 n

/-- How often it was mounted since the last check. -/
def mntCount (sb : Superblock) : ℕ := sb.u16 52

/-- Sets the count of mounts. -/
def setMntCount (sb : Superblock) (n : ℕ) : Superblock := sb.setU16 52 n

/-- The last mount time. -/
def setMtime (sb : Superblock) (t : ℕ) : Superblock := sb.setU32 44 t

/-- The last write time, set as the superblock is written: it is no change of its own. -/
def stampWtime (sb : Superblock) (t : ℕ) : Superblock :=
  { sb with raw := ⟨RelayOs.setU32 sb.raw.val 48 t, (length_setU32 _ 48 t).trans sb.raw.property⟩ }

/-- The features without which it may only be read. -/
def featureRoCompat (sb : Superblock) : ℕ := sb.u32 100

/-- Sets the features without which it may only be read. -/
def setFeatureRoCompat (sb : Superblock) (bits : ℕ) : Superblock := sb.setU32 100 bits

/-- The ro_compat features this driver cannot keep consistent: all but `sparse_super` and
`large_file`. -/
def unsupportedRoCompat (sb : Superblock) : ℕ := sb.featureRoCompat &&& (2 ^ 32 - 1 - 3)

end Superblock

/-- The bit of `s_state` that says the filesystem was cleanly unmounted. -/
def stateValid : ℕ := 1

/-! ### Geometry -/

/-- Which groups hold a backup of the superblock and group descriptors. -/
inductive Backups
  | all
  | sparse
  | listed (a b : ℕ)
  deriving DecidableEq, Repr

/-- **What the mount checks derive from a valid superblock.** -/
structure Geometry where
  blockSize : ℕ
  blocksCount : ℕ
  inodesCount : ℕ
  firstDataBlock : ℕ
  blocksPerGroup : ℕ
  inodesPerGroup : ℕ
  inodeSize : ℕ
  firstIno : ℕ
  groups : ℕ
  gdtBlocks : ℕ
  reservedGdtBlocks : ℕ
  inodeTableBlocks : ℕ
  backups : Backups
  filetype : Bool
  blockSize_cases : blockSize = 1024 ∨ blockSize = 2048 ∨ blockSize = 4096
  blocksCount_lt : blocksCount < 2 ^ 32
  inodesCount_lt : inodesCount < 2 ^ 32
  firstDataBlock_eq : firstDataBlock = if blockSize = 1024 then 1 else 0
  firstDataBlock_lt : firstDataBlock < blocksCount
  blocksPerGroup_ge : 8 ≤ blocksPerGroup
  blocksPerGroup_le : blocksPerGroup ≤ 8 * blockSize
  inodesPerGroup_pos : 0 < inodesPerGroup
  inodesPerGroup_le : inodesPerGroup ≤ 8 * blockSize
  inodeSize_pow : ∃ k < 32, inodeSize = 2 ^ k
  inodeSize_ge : 128 ≤ inodeSize
  inodeSize_le : inodeSize ≤ blockSize
  firstIno_gt : rootIno < firstIno
  firstIno_le : firstIno ≤ inodesCount
  groups_eq : groups = divCeil (blocksCount - firstDataBlock) blocksPerGroup
  groups_le : groups ≤ maxGroups
  inodes_eq : groups * inodesPerGroup = inodesCount
  gdtBlocks_eq : gdtBlocks = divCeil (groups * descSize) blockSize
  gdtBlocks_le : firstDataBlock + 1 + gdtBlocks ≤ blocksCount
  reservedGdtBlocks_lt : reservedGdtBlocks < 2 ^ 16
  inodeTableBlocks_eq : inodeTableBlocks = divCeil (inodesPerGroup * inodeSize) blockSize

namespace Geometry

/-- The loop `has_super` finds powers with: `n` is multiplied by `base`, without wrapping around,
until it is `g` or more. -/
def powerLoop (base g : ℕ) : ℕ → ℕ → ℕ
  | 0, n => n
  | turns + 1, n => if n < g then powerLoop base g turns (min (n * base) (2 ^ 32 - 1)) else n

/-- Whether `g` is a power of `base`. -/
def powerOf (base g : ℕ) : Bool := powerLoop base g g 1 == g

variable (geo : Geometry)

/-- The first block of group `g`. -/
def groupStart (g : ℕ) : ℕ := geo.firstDataBlock + g * geo.blocksPerGroup

/-- The blocks in group `g`: the last group may be short. -/
def groupBlocks (g : ℕ) : ℕ := min (geo.blocksCount - geo.groupStart g) geo.blocksPerGroup

/-- Whether group `g` starts with a copy of the superblock and the group descriptors
(group 0 holds the primary ones). -/
def hasSuper (g : ℕ) : Bool :=
  if g = 0 then true
  else match geo.backups with
    | .all => true
    | .sparse => powerOf 3 g || powerOf 5 g || powerOf 7 g
    | .listed a b => a == g || b == g

/-- Blocks at the start of group `g` taken by its superblock and descriptor copy,
reserved descriptor blocks included. -/
def superBlocks (g : ℕ) : ℕ :=
  if geo.hasSuper g then 1 + geo.gdtBlocks + geo.reservedGdtBlocks else 0

/-- Where group `g`'s copy of the superblock is: its block, and the byte there. -/
def superLocation (g : ℕ) : ℕ × ℕ :=
  if g = 0 then (superblockOffset / geo.blockSize, superblockOffset % geo.blockSize)
  else (geo.groupStart g, 0)

/-- Blocks holding metadata, as Linux counts them for `statfs`. -/
def overhead : ℕ :=
  geo.firstDataBlock + ((List.range geo.groups).filter geo.hasSuper).length * (1 + geo.gdtBlocks) +
    geo.groups * (2 + geo.inodeTableBlocks)

/-- Pointers per indirect block. -/
def perBlock : ℕ := geo.blockSize / 4

end Geometry

/-! ### The mount check -/

/-- Why a filesystem is not mounted. -/
inductive Refusal
  | badMagic (magic : ℕ)
  | revision (rev : ℕ)
  | incompat (bits : ℕ)
  | blockSize (log : ℕ)
  | inodeSize (size : ℕ)
  | firstDataBlock (block : ℕ)
  | blockCount (blocks : ℕ)
  | blocksPerGroup (n : ℕ)
  | inodesPerGroup (n : ℕ)
  | tooManyGroups (groups : ℕ)
  | inodeCount (inodes groups ipg : ℕ)
  | firstInode (ino : ℕ)
  | larger (fsBytes deviceBytes : ℕ)
  | descriptorsOutside
  deriving DecidableEq, Repr

namespace Superblock

/-- The backup scheme the feature bits name: `sparse_super2`, `sparse_super` or neither. -/
def backups (sb : Superblock) : Backups :=
  if sb.u32 92 &&& 0x200 ≠ 0 then .listed (sb.u32 0x24C) (sb.u32 0x250)
  else if sb.featureRoCompat &&& 1 ≠ 0 then .sparse
  else .all

/-- **Checks the superblock** of a filesystem on a device of `deviceBytes`; `none` if a
multiplication of 32-bit numbers on the way would overflow. -/
def check (sb : Superblock) (deviceBytes : ℕ) : Option (Except Refusal Geometry) :=
  let log := sb.u32 24
  let blockSize := 1024 * 2 ^ log
  let inodeSize := sb.u16 88
  let blocks := sb.u32 4
  let inodes := sb.u32 0
  let firstDataBlock := sb.u32 20
  let bpg := sb.u32 32
  let ipg := sb.u32 40
  let groups := divCeil (blocks - firstDataBlock) bpg
  let firstIno := sb.u32 84
  let gdtBlocks := divCeil (groups * descSize) blockSize
  if sb.u16 56 ≠ 0xEF53 then some (.error (.badMagic (sb.u16 56)))
  else if sb.u32 76 ≠ 1 then some (.error (.revision (sb.u32 76)))
  else if sb.u32 96 &&& (2 ^ 32 - 1 - 2) ≠ 0 then
    some (.error (.incompat (sb.u32 96 &&& (2 ^ 32 - 1 - 2))))
  else if hlog : log > 2 then some (.error (.blockSize log))
  else if hsize : ¬((∃ k < 32, inodeSize = 2 ^ k) ∧ 128 ≤ inodeSize ∧ inodeSize ≤ blockSize) then
    some (.error (.inodeSize inodeSize))
  -- the superblock is always in the first data block
  else if hfirst : firstDataBlock ≠ if blockSize = 1024 then 1 else 0 then
    some (.error (.firstDataBlock firstDataBlock))
  else if hblocks : blocks ≤ firstDataBlock then some (.error (.blockCount blocks))
  else if hbpg : bpg < 8 ∨ bpg > 8 * blockSize then some (.error (.blocksPerGroup bpg))
  else if hipg : ipg = 0 ∨ ipg > 8 * blockSize then some (.error (.inodesPerGroup ipg))
  else if hgroups : groups > maxGroups then some (.error (.tooManyGroups groups))
  else if hinodes : groups * ipg ≠ inodes then some (.error (.inodeCount inodes groups ipg))
  else if hino : firstIno ≤ rootIno ∨ firstIno > inodes then some (.error (.firstInode firstIno))
  else if blocks * blockSize > deviceBytes then
    some (.error (.larger (blocks * blockSize) deviceBytes))
  else if hgdt : firstDataBlock + 1 + gdtBlocks > blocks then some (.error .descriptorsOutside)
  else if ¬(ipg * inodeSize < 2 ^ 32) then none
  else some (.ok
    { blockSize := blockSize
      blocksCount := blocks
      inodesCount := inodes
      firstDataBlock := firstDataBlock
      blocksPerGroup := bpg
      inodesPerGroup := ipg
      inodeSize := inodeSize
      firstIno := firstIno
      groups := groups
      gdtBlocks := gdtBlocks
      reservedGdtBlocks := sb.u16 206
      inodeTableBlocks := divCeil (ipg * inodeSize) blockSize
      backups := sb.backups
      filetype := decide (sb.u32 96 &&& 2 ≠ 0)
      blockSize_cases := by
        have h : log < 3 := by omega
        change 1024 * 2 ^ log = _ ∨ 1024 * 2 ^ log = _ ∨ 1024 * 2 ^ log = _
        interval_cases log <;> decide
      blocksCount_lt := u32At_lt _ _
      inodesCount_lt := u32At_lt _ _
      firstDataBlock_eq := not_not.mp hfirst
      firstDataBlock_lt := not_le.mp hblocks
      blocksPerGroup_ge := by omega
      blocksPerGroup_le := by omega
      inodesPerGroup_pos := by omega
      inodesPerGroup_le := by omega
      inodeSize_pow := (not_not.mp hsize).1
      inodeSize_ge := (not_not.mp hsize).2.1
      inodeSize_le := (not_not.mp hsize).2.2
      firstIno_gt := by omega
      firstIno_le := by omega
      groups_eq := rfl
      groups_le := by omega
      inodes_eq := not_not.mp hinodes
      gdtBlocks_eq := rfl
      gdtBlocks_le := by omega
      reservedGdtBlocks_lt := u16At_lt _ _
      inodeTableBlocks_eq := rfl })

end Superblock

end RelayOs.Ext2
