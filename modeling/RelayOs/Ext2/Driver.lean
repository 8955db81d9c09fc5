import RelayOs.Lib.Program
import RelayOs.Ext2.Groups
import RelayOs.Ext2.Inode

/-!
# The driver's programs

The functions of the driver are programs over the requests of `RelayOs.Ext2.Request`: they
read and change blocks through the cache, look at what the filesystem keeps in memory
(`RelayOs.Ext2.Mem`), and ask for the time. Written so, one text is run against the cache
over a device that fails as it likes, and reasoned about over a plain map of blocks.
-/

namespace RelayOs.Ext2

open Vfs

/-- **What a mounted filesystem keeps in memory**, next to its geometry: the superblock,
the group descriptors – placed as the mount check found them – and its flags. -/
structure Mem (geo : Geometry) where
  sb : Superblock
  groups : Groups
  readOnly : Bool
  neverWrite : Bool
  mountState : ℕ
  count_eq : groups.count = geo.groups
  placed : groups.Placed geo
  raw_length : groups.raw.length = geo.gdtBlocks * geo.blockSize

/-- **What a block is taken for** where it is asked for. -/
inductive Use
  | bitmap
  | inodes
  | pointers
  | content
  | superblock
  | descriptors
  deriving DecidableEq, Repr

/-- What the driver asks of its surroundings. -/
inductive Request (geo : Geometry)
  | read (use : Use) (block : ℕ)
  | write (use : Use) (block : ℕ) (f : Edit)
  | zeroed (use : Use) (block : ℕ) (f : Edit)
  | sync
  | mem
  | setMem (m : Mem geo)
  | clock

/-- The answers. -/
def Request.Reply {geo : Geometry} : Request geo → Type
  | .read _ _ => Except Errno Bytes
  | .write _ _ _ => Except Errno Bytes
  | .zeroed _ _ _ => Except Errno Bytes
  | .sync => Except Errno Unit
  | .mem => Mem geo
  | .setMem _ => Unit
  | .clock => ℕ

/-- The driver's requests. -/
def sig (geo : Geometry) : Signature := ⟨Request geo, Request.Reply⟩

/-- **A function of the driver**, which can fail. -/
abbrev M (geo : Geometry) (α : Type) := ExceptT Errno (Prog (sig geo)) α

/-- **A function of the driver that is handed an inode to change**, which it leaves
behind changed even when it fails. -/
abbrev MI (geo : Geometry) (α : Type) := ExceptT Errno (StateT (Inode geo) (Prog (sig geo))) α

section Primitives

variable {geo : Geometry} {α : Type}

/-- The program stops dead unless `c` holds. -/
def need (c : Prop) [Decidable c] : M geo Unit :=
  ExceptT.mk ((Prog.need c).bind fun _ => .ret (.ok ()))

/-- Fails with `e` if `c` holds. -/
def refuse (c : Prop) [Decidable c] (e : Errno) : M geo Unit :=
  if c then throw e else pure ()

/-- Does `x` if `c` holds. -/
def onlyIf {m : Type → Type} [Monad m] (c : Prop) [Decidable c] (x : m Unit) : m Unit :=
  if c then x else pure ()

/-- Reads a block through the cache. -/
def readBlock (use : Use) (block : ℕ) : M geo Bytes :=
  ExceptT.mk (Prog.request (S := sig geo) (.read use block))

/-- Changes a block in the cache. -/
def writeBlock (use : Use) (block : ℕ) (f : Edit) : M geo Bytes :=
  ExceptT.mk (Prog.request (S := sig geo) (.write use block f))

/-- Changes a block of zeros in the cache. -/
def zeroBlock (use : Use) (block : ℕ) (f : Edit) : M geo Bytes :=
  ExceptT.mk (Prog.request (S := sig geo) (.zeroed use block f))

/-- Writes the cache out. -/
def syncCache : M geo Unit := ExceptT.mk (Prog.request (S := sig geo) .sync)

/-- What is kept in memory. -/
def mem : M geo (Mem geo) := ExceptT.mk (.ask (S := sig geo) .mem fun m => .ret (.ok m))

/-- Changes what is kept in memory. -/
def setMem (m : Mem geo) : M geo Unit :=
  ExceptT.mk (.ask (S := sig geo) (.setMem m) fun _ => .ret (.ok ()))

/-- The current time as the 32-bit seconds ext2 stores. -/
def now : M geo ℕ :=
  ExceptT.mk (.ask (S := sig geo) .clock fun t => .ret (.ok (min t (2 ^ 32 - 1))))

/-- A failure as a result, so that the caller can go on. -/
def result (x : M geo α) : M geo (Except Errno α) := ExceptT.mk (x.run.bind fun r => .ret (.ok r))

/-- The program after a result: fails if it was a failure. -/
def raise (r : Except Errno α) : M geo α := ExceptT.mk (.ret r)

end Primitives

/-! ### Counts kept in memory -/

/-- The sum, kept between 0 and the largest number of `w` bits. -/
def saturatingAddSigned (w n : ℕ) (delta : ℤ) : ℕ := min (n + delta).toNat (2 ^ w - 1)

namespace Mem

variable {geo : Geometry} (m : Mem geo)

/-- Sets a count in group `g`'s descriptor. -/
def setCount (g field v : ℕ) (hf : 12 ≤ field) (hf' : field + 2 ≤ descSize) : Mem geo :=
  { m with
    groups := m.groups.set16 g field v
    count_eq := m.count_eq
    placed := m.placed.set16 hf hf' g v
    raw_length := (length_setU16 _ _ v).trans m.raw_length }

/-- Sets the count of free blocks of a group. -/
def setFreeBlocks (g n : ℕ) : Mem geo := m.setCount g 12 n le_rfl (by decide)

/-- Sets the count of free inodes of a group. -/
def setFreeInodes (g n : ℕ) : Mem geo := m.setCount g 14 n (by decide) (by decide)

/-- Sets the count of directories of a group. -/
def setUsedDirs (g n : ℕ) : Mem geo := m.setCount g 16 n (by decide) (by decide)

/-- The same with the superblock changed. -/
def setSb (sb : Superblock) : Mem geo := { m with sb := sb }

/-- Counts `delta` more free blocks in group `g`. -/
def countFreeBlocks (g : ℕ) (delta : ℤ) : Mem geo :=
  let m := m.setFreeBlocks g (saturatingAddSigned 16 (m.groups.freeBlocks g) delta)
  m.setSb (m.sb.setFreeBlocksCount (saturatingAddSigned 32 m.sb.freeBlocksCount delta))

/-- Counts `delta` more directories in group `g`, if they are directories. -/
def countUsedDirs (g : ℕ) (delta : ℤ) (dir : Bool) : Mem geo :=
  if dir then m.setUsedDirs g (saturatingAddSigned 16 (m.groups.usedDirs g) delta) else m

/-- Counts `delta` more free inodes in group `g`, and so many directories fewer if they are
directories. -/
def countFreeInodes (g : ℕ) (delta : ℤ) (dir : Bool) : Mem geo :=
  let m := m.setFreeInodes g (saturatingAddSigned 16 (m.groups.freeInodes g) delta)
  let m := m.countUsedDirs g (-delta) dir
  m.setSb (m.sb.setFreeInodesCount (saturatingAddSigned 32 m.sb.freeInodesCount delta))

/-- Nothing in the computation of `is_metadata` overflows or indexes past the table. -/
def MetadataFits (block : ℕ) : Prop :=
  let g := (block - geo.firstDataBlock) / geo.blocksPerGroup
  geo.blocksPerGroup ≠ 0 ∧
    (g < m.groups.count → geo.groupStart g < 2 ^ 64 ∧ geo.superBlocks g < 2 ^ 32 ∧
      ∀ e ∈ m.groups.metadata geo g, e.first + e.len < 2 ^ 64)

instance (block : ℕ) : Decidable (m.MetadataFits block) :=
  inferInstanceAs (Decidable (_ ∧ (_ → _)))

end Mem

/-! ### Blocks -/

section Blocks

variable {geo : Geometry}

/-- The group holding block `block` and its index there. -/
def blockGroup (block : ℕ) : M geo (ℕ × ℕ) := do
  need (geo.firstDataBlock ≤ block ∧ geo.blocksPerGroup ≠ 0)
  pure ((block - geo.firstDataBlock) / geo.blocksPerGroup,
    (block - geo.firstDataBlock) % geo.blocksPerGroup)

/-- Whether `block` holds metadata. -/
def isMetadata (block : ℕ) : M geo Bool := do
  let m ← mem
  need (m.MetadataFits block)
  pure (m.groups.isMetadata geo block)

/-- Whether a block pointer is impossible: outside the filesystem, or into its metadata. -/
def badBlock (block : ℕ) : M geo Bool :=
  if geo.blocksCount ≤ block then pure true else isMetadata block

/-- Checks a block pointer read from an inode or its indirect blocks. -/
def checkBlock (block : ℕ) : M geo Unit := do
  refuse (geo.blocksCount ≤ block) Errno.EIO
  let bad ← isMetadata block
  refuse (bad = true) Errno.EIO

end Blocks

/-! ### Inodes -/

section Inodes

variable {geo : Geometry}

/-- The block holding inode `ino` and its offset there. -/
def inodeLocation (ino : ℕ) : M geo (ℕ × ℕ) := do
  let m ← mem
  need (1 ≤ ino ∧ geo.inodesPerGroup ≠ 0)
  let group := (ino - 1) / geo.inodesPerGroup
  let byte := (ino - 1) % geo.inodesPerGroup * geo.inodeSize
  need (group < m.groups.count ∧ geo.blockSize ≠ 0)
  pure (m.groups.inodeTable group + byte / geo.blockSize, byte % geo.blockSize)

/-- Inode `ino` as stored, in use or not. `ENOENT` for a number outside the filesystem. -/
def readInode (ino : Ino) : M geo (Inode geo) := do
  refuse (¬(1 ≤ ino ∧ ino ≤ geo.inodesCount)) .ENOENT
  let loc ← inodeLocation ino
  let data ← readBlock .inodes loc.1
  need (loc.2 + geo.inodeSize ≤ data.length ∧ 128 ≤ geo.inodeSize)
  pure ⟨ino, sector geo.inodeSize (data.drop loc.2)⟩

/-- Inode `ino`, which must be in use: `ENOENT` otherwise, `EIO` for an unknown type or a size no
file can have. -/
def inode (ino : Ino) : M geo (Inode geo) := do
  let inode ← readInode ino
  refuse (inode.links = 0) .ENOENT
  refuse (inode.kind = none) Errno.EIO
  refuse (inode.size > maxFileSize geo.blockSize) Errno.EIO
  pure inode

/-- Writes an inode to its place in the inode table. -/
def writeInode (inode : Inode geo) : M geo Unit := do
  let loc ← inodeLocation inode.ino
  let old ← writeBlock .inodes loc.1 (.splice loc.2 inode.raw.val)
  need (loc.2 + inode.raw.val.length ≤ old.length)

/-- **What is known of an inode.** -/
def inodeStat (ino : Ino) : M geo Stat := do
  let inode ← inode ino
  match inode.kind with
  | none => do
    need False
    throw Errno.EIO
  | some kind =>
    pure
      { ino := ino
        kind := kind
        perm := inode.mode &&& 0o7777
        nlink := inode.links
        uid := inode.uid
        gid := inode.gid
        size := inode.size
        blocks := inode.blocks
        blockSize := geo.blockSize
        atime := inode.atime
        mtime := inode.mtime
        ctime := inode.ctime }

end Inodes

end RelayOs.Ext2
