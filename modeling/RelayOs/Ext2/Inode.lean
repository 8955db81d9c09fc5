import RelayOs.Ext2.Superblock
import RelayOs.Vfs.Contract

/-!
# Inodes

An inode as it is stored, all `inodeSize` bytes of it, so fields this driver does not
know survive a rewrite. Its length is part of its type, and every field below ends
inside the 128 bytes an inode has at least, except the extra fields of large inodes,
whose presence `RelayOs.Ext2.Inode.hasExtra` decides.
-/

namespace RelayOs.Ext2

open Vfs

/-- Direct block pointers in `i_block`; then single, double and triple indirect. -/
def nDirect : ℕ := 12

/-- Bytes of `i_block`, which holds a fast symlink's target instead. -/
def iBlockBytes : ℕ := 60

/-- Where `i_extra_isize` is, in large inodes. -/
def extraIsize : ℕ := 128

/-- The file type in an inode's mode; `none` for an unknown one. -/
def kindOf (mode : ℕ) : Option FileType :=
  let fmt := mode &&& 0o170000
  if fmt = 0o010000 then some .fifo
  else if fmt = 0o020000 then some .charDev
  else if fmt = 0o040000 then some .directory
  else if fmt = 0o060000 then some .blockDev
  else if fmt = 0o100000 then some .regular
  else if fmt = 0o120000 then some .symlink
  else if fmt = 0o140000 then some .socket
  else none

/-- **An inode as stored on the disk.** -/
structure Inode (geo : Geometry) where
  ino : ℕ
  raw : Block geo.inodeSize

namespace Inode

variable {geo : Geometry}

/-- The 16-bit field at `i`. -/
def u16 (inode : Inode geo) (i : ℕ) : ℕ := u16At inode.raw.val i

/-- The 32-bit field at `i`. -/
def u32 (inode : Inode geo) (i : ℕ) : ℕ := u32At inode.raw.val i

/-- Sets the 16-bit field at `i`. -/
def setU16 (inode : Inode geo) (i v : ℕ) : Inode geo :=
  { inode with
    raw := ⟨RelayOs.setU16 inode.raw.val i v, (length_setU16 _ i v).trans inode.raw.property⟩ }

/-- Sets the 32-bit field at `i`. -/
def setU32 (inode : Inode geo) (i v : ℕ) : Inode geo :=
  { inode with
    raw := ⟨RelayOs.setU32 inode.raw.val i v, (length_setU32 _ i v).trans inode.raw.property⟩ }

/-- File type and permissions. -/
def mode (inode : Inode geo) : ℕ := inode.u16 0

/-- The type of the file, if the mode has one that is known. -/
def kind (inode : Inode geo) : Option FileType := kindOf inode.mode

/-- The owner, in two halves. -/
def uid (inode : Inode geo) : ℕ := inode.u16 2 + 65536 * inode.u16 120

/-- The group, in two halves. -/
def gid (inode : Inode geo) : ℕ := inode.u16 24 + 65536 * inode.u16 122

/-- Sets the size; only regular files keep the high 32 bits. -/
def setSize (inode : Inode geo) (size : ℕ) : Inode geo :=
  let inode := inode.setU32 4 size
  if inode.kind = some .regular then inode.setU32 108 (size / 2 ^ 32) else inode

/-- The size in bytes; only regular files use the high 32 bits. -/
def size (inode : Inode geo) : ℕ :=
  inode.u32 4 + 2 ^ 32 * if inode.kind = some .regular then inode.u32 108 else 0

/-- The number of names. -/
def links (inode : Inode geo) : ℕ := inode.u16 26

/-- Sets the number of names. -/
def setLinks (inode : Inode geo) (n : ℕ) : Inode geo := inode.setU16 26 n

/-- The inode's flags. -/
def flags (inode : Inode geo) : ℕ := inode.u32 32

/-- Sets the inode's flags. -/
def setFlags (inode : Inode geo) (flags : ℕ) : Inode geo := inode.setU32 32 flags

/-- Space used in 512-byte units, indirect and EA blocks included. -/
def blocks (inode : Inode geo) : ℕ := inode.u32 28

/-- Sets the number of sectors the file takes. -/
def setBlocks (inode : Inode geo) (sectors : ℕ) : Inode geo := inode.setU32 28 sectors

/-- Adds (or with a negative `delta`, removes) `i_blocks` for whole filesystem blocks, without
wrapping around. -/
def addBlocks (inode : Inode geo) (delta : ℤ) : Inode geo :=
  let sectors := geo.blockSize / 512
  inode.setBlocks <|
    if 0 ≤ delta then min (inode.blocks + sectors * delta.natAbs) (2 ^ 32 - 1)
    else inode.blocks - sectors * delta.natAbs

/-- The time of the last access. -/
def atime (inode : Inode geo) : ℕ := inode.u32 8

/-- The time of the last change of the inode. -/
def ctime (inode : Inode geo) : ℕ := inode.u32 12

/-- The time of the last change of the content. -/
def mtime (inode : Inode geo) : ℕ := inode.u32 16

/-- Whether the 4-byte field at `i` exists: past the first 128 bytes only as far as
`i_extra_isize` says. -/
def hasExtra (inode : Inode geo) (i : ℕ) : Bool :=
  decide (extraIsize < geo.inodeSize) && decide (i + 4 ≤ extraIsize + inode.u16 extraIsize) &&
    decide (i + 4 ≤ geo.inodeSize)

/-- Sets a time in seconds. The matching extra field (nanoseconds and epoch bits) is
zeroed, so it cannot shift the new time. -/
def setTime (inode : Inode geo) (i extra t : ℕ) : Inode geo :=
  let inode := inode.setU32 i t
  if inode.hasExtra extra then inode.setU32 extra 0 else inode

/-- Sets the time of the last change of the inode. -/
def setCtime (inode : Inode geo) (t : ℕ) : Inode geo := inode.setTime 12 132 t

/-- Sets the time of the last change of the content. -/
def setMtime (inode : Inode geo) (t : ℕ) : Inode geo := inode.setTime 16 136 t

/-- The deletion time; it has no extra field. -/
def setDtime (inode : Inode geo) (t : ℕ) : Inode geo := inode.setU32 20 t

/-- A change to the data: mtime and ctime become `t`. -/
def touch (inode : Inode geo) (t : ℕ) : Inode geo := (inode.setMtime t).setCtime t

/-- Entry `i` of `i_block`. -/
def block (inode : Inode geo) (i : ℕ) : ℕ := inode.u32 (40 + 4 * i)

/-- Sets the block pointer in slot `i`. -/
def setBlock (inode : Inode geo) (i block : ℕ) : Inode geo := inode.setU32 (40 + 4 * i) block

/-- The raw `i_block` bytes: a fast symlink's target. -/
def blockBytes (inode : Inode geo) : Bytes := slice inode.raw.val 40 iBlockBytes

/-- The extended attribute block, 0 if none. -/
def fileAcl (inode : Inode geo) : ℕ := inode.u32 104

/-- Sets the block of extended attributes. -/
def setFileAcl (inode : Inode geo) (block : ℕ) : Inode geo := inode.setU32 104 block

/-- A symlink whose target lives in `i_block`: it has no blocks but an extended attribute
block (Linux's rule). -/
def isFastSymlink (inode : Inode geo) : Bool :=
  decide (inode.kind = some .symlink) &&
    inode.blocks == if inode.fileAcl ≠ 0 then geo.blockSize / 512 else 0

/-- **A new inode**: zeroed, then `mode`, one link (two for a directory), all times
`now`. Large inodes also get `i_extra_isize` and a creation time. -/
def fresh (geo : Geometry) (ino mode now : ℕ) : Inode geo :=
  let inode : Inode geo := ⟨ino, ⟨List.replicate geo.inodeSize 0, List.length_replicate⟩⟩
  let inode := inode.setU16 0 mode
  let inode := inode.setLinks (if inode.kind = some .directory then 2 else 1)
  let inode :=
    if extraIsize < geo.inodeSize then (inode.setU16 extraIsize 32).setU32 144 now else inode
  (inode.setTime 8 140 now).touch now

/-! ### No change is one of the inode's number -/

section Ino

variable (inode : Inode geo)

@[simp] theorem ino_setFlags (n : ℕ) : (inode.setFlags n).ino = inode.ino := rfl

@[simp] theorem ino_setSize (n : ℕ) : (inode.setSize n).ino = inode.ino := by
  simp only [setSize]
  split <;> rfl

@[simp] theorem ino_setTime (i extra t : ℕ) : (inode.setTime i extra t).ino = inode.ino := by
  simp only [setTime]
  split <;> rfl

@[simp] theorem ino_setCtime (t : ℕ) : (inode.setCtime t).ino = inode.ino := ino_setTime _ _ _ _

@[simp] theorem ino_setMtime (t : ℕ) : (inode.setMtime t).ino = inode.ino := ino_setTime _ _ _ _

@[simp] theorem ino_touch (t : ℕ) : (inode.touch t).ino = inode.ino := by
  rw [touch, ino_setCtime, ino_setMtime]

@[simp] theorem ino_fresh (ino mode now : ℕ) : (fresh geo ino mode now).ino = ino := by
  simp only [fresh, ino_touch, ino_setTime]
  split <;> rfl

end Ino

/-! ### Only `setLinks` changes the links -/

section Links

variable (inode : Inode geo)

theorem links_lt : inode.links < 2 ^ 16 := u16At_lt _ _

theorem links_setU32 {i : ℕ} (v : ℕ) (h : i + 4 ≤ 26 ∨ 28 ≤ i) :
    (inode.setU32 i v).links = inode.links := by
  refine u16At_splice_of_disjoint _ ?_
  rw [length_u32Bytes]
  omega

@[simp] theorem links_setLinks (n : ℕ) : (inode.setLinks n).links = n % 2 ^ 16 :=
  u16At_setU16 n (by rw [inode.raw.property]; exact le_trans (by decide) geo.inodeSize_ge)

@[simp] theorem links_setFlags (n : ℕ) : (inode.setFlags n).links = inode.links :=
  inode.links_setU32 n (by omega)

@[simp] theorem links_addBlocks (d : ℤ) : (inode.addBlocks d).links = inode.links :=
  inode.links_setU32 _ (by omega)

@[simp] theorem links_setBlock (i b : ℕ) : (inode.setBlock i b).links = inode.links :=
  inode.links_setU32 b (by omega)

@[simp] theorem links_setSize (n : ℕ) : (inode.setSize n).links = inode.links := by
  simp only [setSize]
  split
  · rw [links_setU32 _ _ (by omega), links_setU32 _ _ (by omega)]
  · exact links_setU32 _ _ (by omega)

theorem links_setTime {i extra : ℕ} (t : ℕ) (h : i + 4 ≤ 26) (hextra : 28 ≤ extra) :
    (inode.setTime i extra t).links = inode.links := by
  simp only [setTime]
  split
  · rw [links_setU32 _ _ (Or.inr hextra), links_setU32 _ _ (Or.inl h)]
  · exact links_setU32 _ _ (Or.inl h)

@[simp] theorem links_setCtime (t : ℕ) : (inode.setCtime t).links = inode.links :=
  inode.links_setTime t (by decide) (by decide)

@[simp] theorem links_touch (t : ℕ) : (inode.touch t).links = inode.links := by
  rw [touch, links_setCtime]
  exact inode.links_setTime t (by decide) (by decide)

end Links

end Inode

/-- **The largest file**: what the block map reaches, limited so that a dense file's
`i_blocks`, counting data and indirect blocks in 512-byte units, fits in 32 bits. -/
def maxFileSize (blockSize : ℕ) : ℕ :=
  let bits := Nat.log2 blockSize
  let p := 2 ^ (bits - 2)
  let limit := (2 ^ 32 - 1) / 2 ^ (bits - 9)
  let mapped := nDirect + p + p * p + p * p * p
  let blocks :=
    if mapped + (1 + (1 + p) + (1 + p + p * p)) ≤ limit then mapped
    else
      -- the indirect blocks a file of `limit` blocks needs
      let rest := limit - nDirect - p
      if rest < p * p then limit - (1 + (1 + divCeil rest p))
      else
        limit - (1 + (1 + p) + (1 + divCeil (rest - p * p) p + divCeil (rest - p * p) (p * p)))
  blocks * 2 ^ bits

/-- **Where a logical block sits in the block map**: the entry of `i_block`, followed by
one index per level of indirection. -/
structure MapPath where
  slot : ℕ
  index : List ℕ
  deriving DecidableEq, Repr

namespace MapPath

/-- Levels of indirection. -/
def depth (path : MapPath) : ℕ := path.index.length

end MapPath

/-- The loop of `map_path` over the levels of indirection: `span` is what the level before reaches,
`rest` what is left of the logical block number. -/
def mapPathLoop (p : ℕ) : List ℕ → ℕ → ℕ → Option MapPath
  | [], _, _ => none
  | depth :: depths, span, rest =>
    if rest < span * p then
      some ⟨nDirect + depth - 1,
        (List.range depth).map fun level => rest / p ^ (depth - (level + 1)) % p⟩
    else mapPathLoop p depths (span * p) (rest - span * p)

/-- The path to logical block `lb` with `p` pointers per indirect block; `none` past the
triple indirect range. -/
def mapPath (lb p : ℕ) : Option MapPath :=
  if lb < nDirect then some ⟨lb, []⟩ else mapPathLoop p [1, 2, 3] 1 (lb - nDirect)

end RelayOs.Ext2
