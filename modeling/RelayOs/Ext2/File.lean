import RelayOs.Ext2.Bitmap
import RelayOs.Ext2.Driver

/-!
# Allocation and file data

Blocks and inodes are taken from and given back to the group bitmaps, every change
updating the free counts in the group descriptor and the superblock. On top of that,
files: mapping logical blocks through the direct and indirect pointers, reading, writing
(allocating data and indirect blocks) and truncating (freeing them).
-/

namespace RelayOs.Ext2

open Vfs

variable {geo : Geometry}

/-! ### Blocks -/

/-- Sets bit `i` of a bitmap. -/
def setBit (i : ℕ) : Edit := ⟨fun d => Bitmap.set d i, fun d => Bitmap.length_set d i⟩

/-- Clears bit `i` of a bitmap. -/
def clearBit (i : ℕ) : Edit := ⟨fun d => Bitmap.clear d i, fun d => Bitmap.length_clear d i⟩

/-- The first `n` bits lie inside a bitmap of `len` bytes. -/
def BitsFit (n len : ℕ) : Prop := n ≤ 8 * len

instance (n len : ℕ) : Decidable (BitsFit n len) := inferInstanceAs (Decidable (_ ≤ _))

/-- The loop of `alloc_block` over the groups, from the goal's on. -/
def allocBlockLoop (first index : ℕ) : List ℕ → M geo ℕ
  | [] => throw .ENOSPC
  | step :: steps => do
    let m ← mem
    need (geo.groups ≠ 0 ∧ first + step < 2 ^ 32)
    let g := (first + step) % geo.groups
    need (g < m.groups.count)
    if m.groups.freeBlocks g = 0 then allocBlockLoop first index steps
    else do
      let start := if step = 0 then index else 0
      need (geo.groupStart g ≤ geo.blocksCount)
      let len := geo.groupBlocks g
      let bits ← readBlock .bitmap (m.groups.blockBitmap g)
      need (BitsFit len bits.length)
      match Bitmap.findZero bits len start with
      | none => allocBlockLoop first index steps
      | some i => do
        let block := geo.groupStart g + i
        need (block < 2 ^ 32)
        let bad ← isMetadata block
        refuse (bad = true) Errno.EIO
        let old ← writeBlock .bitmap (m.groups.blockBitmap g) (setBit i)
        need (BitsFit (i + 1) old.length)
        setMem (m.countFreeBlocks g (-1))
        pure block

/-- **Allocates a block** near `goal`: from the goal on in its group (wrapping), then in
the following groups. -/
def allocBlock (goal : ℕ) : M geo ℕ := do
  let m ← mem
  refuse (m.sb.freeBlocksCount = 0) .ENOSPC
  need (1 ≤ geo.blocksCount ∧ geo.firstDataBlock ≤ geo.blocksCount - 1)
  let goal := max geo.firstDataBlock (min goal (geo.blocksCount - 1))
  let loc ← blockGroup goal
  allocBlockLoop loc.1 loc.2 (List.range geo.groups)

/-- **Frees a block.** A block outside the filesystem, in its metadata or already free is
left alone: the pointer to it was corrupt. -/
def freeBlock (block : ℕ) : M geo Unit := do
  let bad ← badBlock block
  if bad then pure ()
  else do
    let loc ← blockGroup block
    let m ← mem
    need (loc.1 < m.groups.count)
    let bits ← readBlock .bitmap (m.groups.blockBitmap loc.1)
    need (BitsFit (loc.2 + 1) bits.length)
    if Bitmap.test bits loc.2 then do
      let old ← writeBlock .bitmap (m.groups.blockBitmap loc.1) (clearBit loc.2)
      need (BitsFit (loc.2 + 1) old.length)
      setMem (m.countFreeBlocks loc.1 1)
    else pure ()

/-! ### Inodes -/

/-- The lowest of the groups with the most free inodes. -/
def mostFreeInodes (m : Mem geo) : ℕ :=
  let most := ((List.range geo.groups).map m.groups.freeInodes).max?
  ((List.range geo.groups).find? fun g => some (m.groups.freeInodes g) == most).getD 0

/-- The loop of `alloc_inode` over the groups. -/
def allocInodeLoop (first : ℕ) (dir : Bool) : List ℕ → M geo ℕ
  | [] => throw .ENOSPC
  | step :: steps => do
    let m ← mem
    need (geo.groups ≠ 0 ∧ first + step < 2 ^ 32)
    let g := (first + step) % geo.groups
    need (g < m.groups.count)
    if m.groups.freeInodes g = 0 then allocInodeLoop first dir steps
    else do
      need (1 ≤ geo.firstIno ∧ g * geo.inodesPerGroup < 2 ^ 32)
      let bits ← readBlock .bitmap (m.groups.inodeBitmap g)
      need (BitsFit geo.inodesPerGroup bits.length)
      match Bitmap.firstZero bits (geo.firstIno - 1 - g * geo.inodesPerGroup)
        geo.inodesPerGroup with
      | none => allocInodeLoop first dir steps
      | some i => do
        let old ← writeBlock .bitmap (m.groups.inodeBitmap g) (setBit i)
        need (BitsFit (i + 1) old.length)
        setMem (m.countFreeInodes g (-1) dir)
        need (g * geo.inodesPerGroup + i + 1 < 2 ^ 32)
        pure (g * geo.inodesPerGroup + i + 1)

/-- **Allocates an inode**: a directory's in the group with the most free inodes, anything
else's in `parent`'s group, else the next group with one free. -/
def allocInode (parent : ℕ) (dir : Bool) : M geo ℕ := do
  let m ← mem
  refuse (m.sb.freeInodesCount = 0) .ENOSPC
  need (1 ≤ parent ∧ geo.inodesPerGroup ≠ 0)
  let first := if dir then mostFreeInodes m else (parent - 1) / geo.inodesPerGroup
  allocInodeLoop first dir (List.range geo.groups)

/-- **Frees inode number `ino`** in its bitmap. One already free is left alone. -/
def freeInode (ino : ℕ) (dir : Bool) : M geo Unit := do
  need (1 ≤ ino ∧ geo.inodesPerGroup ≠ 0)
  let g := (ino - 1) / geo.inodesPerGroup
  let i := (ino - 1) % geo.inodesPerGroup
  let m ← mem
  need (g < m.groups.count)
  let bits ← readBlock .bitmap (m.groups.inodeBitmap g)
  need (BitsFit (i + 1) bits.length)
  if Bitmap.test bits i then do
    let old ← writeBlock .bitmap (m.groups.inodeBitmap g) (clearBit i)
    need (BitsFit (i + 1) old.length)
    setMem (m.countFreeInodes g 1 dir)
  else pure ()

/-! ### The block map -/

/-- Entry `i` of an indirect block. -/
def pointerAt (data : Bytes) (i : ℕ) : ℕ := u32At data (i * 4)

/-- The loop of `bmap` down the levels of indirection. -/
def bmapLoop : ℕ → List ℕ → M geo (Option ℕ)
  | ptr, [] => if ptr = 0 then pure none else do
    checkBlock ptr
    pure (some ptr)
  | ptr, i :: is => if ptr = 0 then pure none else do
    checkBlock ptr
    let data ← readBlock .pointers ptr
    need (i * 4 + 4 ≤ data.length)
    bmapLoop (pointerAt data i) is

/-- Entry `i` of `i_block` lies inside the inode. -/
def SlotFits (geo : Geometry) (i : ℕ) : Prop := 40 + 4 * i + 4 ≤ geo.inodeSize

instance (geo : Geometry) (i : ℕ) : Decidable (SlotFits geo i) :=
  inferInstanceAs (Decidable (_ ≤ _))

/-- **The physical block** holding logical block `lb` of `inode`; `none` for a hole. -/
def bmap (inode : Inode geo) (lb : ℕ) : M geo (Option ℕ) :=
  match mapPath lb geo.perBlock with
  | none => pure none
  | some path => do
    need (SlotFits geo path.slot)
    bmapLoop (inode.block path.slot) path.index

/-- The physical block of the logical block before `lb`. -/
def blockBefore (inode : Inode geo) (lb : ℕ) : M geo (Option ℕ) :=
  if 0 < lb then bmap inode (lb - 1) else pure none

/-- Where a new block for logical block `lb` should go: after the block before it, or at the start
of the inode's group. -/
def blockGoal (inode : Inode geo) (lb : ℕ) : M geo ℕ := do
  let prev ← blockBefore inode lb
  match prev with
  | some prev => pure (prev + 1)
  | none => do
    need (1 ≤ inode.ino ∧ geo.inodesPerGroup ≠ 0)
    let group := (inode.ino - 1) / geo.inodesPerGroup
    need (geo.groupStart group < 2 ^ 64)
    pure (geo.groupStart group)

/-- **Where a block pointer is kept**: in the inode, or in an indirect block. -/
inductive Place
  | slot (i : ℕ)
  | entry (block i : ℕ)
  deriving DecidableEq, Repr

/-- Follows the path to a block as far as it exists: where the pointer it ends at is kept,
the pointer, and the indices below it, of which there are some only if the pointer is 0. -/
def followPath : Place → ℕ → List ℕ → M geo (Place × ℕ × List ℕ)
  | place, ptr, [] => pure (place, ptr, [])
  | place, ptr, i :: is => if ptr = 0 then pure (place, 0, i :: is) else do
    checkBlock ptr
    let data ← readBlock .pointers ptr
    need (i * 4 + 4 ≤ data.length)
    followPath (.entry ptr i) (pointerAt data i) is

/-- Enters `block` where a pointer is kept. -/
def enterBlock (place : Place) (block : ℕ) : MI geo Unit :=
  match place with
  | .slot i => modify fun inode => inode.setBlock i block
  | .entry parent i => do
    let old ← Prog.beside (writeBlock .pointers parent (.u32 (i * 4) block))
    Prog.beside (need (i * 4 + 4 ≤ old.length))

/-- Builds the rest of a path: a zeroed block for the pointer at `place` and for each index below
it, entered one below the other. -/
def buildPath (goal : ℕ) (place : Place) : List ℕ → MI geo ℕ
  | [] => do
    let block ← Prog.beside (allocBlock goal)
    let _ ← Prog.beside (zeroBlock .content block .keep)
    enterBlock place block
    modify fun inode => inode.addBlocks 1
    pure block
  | i :: is => do
    let block ← Prog.beside (allocBlock goal)
    let _ ← Prog.beside (zeroBlock .pointers block .keep)
    enterBlock place block
    modify fun inode => inode.addBlocks 1
    buildPath (block + 1) (.entry block i) is

/-- **The physical block for logical block `lb`**, allocating it and the indirect blocks
leading to it if missing. -/
def bmapAlloc (lb : ℕ) : MI geo ℕ :=
  match mapPath lb geo.perBlock with
  | none => throw .EFBIG
  | some path => do
    Prog.beside (need (SlotFits geo path.slot))
    let inode ← get
    let found ← Prog.beside (followPath (.slot path.slot) (inode.block path.slot) path.index)
    if found.2.1 ≠ 0 then do
      Prog.beside (checkBlock found.2.1)
      pure found.2.1
    else do
      let m ← Prog.beside mem
      Prog.beside (refuse (m.sb.freeBlocksCount < found.2.2.length + 1) .ENOSPC)
      let goal ← Prog.beside (blockGoal inode lb)
      buildPath goal found.1 found.2.2

/-! ### Freeing -/

/-- Frees a block an inode owned, and counts it off. -/
def freeOwned (block : ℕ) : MI geo Unit := do
  Prog.beside (freeBlock block)
  modify fun inode => inode.addBlocks (-1)

/-- The pointers of an indirect block. -/
def pointers (data : Bytes) : List ℕ := (List.range (data.length / 4)).map (pointerAt data)

/-- The loop of `free_tree` over the pointers of the indirect block `block`: `freeOne` frees
what an entry points at and says whether nothing is left of it. -/
def freeEntries (freeOne : ℕ → ℕ → MI geo Bool) (block : ℕ) : List (ℕ × ℕ) → Bool → MI geo Bool
  | [], kept => pure kept
  | (i, ptr) :: rest, kept => if ptr = 0 then freeEntries freeOne block rest kept else do
    let freed ← freeOne i ptr
    if freed then do
      let old ← Prog.beside (writeBlock .pointers block (.u32 (i * 4) 0))
      Prog.beside (need (i * 4 + 4 ≤ old.length))
      freeEntries freeOne block rest kept
    else freeEntries freeOne block rest true

/-- One indirect block of `free_tree`, `level` levels above the ones that point at data:
frees its entries from number `start` of the blocks it reaches on, and the block itself
if it ends up empty; `freeOne` frees what one entry points at, from a number on. -/
def freeNode (level : ℕ) (freeOne : ℕ → ℕ → MI geo Bool) (block start : ℕ) : MI geo Bool := do
  let bad ← Prog.beside (badBlock block)
  if bad then pure true
  else do
    let span := geo.perBlock ^ level
    let data ← Prog.beside (readBlock .pointers block)
    Prog.beside (need (span ≠ 0))
    let first := start / span
    let ptrs := pointers data
    let kept := (ptrs.take first).any fun ptr => ptr ≠ 0
    let kept ← freeEntries (fun i ptr => freeOne ptr (if i = first then start % span else 0)) block
      ((ptrs.zipIdx.map Prod.swap).drop first) kept
    if kept then pure false
    else do
      freeOwned block
      pure true

/-- **Frees the entries from `start` on** of an indirect block, `level` levels above the
ones that point at data, and the block itself if it ends up empty. -/
def freeTree : ℕ → ℕ → ℕ → MI geo Bool
  | 0 => freeNode 0 fun ptr _ => do
    freeOwned ptr
    pure true
  | level + 1 => freeNode (level + 1) (freeTree level)

/-- Frees the direct blocks of the slots listed. -/
def freeDirect : List ℕ → MI geo Unit
  | [] => pure ()
  | i :: is => do
    let inode ← get
    onlyIf (inode.block i ≠ 0) do
      Prog.beside (freeBlock (inode.block i))
      modify fun inode => (inode.setBlock i 0).addBlocks (-1)
    freeDirect is

/-- Frees the indirect trees of the levels listed, from logical block `first` on; `start` is the
first block the next level reaches, `span` how many the level before reaches. -/
def freeIndirect (first : ℕ) : List ℕ → ℕ → ℕ → MI geo Unit
  | [], _, _ => pure ()
  | level :: levels, start, span => do
    let span := span * geo.perBlock
    let inode ← get
    let root := inode.block (nDirect + level)
    onlyIf (root ≠ 0 ∧ first < start + span) do
      let freed ← freeTree level root (first - start)
      onlyIf (freed = true) (modify fun inode => inode.setBlock (nDirect + level) 0)
    freeIndirect first levels (start + span) span

/-- **Frees every data block** from logical block `first` on, and the indirect blocks left
empty. -/
def freeFrom (first : ℕ) : MI geo Unit := do
  freeDirect ((List.range nDirect).drop (min first nDirect))
  freeIndirect first [0, 1, 2] nDirect 1

/-- What an extended attribute block starts with. -/
def eaMagic : ℕ := 0xEA020000

/-- Drops a reference to an extended attribute block, freeing the block with its last user. -/
def dropEaBlock (block : ℕ) : M geo Unit := do
  let bad ← badBlock block
  if bad then pure ()
  else do
    let data ← readBlock .content block
    need (8 ≤ data.length)
    if u32At data 0 ≠ eaMagic then pure ()
    else if u32At data 4 > 1 then do
      let _ ← writeBlock .content block (.u32 4 (u32At data 4 - 1))
      pure ()
    else freeBlock block

/-- Drops `inode`'s reference to its extended attribute block, if it has one. -/
def releaseEaBlock (inode : Inode geo) : M geo (Inode geo) :=
  if inode.fileAcl = 0 then pure inode
  else do
    dropEaBlock inode.fileAcl
    pure ((inode.setFileAcl 0).addBlocks (-1))

/-- Whether `i_block` holds block pointers: it does not in fast symlinks and device nodes. -/
def Inode.hasPointers (inode : Inode geo) : Bool :=
  match inode.kind with
  | some .regular => true
  | some .directory => true
  | some .symlink => !inode.isFastSymlink
  | _ => false

/-- Frees the blocks `inode` points at: the result, and what became of it. -/
def releaseData (inode : Inode geo) : M geo (Except Errno Unit × Inode geo) :=
  if inode.hasPointers then Prog.handing (freeFrom 0) inode else pure (.ok (), inode)

/-- Frees the rest of what `inode` owns if its blocks could be freed. -/
def releaseRest (freed : Except Errno Unit) (inode : Inode geo) : M geo (Inode geo) :=
  match freed with
  | .ok () => do
    let inode ← releaseEaBlock inode
    pure (inode.setSize 0)
  | .error _ => pure inode

/-- **Frees an inode that lost its last link**, and what it owns: its data blocks, its
extended attribute block, its bitmap bit. -/
def releaseInode (inode : Inode geo) : M geo Unit := do
  let freed ← releaseData inode
  let left ← releaseRest freed.1 freed.2
  let t ← now
  writeInode ((left.setLinks 0).setDtime t)
  raise freed.1
  freeInode inode.ino (decide (inode.kind = some .directory))

/-! ### Reading -/

/-- So many bytes of a block from byte `within` on; holes read as zeros. -/
def readPiece (block : Option ℕ) (within len : ℕ) : M geo Bytes :=
  match block with
  | some block => do
    let data ← readBlock .content block
    need (within + len ≤ data.length)
    pure (slice data within len)
  | none => pure (List.replicate len 0)

/-- The loop of `read_data`: what is left to read after `done` bytes. -/
def readLoop (inode : Inode geo) (offset n : ℕ) : ℕ → ℕ → M geo Bytes
  | 0, done => do
    need (n ≤ done)
    pure []
  | turns + 1, done => if n ≤ done then pure [] else do
    need (offset + done < 2 ^ 64)
    let pos := offset + done
    let within := pos % geo.blockSize
    let len := min (n - done) (geo.blockSize - within)
    let block ← bmap inode (pos / geo.blockSize)
    let piece ← readPiece block within len
    let rest ← readLoop inode offset n turns (done + len)
    pure (piece ++ rest)

/-- Reads `n` bytes of `inode`'s data from `offset`. -/
def readData (inode : Inode geo) (offset n : ℕ) : M geo Bytes := readLoop inode offset n n 0

/-- **Reads** from a regular file. -/
def fileRead (ino : Ino) (offset n : ℕ) : M geo Bytes := do
  let inode ← inode ino
  refuse (inode.kind = some .directory) .EISDIR
  refuse (inode.kind ≠ some .regular) .EINVAL
  if inode.size ≤ offset then pure []
  else readData inode offset (min n (inode.size - offset))

/-- **Reads** a symbolic link. -/
def linkTarget (ino : Ino) : M geo Bytes := do
  let inode ← inode ino
  refuse (inode.kind ≠ some .symlink) .EINVAL
  if inode.isFastSymlink then do
    refuse (inode.size = 0 ∨ inode.size ≥ iBlockBytes) Errno.EIO
    pure (inode.blockBytes.take inode.size)
  else do
    refuse (inode.size = 0 ∨ inode.size > geo.blockSize) Errno.EIO
    let block ← bmap inode 0
    match block with
    | none => throw Errno.EIO
    | some block => do
      let data ← readBlock .content block
      need (inode.size ≤ data.length)
      pure (data.take inode.size)

/-! ### Writing -/

/-- Regular file `ino` for a change to its data: `ENOENT`, `EROFS`, then `EISDIR` or `EINVAL`. -/
def fileForChange (ino : Ino) : M geo (Inode geo) := do
  let inode ← inode ino
  let m ← mem
  refuse (m.readOnly = true) .EROFS
  refuse (inode.kind = some .directory) .EISDIR
  refuse (inode.kind ≠ some .regular) .EINVAL
  pure inode

/-- Zeroes the rest of the block holding byte `size`, so that data past the end of the file
never reappears when it grows. -/
def zeroTail (inode : Inode geo) (size : ℕ) : M geo Unit :=
  if size % geo.blockSize = 0 then pure ()
  else do
    let block ← bmap inode (size / geo.blockSize)
    match block with
    | none => pure ()
    | some block => do
      let old ← writeBlock .content block (.zeroFrom (size % geo.blockSize))
      need (size % geo.blockSize ≤ old.length)

/-- Sets the size, turning `large_file` on for sizes past 2 GiB. -/
def setFileSize (inode : Inode geo) (size : ℕ) : M geo (Inode geo) := do
  let m ← mem
  onlyIf (size > 0x7FFFFFFF ∧ m.sb.featureRoCompat &&& 2 = 0)
    (setMem (m.setSb (m.sb.setFeatureRoCompat (m.sb.featureRoCompat ||| 2))))
  pure (inode.setSize size)

/-- The loop of `write_data`: stops at the first error, and gives how much was written and that
error. -/
def writeLoop (offset : ℕ) (buf : Bytes) : ℕ → ℕ → MI geo (ℕ × Except Errno Unit)
  | 0, done => do
    Prog.beside (need (buf.length ≤ done))
    pure (done, .ok ())
  | turns + 1, done => if buf.length ≤ done then pure (done, .ok ()) else do
    Prog.beside (need (offset + done < 2 ^ 64))
    let pos := offset + done
    let within := pos % geo.blockSize
    let len := min (buf.length - done) (geo.blockSize - within)
    let block ← Prog.attempt (bmapAlloc (pos / geo.blockSize))
    match block with
    | .error e => pure (done, .error e)
    | .ok block => do
      let piece := Edit.splice within (slice buf done len)
      -- a whole block is overwritten without reading it first
      let data ← Prog.attempt (Prog.beside
        (if len = geo.blockSize then zeroBlock .content block piece
          else writeBlock .content block piece))
      match data with
      | .error e => pure (done, .error e)
      | .ok data => do
        Prog.beside (need (within + len ≤ data.length))
        writeLoop offset buf turns (done + len)

/-- Writes `buf` at `offset`, allocating blocks as needed. -/
def writeData (offset : ℕ) (buf : Bytes) : MI geo (ℕ × Except Errno Unit) :=
  writeLoop offset buf buf.length 0

/-- Gives `inode` its size and times after `done` bytes were written up to byte `stop`. -/
def grown (inode : Inode geo) (done stop : ℕ) : M geo (Inode geo) :=
  if 0 < done then do
    let inode ← setFileSize inode stop
    let t ← now
    pure (inode.touch t)
  else pure inode

/-- **Writes** to a regular file. -/
def fileWrite (ino : Ino) (offset : ℕ) (buf : Bytes) : M geo ℕ := do
  let before ← fileForChange ino
  if buf = [] then pure 0
  else do
    refuse (offset + buf.length > maxFileSize geo.blockSize) .EFBIG
    onlyIf (offset > before.size) (zeroTail before before.size)
    let wrote ← Prog.handing (writeData offset buf) before
    let written ← raise wrote.1
    let inode ← grown wrote.2 written.1 (max before.size (offset + written.1))
    -- blocks may have been allocated even when nothing was written
    onlyIf (inode.raw.val ≠ before.raw.val) (writeInode inode)
    match written.2 with
    | .error e => if e = .ENOSPC ∧ 0 < written.1 then pure written.1 else throw e
    | .ok () => pure written.1

/-- Zeroes or frees what lies between the old size of `inode` and its new one: the result, and what
became of the inode. -/
def resizeData (inode : Inode geo) (size : ℕ) : M geo (Except Errno Unit × Inode geo) :=
  if size > inode.size then do
    zeroTail inode inode.size
    pure (.ok (), inode)
  else if size < inode.size then do
    zeroTail inode size
    Prog.handing (freeFrom (divCeil size geo.blockSize)) inode
  else pure (.ok (), inode)

/-- Sets the size if the data was resized. -/
def resized (freed : Except Errno Unit) (inode : Inode geo) (size : ℕ) : M geo (Inode geo) :=
  match freed with
  | .ok () => setFileSize inode size
  | .error _ => pure inode

/-- **Sets the size** of a regular file. -/
def fileTruncate (ino : Ino) (size : ℕ) : M geo Unit := do
  let inode ← fileForChange ino
  refuse (size > maxFileSize geo.blockSize) .EFBIG
  let freed ← resizeData inode size
  let left ← resized freed.1 freed.2 size
  let t ← now
  writeInode (left.touch t)
  raise freed.1

/-- Sets the times to now. -/
def inodeTouch (ino : Ino) : M geo Unit := do
  let inode ← inode ino
  let m ← mem
  refuse (m.readOnly = true) .EROFS
  let t ← now
  writeInode (inode.touch t)

end RelayOs.Ext2
