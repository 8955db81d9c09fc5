import RelayOs.Vfs.Path
import RelayOs.Ext2.Dirent
import RelayOs.Ext2.File

/-!
# Directories and names

Directories are read linearly, block by block, each block parsed and checked in full
(`RelayOs.Ext2.scanDir`). On top of that: finding, listing, adding and removing entries,
and the changes of names the filesystem contract has – making and removing files and
directories, and `RelayOs.Ext2.moveEntry`, which renames.
-/

namespace RelayOs.Ext2

open Vfs

variable {geo : Geometry}

/-! ### Entries -/

/-- Where a directory entry was found. -/
structure Found where
  block : ℕ
  entry : Dirent.Entry
  prev : Option Dirent.Entry

/-- Directory `ino`: `ENOENT` if not in use, `ENOTDIR` if not a directory. -/
def dirInode (ino : Ino) : M geo (Inode geo) := do
  let inode ← inode ino
  refuse (inode.kind ≠ some .directory) .ENOTDIR
  pure inode

/-- The entries of a directory block, parsed and checked; `EIO` if it is corrupt. -/
def dirEntries (data : Bytes) (firstBlock : Bool) : M geo (List Dirent.Entry) :=
  match Dirent.parse data geo.filetype geo.inodesCount with
  | .error _ => throw Errno.EIO
  | .ok entries => do
    need (∀ e ∈ entries, e.NameFits data.length)
    match Dirent.checkNames data entries firstBlock with
    | .error _ => throw Errno.EIO
    | .ok () => pure entries

/-- The loop of `scan_dir`, from logical block `lb` on: `f` is shown each block – its
physical number, its data and its entries – with what it made of the blocks before, until
it finds something. -/
def scanLoop {α τ : Type} (dir : Inode geo)
    (f : α → ℕ → Bytes → List Dirent.Entry → α × Option τ) :
    ℕ → ℕ → List ℕ → α → M geo (α × Option τ)
  | 0, _, _, a => pure (a, none)
  | blocks + 1, lb, seen, a => do
    let block ← bmap dir lb
    match block with
    | none => throw Errno.EIO
    | some block => do
      refuse (block ∈ seen) Errno.EIO
      let data ← readBlock .content block
      let entries ← dirEntries data (lb == 0)
      match f a block data entries with
      | (a, some found) => pure (a, some found)
      | (a, none) => scanLoop dir f blocks (lb + 1) (block :: seen) a

/-- **Shows `f` each block of `dir`** until it finds something. -/
def scanDir {α τ : Type} (dir : Inode geo)
    (f : α → ℕ → Bytes → List Dirent.Entry → α × Option τ) (a : α) : M geo (α × Option τ) := do
  need (geo.blockSize / 512 ≠ 0)
  refuse (dir.size % geo.blockSize ≠ 0) Errno.EIO
  refuse (dir.size / geo.blockSize > dir.blocks / (geo.blockSize / 512)) Errno.EIO
  scanLoop dir f (dir.size / geo.blockSize) 0 [] a

/-- The first block of `dir` in which `f` finds something. -/
def searchDir {τ : Type} (dir : Inode geo) (f : ℕ → Bytes → List Dirent.Entry → Option τ) :
    M geo (Option τ) := do
  let r ← scanDir dir (fun u block data entries => (u, f block data entries)) ()
  pure r.2

/-- The first used entry called `name`, with the entry before it. -/
def findIn (name : Bytes) (block : ℕ) (data : Bytes) :
    Option Dirent.Entry → List Dirent.Entry → Option Found
  | _, [] => none
  | prev, e :: entries =>
    if e.inode ≠ 0 ∧ e.name data = name then some ⟨block, e, prev⟩
    else findIn name block data (some e) entries

/-- **The entry called `name`** in `dir`. -/
def findEntry (dir : Inode geo) (name : Bytes) : M geo (Option Found) :=
  searchDir dir fun block data entries => findIn name block data none entries

/-- **Looks a name up** in a directory. -/
def dirLookup (dir : Ino) (name : Bytes) : M geo Ino := do
  let inode ← dirInode dir
  if name = Dirent.dot then pure dir
  else do
    let found ← findEntry inode name
    match found with
    | some found => pure found.entry.inode
    | none => throw .ENOENT

/-- The used entries of a block, as `read_dir` lists them. -/
def listed (data : Bytes) (entries : List Dirent.Entry) : List DirEntry :=
  (entries.filter fun e => e.inode ≠ 0).map fun e => ⟨e.name data, e.inode⟩

/-- **Lists a directory.** -/
def dirList (dir : Ino) : M geo (List DirEntry) := do
  let inode ← dirInode dir
  let r ← scanDir (τ := Unit) inode
      (fun out _ data entries => (out ++ listed data entries, none)) []
  pure r.1

/-- Notes a change to `dir`'s entries: its times, and an htree index this driver does not
maintain is dropped. -/
def changedDir (dir : Inode geo) : M geo (Inode geo) := do
  let t ← now
  pure ((dir.setFlags (dir.flags &&& (2 ^ 32 - 1 - 0x1000))).touch t)

/-- The type byte of an entry for an inode of type `kind`, with the `filetype` feature. -/
def fileTypeOf (geo : Geometry) (kind : FileType) : Option UInt8 :=
  if geo.filetype then some (Dirent.typeByte kind) else none

/-- A new block at the end of `dir`: the directory, the block, and the entry covering it. -/
def newDirBlock (dir : Inode geo) : M geo (Inode geo × ℕ × Dirent.Entry) := do
  refuse (dir.size + geo.blockSize > 2 ^ 32 - 1) .ENOSPC
  let taken ← Prog.handing (bmapAlloc (dir.size / geo.blockSize)) dir
  let block ← raise taken.1
  let old ← writeBlock .content block Dirent.initEmpty
  need (6 ≤ old.length)
  pure (taken.2.setSize (taken.2.size + geo.blockSize), block, ⟨0, 0, geo.blockSize, 0⟩)

/-- Room for a name of `n` bytes in `dir`: in the first block with room, else in a new block at the
end. -/
def roomInDir (dir : Inode geo) (n : ℕ) : M geo (Inode geo × ℕ × Dirent.Entry) := do
  let spot ← searchDir dir fun block _ entries => (Dirent.room entries n).map fun e => (block, e)
  match spot with
  | some spot => pure (dir, spot)
  | none => newDirBlock dir

/-- **Adds the entry `name`** for inode `ino` to `dir`. The caller writes `dir` back. -/
def addEntry (dir : Inode geo) (name : Bytes) (ino : ℕ) (kind : FileType) : M geo (Inode geo) := do
  let spot ← roomInDir dir name.length
  let old ← writeBlock .content spot.2.1 (Dirent.insert spot.2.2 name ino (fileTypeOf geo kind))
  need (Dirent.InsertFits spot.2.2 name old.length)
  changedDir spot.1

/-- **Removes a found entry** from `dir`. The caller writes `dir` back. -/
def removeEntry (dir : Inode geo) (found : Found) : M geo (Inode geo) := do
  let old ← writeBlock .content found.block (Dirent.remove found.entry found.prev)
  need (found.entry.HeaderFits old.length ∧ ∀ e, found.prev = some e → e.HeaderFits old.length)
  changedDir dir

/-- Whether `dir` holds nothing but `.` and `..`. -/
def dirIsEmpty (dir : Inode geo) : M geo Bool := do
  let other ← searchDir dir fun _ data entries => entries.find? fun e =>
    e.inode ≠ 0 ∧ e.name data ≠ Dirent.dot ∧ e.name data ≠ Dirent.dotDot
  pure other.isNone

/-- An entry for an unused inode is corrupt. -/
def unusedIsCorrupt {α : Type} : Except Errno α → Except Errno α
  | .ok a => .ok a
  | .error e => .error (if e = .ENOENT then Errno.EIO else e)

/-- The inode a directory entry names, which must be in use. -/
def entryInode (found : Found) : M geo (Inode geo) := do
  let r ← result (inode found.entry.inode)
  raise (unusedIsCorrupt r)

/-! ### Making and removing -/

/-- Linux's ext2 limit on a directory's links, so subdirectories. -/
def linkMax : ℕ := 32000

/-- The contract's first checks for a change to `dir/name`: `ENOENT`, `EROFS`, the name's error,
`ENOTDIR`. -/
def dirForChange (dir : Ino) (name : Bytes) : M geo (Inode geo) := do
  let inode ← inode dir
  let m ← mem
  refuse (m.readOnly = true) .EROFS
  raise (checkName name)
  refuse (inode.kind ≠ some .directory) .ENOTDIR
  pure inode

/-- Gives a new directory its first block. -/
def firstDirBlock (parent : ℕ) : MI geo Unit := do
  let block ← bmapAlloc 0
  let inode ← get
  let old ← Prog.beside (writeBlock .content block (Dirent.initDir inode.ino parent geo.filetype))
  Prog.beside (need (22 ≤ old.length))
  set (inode.setSize geo.blockSize)

/-- Gives a new directory its first block, then enters the new inode in `parent`. Handed the new
inode, gives the parent. -/
def linkNew (parent : Inode geo) (name : Bytes) (kind : FileType) : MI geo (Inode geo) := do
  onlyIf (kind = .directory) (firstDirBlock parent.ino)
  let inode ← get
  Prog.beside (addEntry parent name inode.ino kind)

/-- **Creates `dir/name`**, a regular file or a directory. -/
def make (dir : Ino) (name : Bytes) (kind : FileType) : M geo Ino := do
  let parent ← dirForChange dir name
  let found ← findEntry parent name
  refuse (found.isSome = true) .EEXIST
  let isDir := decide (kind = .directory)
  refuse (isDir = true ∧ parent.links ≥ linkMax) .ENOSPC
  let mode := if isDir then 0o040755 else 0o100644
  let ino ← allocInode parent.ino isDir
  let t ← now
  let linked ← Prog.handing (linkNew parent name kind) (Inode.fresh geo ino mode t)
  match linked.1 with
  | .error e => do
    let freed ← Prog.handing (freeFrom 0) linked.2
    raise freed.1
    freeInode ino isDir
    throw e
  | .ok parent => do
    writeInode linked.2
    need (isDir = true → parent.links + 1 < 2 ^ 16)
    writeInode (if isDir then parent.setLinks (parent.links + 1) else parent)
    pure ino

/-- Checks that directory `dir`'s `..` names `parent`, the directory it is found in. -/
def checkParent (dir : Inode geo) (parent : Ino) : M geo Unit := do
  let found ← findEntry dir Dirent.dotDot
  match found with
  | some dotDot => refuse (dotDot.entry.inode ≠ parent) Errno.EIO
  | none => throw Errno.EIO

/-- Drops one link of a non-directory, freeing it with the last. -/
def dropLink (inode : Inode geo) : M geo Unit := do
  let t ← now
  let inode := (inode.setLinks (inode.links - 1)).setCtime t
  if inode.links = 0 then releaseInode inode else writeInode inode

/-- The entry called `name` in `dir`; `ENOENT` if there is none. -/
def entryNamed (dir : Inode geo) (name : Bytes) : M geo Found := do
  let found ← findEntry dir name
  match found with
  | some found => pure found
  | none => throw .ENOENT

/-- **Removes a name** that is not a directory's. -/
def removeFile (dir : Ino) (name : Bytes) : M geo Unit := do
  let parent ← dirForChange dir name
  let found ← entryNamed parent name
  let inode ← entryInode found
  refuse (inode.kind = some .directory) .EISDIR
  let parent ← removeEntry parent found
  writeInode parent
  dropLink inode

/-- **Removes an empty directory.** -/
def removeDir (dir : Ino) (name : Bytes) : M geo Unit := do
  let parent ← dirForChange dir name
  let found ← entryNamed parent name
  let inode ← entryInode found
  refuse (inode.kind ≠ some .directory) .ENOTDIR
  checkParent inode dir
  let empty ← dirIsEmpty inode
  refuse (empty = false) .ENOTEMPTY
  let parent ← removeEntry parent found
  -- its `..` no longer counts
  writeInode (parent.setLinks (parent.links - 1))
  let t ← now
  releaseInode (inode.setCtime t)

/-! ### Renaming -/

/-- The deepest directory rename walks up from. -/
def maxDepth : ℕ := 4096

/-- The loop of `is_ancestor` up the `..` entries. -/
def isAncestorLoop (ancestor : ℕ) : ℕ → Ino → M geo Bool
  | 0, _ => throw Errno.EIO
  | turns + 1, here =>
    if here = ancestor then pure true
    else if here = rootIno then pure false
    else do
      let inode ← dirInode here
      let found ← findEntry inode Dirent.dotDot
      match found with
      | none => throw Errno.EIO
      | some parent => isAncestorLoop ancestor turns parent.entry.inode

/-- **Whether directory `ancestor` is `dir` or above it**, walking `..` up to the root. -/
def isAncestor (ancestor : ℕ) (dir : Ino) : M geo Bool := do
  let m ← mem
  let used := geo.inodesCount - min m.sb.freeInodesCount geo.inodesCount
  isAncestorLoop ancestor (min used maxDepth + 1) dir

/-- The inode a rename replaces, checked to be one it may replace. -/
def replacedInode (srcIsDir : Bool) (target : Found) (toDir : Ino) : M geo (Inode geo) := do
  let inode ← entryInode target
  let isDir := decide (inode.kind = some .directory)
  onlyIf (isDir = true) (checkParent inode toDir)
  refuse (srcIsDir = true ∧ isDir = false) .ENOTDIR
  refuse (srcIsDir = false ∧ isDir = true) .EISDIR
  onlyIf (isDir = true) do
    let empty ← dirIsEmpty inode
    refuse (empty = false) .ENOTEMPTY
  pure inode

/-- The inode at the new name, if there is one. -/
def replacedAt (srcIsDir : Bool) (target : Option Found) (toDir : Ino) :
    M geo (Option (Inode geo)) :=
  match target with
  | some t => do
    let inode ← replacedInode srcIsDir t toDir
    pure (some inode)
  | none => pure none

/-- **The new name**, for the inode `ino` of type `kind`: the target's entry is pointed at
it and what it replaces loses a name, or a new entry is added. -/
def enterTarget (dstParent : Inode geo) (dst : Bytes) (ino : ℕ) (kind : FileType)
    (target : Option Found) (replaced : Option (Inode geo)) : M geo Unit :=
  match target, replaced with
  | some t, some old => do
    let data ← writeBlock .content t.block (Dirent.retarget t.entry ino (fileTypeOf geo kind))
    need (t.entry.HeaderFits data.length)
    let dstParent ← changedDir dstParent
    if old.kind = some .directory then do
      writeInode (dstParent.setLinks (dstParent.links - 1))
      let t ← now
      releaseInode (old.setCtime t)
    else do
      writeInode dstParent
      dropLink old
  | _, _ => do
    let dstParent ← addEntry dstParent dst ino kind
    writeInode dstParent

/-- **The old name goes.** The inode is read again: the two parents may be one directory. -/
def leaveSource (fromDir : Ino) (src : Bytes) (movesDir : Bool) : M geo Unit := do
  let srcParent ← inode fromDir
  let found ← findEntry srcParent src
  match found with
  | none => throw Errno.EIO
  | some found => do
    let srcParent ← removeEntry srcParent found
    writeInode (if movesDir then srcParent.setLinks (srcParent.links - 1) else srcParent)

/-- A directory that moved to another gets it as its parent. -/
def reparent (src : Inode geo) (toDir : Ino) : M geo Unit := do
  let dstParent ← inode toDir
  need (dstParent.links + 1 < 2 ^ 16)
  writeInode (dstParent.setLinks (dstParent.links + 1))
  let found ← findEntry src Dirent.dotDot
  match found with
  | none => throw Errno.EIO
  | some dotDot => do
    let data ← writeBlock .content dotDot.block
      (Dirent.retarget dotDot.entry (toDir % 2 ^ 32) (fileTypeOf geo .directory))
    need (dotDot.entry.HeaderFits data.length)

/-- What a rename does once it knows what moves where. -/
def moveFound (fromDir : Ino) (src : Bytes) (toDir : Ino) (dst : Bytes)
    (dstParent moved : Inode geo)
    (kind : FileType) (target : Option Found) : M geo Unit := do
  let srcIsDir := decide (kind = .directory)
  onlyIf (srcIsDir = true) (checkParent moved fromDir)
  onlyIf (srcIsDir = true) do
    let above ← isAncestor moved.ino toDir
    refuse (above = true) .EINVAL
  let replaced ← replacedAt srcIsDir target toDir
  let movesDir := srcIsDir && decide (fromDir ≠ toDir)
  refuse (movesDir = true ∧ replaced.isNone = true ∧ dstParent.links ≥ linkMax) .ENOSPC
  enterTarget dstParent dst moved.ino kind target replaced
  leaveSource fromDir src movesDir
  let moved ← inode moved.ino
  onlyIf (movesDir = true) (reparent moved toDir)
  let t ← now
  writeInode (moved.setCtime t)

/-- **Moves an entry**, which may replace another. -/
def moveEntry (fromDir : Ino) (src : Bytes) (toDir : Ino) (dst : Bytes) : M geo Unit := do
  let srcParent ← inode fromDir
  let dstParent ← inode toDir
  let m ← mem
  refuse (m.readOnly = true) .EROFS
  raise (checkName src)
  raise (checkName dst)
  refuse (srcParent.kind ≠ some .directory) .ENOTDIR
  refuse (dstParent.kind ≠ some .directory) .ENOTDIR
  let found ← entryNamed srcParent src
  let moved ← entryInode found
  let target ← findEntry dstParent dst
  -- both names already refer to the same inode
  if target.any (fun t => t.entry.inode == moved.ino) = true then pure ()
  else
    match moved.kind with
    | none => do
      need False
      throw Errno.EIO
    | some kind => moveFound fromDir src toDir dst dstParent moved kind target

end RelayOs.Ext2
