import RelayOs.Vfs.FileSystem
import RelayOs.Ext2.Cache
import RelayOs.Ext2.Directory

/-!
# The mounted filesystem

`RelayOs.Ext2.Fs` is a filesystem mounted on a block device: what it keeps in memory,
its block cache over the device, and a clock. The driver's programs run against it through
`RelayOs.Ext2.handler`, which answers their requests from the cache.
-/

namespace RelayOs.Ext2

open Vfs

/-! ### Writing everything out -/

section Flush

variable {geo : Geometry}

/-- Writes the copies of the superblock in the groups listed into the cache. -/
def writeCopies (sb : Superblock) : List ℕ → M geo Unit
  | [] => pure ()
  | g :: gs => do
    need (geo.groupStart g < 2 ^ 64 ∧ geo.blockSize ≠ 0)
    let loc := geo.superLocation g
    let old ← writeBlock .superblock loc.1 (sb.copyTo loc.2 g)
    need (loc.2 + superblockSize ≤ old.length)
    writeCopies sb gs

/-- **Writes the superblock and its backups** into the cache if it changed. -/
def writeSuper : M geo Unit := do
  let m ← mem
  onlyIf (m.sb.dirty = true) do
    let t ← now
    let sb := m.sb.stampWtime t
    setMem (m.setSb sb)
    writeCopies sb ((List.range geo.groups).filter geo.hasSuper)
    setMem (m.setSb sb.setClean)

/-- Writes the blocks of the descriptor table listed into the cache. -/
def writeTable (raw : Bytes) : List ℕ → M geo Unit
  | [] => pure ()
  | i :: is => do
    let chunk := slice raw (i * geo.blockSize) geo.blockSize
    let old ← zeroBlock .descriptors (geo.firstDataBlock + 1 + i) (.splice 0 chunk)
    need (old.length = chunk.length)
    writeTable raw is

/-- **Writes the group descriptor table** (the primary copy) into the cache if it
changed. -/
def writeGroups : M geo Unit := do
  let m ← mem
  onlyIf (m.groups.dirty = true) do
    need (geo.blockSize ≠ 0)
    writeTable m.groups.raw (List.range (m.groups.raw.length / geo.blockSize))
    setMem { m with
      groups := m.groups.setClean
      count_eq := m.count_eq
      placed := ⟨m.placed.inside, m.placed.disjoint⟩
      raw_length := m.raw_length }

/-- **Writes every change to the device** and flushes it. What fails to be written stays
dirty for the next try. -/
def flush : M geo Unit := do
  writeGroups
  writeSuper
  syncCache

/-- **Writes everything out**, also what a failed shutdown left unwritten. -/
def syncFs : M geo Unit := do
  let m ← mem
  if m.neverWrite then pure () else flush

/-- **Shuts down**: changes are refused from now on, even if writing fails. -/
def shutdownFs : M geo Unit := do
  let m ← mem
  if m.neverWrite then pure ()
  else do
    onlyIf (m.readOnly = false)
      (setMem { m.setSb (m.sb.setState m.mountState) with readOnly := true })
    flush

/-- What is free and what is used. -/
def fsStat : M geo StatFs := do
  let m ← mem
  need (geo.overhead < 2 ^ 64)
  pure
    { blockSize := geo.blockSize
      blocks := geo.blocksCount - geo.overhead
      freeBlocks := m.sb.freeBlocksCount
      availBlocks := m.sb.freeBlocksCount - m.sb.rBlocksCount
      files := geo.inodesCount
      freeFiles := m.sb.freeInodesCount
      readOnly := m.readOnly }

/-- **The program behind an operation** of the filesystem. -/
def exec : (op : FsOp) → M geo op.Value
  | .stat ino => inodeStat ino
  | .lookup dir name => dirLookup dir name
  | .readDir dir => dirList dir
  | .readLink ino => linkTarget ino
  | .readAt ino offset len => fileRead ino offset len
  | .writeAt ino offset buf => fileWrite ino offset buf
  | .truncate ino size => fileTruncate ino size
  | .touch ino => inodeTouch ino
  | .create dir name => make dir name .regular
  | .mkdir dir name => make dir name .directory
  | .unlink dir name => removeFile dir name
  | .rmdir dir name => removeDir dir name
  | .rename fromDir src toDir dst => moveEntry fromDir src toDir dst
  | .statfs => fsStat
  | .sync => syncFs
  | .shutdown => shutdownFs

end Flush

/-! ### The filesystem on its device -/

/-- What the programs of a filesystem of geometry `geo` run on. -/
structure Store (geo : Geometry) where
  mem : Mem geo
  cache : BlockCache
  clock : ℕ → ℕ
  ticks : ℕ

/-- A result of the cache, in the store. -/
def Store.withCache {geo : Geometry} {α : Type} (s : Store geo) (r : Option (α × BlockCache)) :
    Option (α × Store geo) :=
  r.map fun ac => (ac.1, { s with cache := ac.2 })

/-- **The store answers the driver's requests.** -/
def handler (geo : Geometry) : Handler (sig geo) (Store geo)
  | .read _ block, s => s.withCache (s.cache.read block)
  | .write _ block f, s => s.withCache (s.cache.writeWith block f)
  | .zeroed _ block f, s => s.withCache (s.cache.zeroedWith block f)
  | .sync, s => s.withCache s.cache.sync
  | .mem, s => some (s.mem, s)
  | .setMem m, s => some ((), { s with mem := m })
  | .clock, s => some (s.clock s.ticks, { s with ticks := s.ticks + 1 })

/-- **A mounted ext2 filesystem** on a block device. -/
structure Fs where
  geo : Geometry
  store : Store geo

/-- Runs a program of the driver on the filesystem. -/
def Fs.perform {α : Type} (fs : Fs) (p : M fs.geo α) : Option (Except Errno α × Fs) :=
  (p.run.run (handler fs.geo) fs.store).map fun rs => (rs.1, ⟨fs.geo, rs.2⟩)

/-- **Ext2 as a filesystem.** -/
def ext2 : FileSystem Fs where
  root _ := rootIno
  answer op fs := fs.perform (exec op)

/-! ### Mounting -/

/-- How to mount a filesystem. -/
structure MountOptions where
  readOnly : Bool
  cacheBytes : ℕ

/-- Reads the superblock straight from the device: the filesystem block size is not known yet. -/
def readSuperblock (dev : Device) : Option (Except Errno Superblock × Device) :=
  if dev.blockSize = 0 then some (.error .EINVAL, dev)
  else
    let first := superblockOffset / dev.blockSize
    let stop := divCeil (superblockOffset + superblockSize) dev.blockSize
    match dev.read first ((stop - first) * dev.blockSize) with
    | (.error e, dev) => some (.error e.toErrno, dev)
    | (.ok buf, dev) =>
      match Superblock.new (buf.drop (superblockOffset - first * dev.blockSize)) with
      | none => none
      | some sb => some (.ok sb, dev)

/-- Reads the blocks of the descriptor table listed. -/
def readTable (geo : Geometry) : List ℕ → BlockCache → Option (Except Errno Bytes × BlockCache)
  | [], c => some (.ok [], c)
  | i :: is, c => do
    let (r, c) ← c.read (geo.firstDataBlock + 1 + i)
    match r with
    | .error e => some (.error e, c)
    | .ok data => do
      let (rest, c) ← readTable geo is c
      some (rest.map fun rest => data ++ rest, c)

/-- Marks the filesystem in use until `shutdown` marks it clean again, and brings that to the
device. -/
def markMounted {geo : Geometry} : M geo Unit := do
  let m ← mem
  let t ← now
  let sb := m.sb.setState (m.sb.state &&& (2 ^ 16 - 1 - stateValid))
  let sb := sb.setMntCount ((sb.mntCount + 1) % 2 ^ 16)
  setMem (m.setSb (sb.setMtime t))
  flush

/-- The filesystem read from the device, if its descriptor table is as it should be; the error is
the one `mount` gives. -/
def assemble (geo : Geometry) (sb : Superblock) (raw : Bytes) (readOnly : Bool)
    (cache : BlockCache) (clock : ℕ → ℕ) : Option (Except Errno Fs) :=
  match Groups.new raw geo.groups with
  | none => none
  | some groups =>
    if ¬groups.Checkable geo then none
    else match hcheck : groups.check geo with
    | .error _ => some (.error .EINVAL)
    | .ok () =>
      if h : groups.count = geo.groups ∧ groups.raw.length = geo.gdtBlocks * geo.blockSize then
        some (.ok ⟨geo,
          { mem :=
              { sb := sb
                groups := groups
                readOnly := readOnly
                neverWrite := readOnly
                mountState := sb.state
                count_eq := h.1
                placed := .of_check hcheck
                raw_length := h.2 }
            cache := cache
            clock := clock
            ticks := 0 }⟩)
      else none

/-- **Mounts a filesystem**: checks the superblock and features and, read-write, marks the
filesystem not clean. -/
def mount (dev : Device) (clock : ℕ → ℕ) (opts : MountOptions) :
    Option (Except (Errno × Device) Fs) :=
  let deviceBytes := min (dev.blockCount * dev.blockSize) (2 ^ 64 - 1)
  if deviceBytes < superblockOffset + superblockSize then some (.error (.EINVAL, dev))
  else do
    let (r, dev) ← readSuperblock dev
    match r with
    | .error e => some (.error (e, dev))
    | .ok sb => do
      let checked ← sb.check deviceBytes
      match checked with
      | .error _ => some (.error (.EINVAL, dev))
      | .ok geo =>
        match BlockCache.new dev geo.blockSize opts.cacheBytes with
        | .error _ => some (.error (.EINVAL, dev))
        | .ok cache => do
          let (r, cache) ← readTable geo (List.range geo.gdtBlocks) cache
          match r with
          | .error e => some (.error (e, cache.dev))
          | .ok raw => do
            let readOnly := opts.readOnly || sb.unsupportedRoCompat != 0
            let r ← assemble geo sb raw readOnly cache clock
            match r with
            | .error e => some (.error (e, cache.dev))
            | .ok fs =>
              if readOnly then some (.ok fs)
              else do
                let (r, fs) ← fs.perform markMounted
                match r with
                | .error e => some (.error (e, fs.store.cache.dev))
                | .ok () => some (.ok fs)

end RelayOs.Ext2
