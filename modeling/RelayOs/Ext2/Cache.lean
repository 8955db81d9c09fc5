import RelayOs.Vfs.Block

/-!
# The write-back block cache

The cache between ext2 and the device: whole filesystem blocks, the least
recently used clean one evicted when it is full, dirty ones kept until
`RelayOs.Ext2.BlockCache.sync` or until they would fill more than half of it.
-/

namespace RelayOs.Ext2

open Vfs

/-- The largest single device write `sync` issues. -/
def maxWrite : ℕ := 64 * 1024

/-- The fewest blocks a cache holds, whatever its byte capacity. -/
def minBlocks : ℕ := 4

/-- A cached block. -/
structure BlockCache.Entry where
  data : Bytes
  dirty : Bool
  tick : ℕ

/-- **A write-back LRU cache** of filesystem blocks over a device. -/
structure BlockCache where
  dev : Device
  blockSize : ℕ
  scale : ℕ
  capacity : ℕ
  entries : Std.TreeMap ℕ BlockCache.Entry
  lru : Std.TreeMap ℕ ℕ
  tick : ℕ
  dirty : ℕ

namespace BlockCache

/-- A cache of `capacityBytes` (at least four blocks) over `dev`. -/
def new (dev : Device) (blockSize capacityBytes : ℕ) : Except Errno BlockCache :=
  if dev.blockSize = 0 ∨ blockSize = 0 ∨ blockSize % dev.blockSize ≠ 0 then .error .EINVAL
  else .ok
    { dev := dev
      blockSize := blockSize
      scale := blockSize / dev.blockSize
      capacity := max (capacityBytes / blockSize) minBlocks
      entries := ∅
      lru := ∅
      tick := 0
      dirty := 0 }

/-- Where a filesystem block starts on the device. -/
def lba (c : BlockCache) (block : ℕ) : Except Errno ℕ :=
  if block * c.scale < 2 ^ 64 then .ok (block * c.scale) else .error Errno.EIO

/-- Marks a cached block clean, as `write_run` does with each block it wrote. -/
def markClean (c : BlockCache) (block : ℕ) : Option BlockCache :=
  match c.entries[block]? with
  | none => none
  | some e =>
    if c.dirty = 0 then none
    else some
      { c with
        entries := c.entries.insert block { e with dirty := false }
        lru := c.lru.insert e.tick block
        dirty := c.dirty - 1 }

/-- Writes consecutive dirty blocks with one device write and marks them clean. -/
def writeRun (c : BlockCache) (run : List ℕ) : Option (Except Errno Unit × BlockCache) :=
  match run with
  | [] => none
  | first :: _ =>
    match c.lba first with
    | .error e => some (.error e, c)
    | .ok lba => do
      let bufs ← run.mapM fun block => (c.entries[block]?).map Entry.data
      match c.dev.write lba bufs.flatten with
      | (.error e, dev) => some (.error e.toErrno, { c with dev := dev })
      | (.ok (), dev) => do
        let c ← run.foldlM markClean { c with dev := dev }
        some (.ok (), c)

/-- How many of the blocks in `rest` continue a run that expects `want` next, up to `room` of them.
-/
def runLen : ℕ → ℕ → List ℕ → ℕ
  | room + 1, want, block :: rest =>
    if block = want then 1 + runLen room (want + 1) rest else 0
  | _, _, _ => 0

/-- Retries the blocks of a failed run one by one, so only the failing ones stay dirty. -/
def retry (result : Except Errno Unit) :
    List ℕ → BlockCache → Option (Except Errno Unit × BlockCache)
  | [], c => some (result, c)
  | block :: rest, c => do
    let (r, c) ← c.writeRun [block]
    match r with
    | .ok () => retry result rest c
    | .error _ => retry (.error Errno.EIO) rest c

/-- The loop of `write_back` over the dirty blocks not yet written. Each turn takes at least one
block, so as many turns as there are blocks are enough. -/
def writeBackLoop : ℕ → Except Errno Unit → List ℕ → BlockCache →
    Option (Except Errno Unit × BlockCache)
  | _, result, [], c => some (result, c)
  | 0, _, _ :: _, _ => none
  | turns + 1, result, first :: tail, c => do
    let len := 1 + runLen (max (maxWrite / c.blockSize) 1 - 1) (first + 1) tail
    let run := (first :: tail).take len
    let rest := (first :: tail).drop len
    let (r, c) ← c.writeRun run
    match r with
    | .ok () => writeBackLoop turns result rest c
    | .error _ =>
      if run.length = 1 then writeBackLoop turns (.error Errno.EIO) rest c
      else do
        let (result, c) ← retry result run c
        writeBackLoop turns result rest c

/-- The dirty blocks, in ascending order. -/
def dirtyList (c : BlockCache) : List ℕ :=
  (c.entries.toList.filter fun be => be.2.dirty).map Prod.fst

/-- Writes every dirty block in ascending order, merging runs of consecutive blocks
into single device writes of at most 64 KiB. -/
def writeBack (c : BlockCache) : Option (Except Errno Unit × BlockCache) :=
  writeBackLoop c.dirtyList.length (.ok ()) c.dirtyList c

/-- Writes every dirty block, then flushes the device. -/
def sync (c : BlockCache) : Option (Except Errno Unit × BlockCache) := do
  let (written, c) ← c.writeBack
  let (flushed, dev) := c.dev.flush
  let result := match written, flushed with
    | .error e, _ => .error e
    | .ok (), .error e => .error e.toErrno
    | .ok (), .ok () => .ok ()
  some (result, { c with dev := dev })

/-- Writes the dirty blocks out if `p` says so, whatever comes of it: the ones that
fail stay dirty and are reported by `sync`. -/
def writeBackIf (c : BlockCache) (p : Bool) : Option BlockCache :=
  if p then c.writeBack.map Prod.snd else some c

/-- Evicts the least recently used clean block if the cache is full. -/
def makeRoom (c : BlockCache) : Option (Except Errno Unit × BlockCache) :=
  if c.entries.size < c.capacity then
    some (.ok (), c)
  else do
    -- With only dirty blocks left they are written out first.
    let c ← c.writeBackIf c.lru.isEmpty
    match c.lru.toList.head? with
    | none => some (.error Errno.EIO, c)
    | some (tick, block) =>
      some (.ok (), { c with lru := c.lru.erase tick, entries := c.entries.erase block })

/-- Adds a block just read or zeroed, clean. -/
def insert (c : BlockCache) (block : ℕ) (data : Bytes) : BlockCache :=
  { c with
    tick := c.tick + 1
    entries := c.entries.insert block { data := data, dirty := false, tick := c.tick + 1 }
    lru := c.lru.insert (c.tick + 1) block }

/-- Records a use of a cached block. -/
def touch (c : BlockCache) (block : ℕ) : Option BlockCache :=
  match c.entries[block]? with
  | none => none
  | some e =>
    some
      { c with
        tick := c.tick + 1
        entries := c.entries.insert block { e with tick := c.tick + 1 }
        lru := if e.dirty then c.lru else (c.lru.erase e.tick).insert (c.tick + 1) block }

/-- Marks a cached block dirty. -/
def markDirty (c : BlockCache) (block : ℕ) : Option BlockCache :=
  match c.entries[block]? with
  | none => none
  | some e =>
    if e.dirty then some c
    else do
      let c ← c.writeBackIf (c.dirty + 1 > c.capacity / 2)
      match c.entries[block]? with
      | none => none
      | some e =>
        some
          { c with
            entries := c.entries.insert block { e with dirty := true }
            lru := c.lru.erase e.tick
            dirty := c.dirty + 1 }

/-- Makes `block` present, reading it if needed. -/
def load (c : BlockCache) (block : ℕ) : Option (Except Errno Unit × BlockCache) :=
  if c.entries.contains block then do
    let c ← c.touch block
    some (.ok (), c)
  else
    match c.lba block with
    | .error e => some (.error e, c)
    | .ok lba => do
      let (r, c) ← c.makeRoom
      match r with
      | .error e => some (.error e, c)
      | .ok () =>
        match c.dev.read lba c.blockSize with
        | (.error e, dev) => some (.error e.toErrno, { c with dev := dev })
        | (.ok data, dev) => some (.ok (), ({ c with dev := dev }).insert block data)

/-- Block `block`, from the device unless cached. -/
def read (c : BlockCache) (block : ℕ) : Option (Except Errno Bytes × BlockCache) := do
  let (r, c) ← c.load block
  match r with
  | .error e => some (.error e, c)
  | .ok () =>
    let e ← c.entries[block]?
    some (.ok e.data, c)

/-- Block `block` for changing: loaded like `read`, then marked dirty. -/
def write (c : BlockCache) (block : ℕ) : Option (Except Errno Bytes × BlockCache) := do
  let (r, c) ← c.load block
  match r with
  | .error e => some (.error e, c)
  | .ok () =>
    let c ← c.markDirty block
    let e ← c.entries[block]?
    some (.ok e.data, c)

/-- Makes `block` present and filled with zeros, without reading it. -/
def loadZeros (c : BlockCache) (block : ℕ) : Option (Except Errno Unit × BlockCache) :=
  match c.entries[block]? with
  | some e => do
    let e := { e with data := List.replicate e.data.length 0 }
    let c ← ({ c with entries := c.entries.insert block e }).touch block
    some (.ok (), c)
  | none => do
    let (r, c) ← c.makeRoom
    match r with
    | .error e => some (.error e, c)
    | .ok () => some (.ok (), c.insert block (List.replicate c.blockSize 0))

/-- Block `block` filled with zeros and marked dirty (for freshly allocated blocks). -/
def zeroed (c : BlockCache) (block : ℕ) : Option (Except Errno Bytes × BlockCache) := do
  let (r, c) ← c.loadZeros block
  match r with
  | .error e => some (.error e, c)
  | .ok () =>
    let c ← c.markDirty block
    let e ← c.entries[block]?
    some (.ok e.data, c)

/-- What the caller leaves in the block it got from `write` or `zeroed`. -/
def put (c : BlockCache) (block : ℕ) (data : Bytes) : BlockCache :=
  match c.entries[block]? with
  | none => c
  | some e => { c with entries := c.entries.insert block { e with data := data } }

/-- What `write` and then the caller's change do: gives what the block held before it. -/
def writeWith (c : BlockCache) (block : ℕ) (f : Edit) :
    Option (Except Errno Bytes × BlockCache) := do
  let (r, c) ← c.write block
  match r with
  | .error e => some (.error e, c)
  | .ok data => some (.ok data, c.put block (f.apply data))

/-- What `zeroed` and then the caller's change do. -/
def zeroedWith (c : BlockCache) (block : ℕ) (f : Edit) :
    Option (Except Errno Bytes × BlockCache) := do
  let (r, c) ← c.zeroed block
  match r with
  | .error e => some (.error e, c)
  | .ok data => some (.ok data, c.put block (f.apply data))

/-- Blocks changed but not yet written to the device. -/
def dirtyBlocks (c : BlockCache) : ℕ := c.dirty

end BlockCache

end RelayOs.Ext2
