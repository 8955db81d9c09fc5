import RelayOs.Vfs.FileSystem

/-!
# The filesystem in memory

`RelayOs.Vfs.MemFs` keeps its inodes in a map. It is the reference the ext2 driver is
checked against, and what the kernel falls back to when no disk mounts.
-/

namespace RelayOs.Vfs

/-- File data lives in chunks of this size; missing chunks are holes. -/
def chunk : ℕ := 4096

/-- The largest file. -/
def maxFileSize : ℕ := 2 ^ 40

/-- What `statfs` reports as the size when there is no capacity limit. -/
def unlimited : ℕ := 2 ^ 32

/-- The chunks of a file. -/
abbrev Chunks := Std.TreeMap ℕ (Block chunk)

/-- What an inode holds. -/
inductive Body
  | file (size : ℕ) (chunks : Chunks)
  | dir (parent : Ino) (entries : Std.TreeMap Bytes Ino)
  | symlink (target : Bytes)
  | special (kind : FileType) (h : kind ≠ .regular ∧ kind ≠ .directory ∧ kind ≠ .symlink)

namespace Body

/-- An empty directory. -/
def emptyDir (parent : Ino) : Body := .dir parent ∅

/-- The type of a node. -/
def kind : Body → FileType
  | file _ _ => .regular
  | dir _ _ => .directory
  | symlink _ => .symlink
  | special k _ => k

end Body

/-- An inode in memory. -/
structure MemNode where
  perm : ℕ
  nlink : ℕ
  uid : ℕ
  gid : ℕ
  atime : ℕ
  mtime : ℕ
  ctime : ℕ
  body : Body

/-- A new inode. -/
def MemNode.new (perm nlink now : ℕ) (body : Body) : MemNode :=
  { perm := perm, nlink := nlink, uid := 0, gid := 0, atime := now, mtime := now, ctime := now
    body := body }

/-- A changed inode. -/
def MemNode.stamp (n : MemNode) (now : ℕ) : MemNode := { n with mtime := now, ctime := now }

/-- A directory with another parent. -/
def MemNode.setParent (n : MemNode) (parent : Ino) : MemNode :=
  match n.body with
  | .dir _ entries => { n with body := .dir parent entries }
  | _ => n

/-- **The filesystem in memory.** `clock` gives the times its clock will tell, and `asked`
counts how often it was asked. -/
structure MemFs where
  nodes : Std.TreeMap Ino MemNode
  clock : ℕ → ℕ
  asked : ℕ
  readOnly : Bool
  capacity : Option ℕ
  used : ℕ

namespace MemFs

/-- The root's inode. -/
def rootIno : Ino := 1

/-- An empty filesystem: just the root directory, mode `0755`. -/
def new (clock : ℕ → ℕ) : MemFs where
  nodes := (∅ : Std.TreeMap Ino MemNode).insert rootIno
    (.new 0o755 2 (clock 0) (.emptyDir rootIno))
  clock := clock
  asked := 1
  readOnly := false
  capacity := none
  used := 0

/-! ### Looking -/

variable (fs : MemFs)

/-- The node with this number. -/
def node (ino : Ino) : Except Errno MemNode :=
  match fs.nodes[ino]? with
  | some n => .ok n
  | none => .error .ENOENT

/-- The entries of a directory. -/
def entries (dir : Ino) : Except Errno (Std.TreeMap Bytes Ino) := do
  match (← fs.node dir).body with
  | .dir _ entries => return entries
  | _ => throw .ENOTDIR

/-- Whether the node is a directory. -/
def isDir (ino : Ino) : Except Errno Bool := do
  match (← fs.node ino).body with
  | .dir _ _ => return true
  | _ => return false

/-- Fails with `e` if `c` holds. -/
def refuse (c : Prop) [Decidable c] (e : Errno) : Except Errno Unit :=
  if c then .error e else .ok ()

/-- The rules for a change to `dir/name`. -/
def checkChange (dir : Ino) (name : Bytes) : Except Errno Unit := do
  let _ ← fs.node dir
  refuse fs.readOnly .EROFS
  checkName name
  let _ ← fs.entries dir

/-- The rules for a change to a regular file's data: its size and chunks. -/
def checkFileChange (ino : Ino) : Except Errno (MemNode × ℕ × Chunks) := do
  let n ← fs.node ino
  refuse fs.readOnly .EROFS
  match n.body with
  | .file size chunks => return (n, size, chunks)
  | .dir _ _ => throw .EISDIR
  | .symlink _ => throw .EINVAL
  | .special _ _ => throw .EINVAL

/-- The number after those in use from `ino` on, in ascending order. -/
def firstFree : ℕ → List ℕ → ℕ
  | ino, [] => ino
  | ino, used :: rest => if used ≠ ino then ino else firstFree (ino + 1) rest

/-- The lowest unused inode number. -/
def freeIno : Ino := firstFree (rootIno + 1) (fs.nodes.keys.filter fun k => rootIno < k)

/-- Whether `ancestor` is `ino` or one of its parents; `none` if the steps do not do. -/
def isAncestorLoop (ancestor : Ino) : ℕ → Ino → Option Bool
  | 0, _ => none
  | steps + 1, ino =>
    if ino = ancestor then some true
    else match fs.nodes[ino]? with
      | some { body := .dir parent _, .. } =>
        if parent ≠ ino then isAncestorLoop ancestor steps parent else some false
      | _ => some false

/-- Whether `ancestor` is `ino` or above it. -/
def isAncestor (ancestor ino : Ino) : Option Bool :=
  fs.isAncestorLoop ancestor (fs.nodes.size + 1) ino

/-- **What is known of a node.** -/
def stat (ino : Ino) : Except Errno Stat := do
  let n ← fs.node ino
  let (size, blocks) := match n.body with
    | .file size chunks => (size, chunks.size * chunk / 512)
    | .dir _ _ => (chunk, chunk / 512)
    | .symlink t => (t.length, 0)
    | .special _ _ => (0, 0)
  return { ino := ino, kind := n.body.kind, perm := n.perm, nlink := n.nlink, uid := n.uid
           gid := n.gid, size := size, blocks := blocks, blockSize := chunk, atime := n.atime
           mtime := n.mtime, ctime := n.ctime }

/-- **The node a name stands for**, `.` and `..` included. -/
def lookup (dir : Ino) (name : Bytes) : Except Errno Ino := do
  let entries ← fs.entries dir
  if name = dot then return dir
  else if name = dotdot then
    match (← fs.node dir).body with
    | .dir parent _ => return parent
    | _ => throw .ENOTDIR
  else match entries[name]? with
    | some ino => return ino
    | none => throw .ENOENT

/-- **The entries**, `.` and `..` first. -/
def readDir (dir : Ino) : Except Errno (List DirEntry) := do
  let parent ← fs.lookup dir dotdot
  let entries ← fs.entries dir
  return ⟨dot, dir⟩ :: ⟨dotdot, parent⟩ :: entries.toList.map fun e => ⟨e.1, e.2⟩

/-- The target of a symbolic link. -/
def readLink (ino : Ino) : Except Errno Bytes := do
  match (← fs.node ino).body with
  | .symlink target => return target
  | _ => throw .EINVAL

/-- The bytes of chunk `index`. -/
def chunkBytes (chunks : Chunks) (index : ℕ) : Bytes :=
  match chunks[index]? with
  | some c => c.val
  | none => List.replicate chunk 0

/-- The `left` bytes from `pos` on, in at most `steps` pieces. -/
def readLoop (chunks : Chunks) : ℕ → ℕ → ℕ → Bytes
  | 0, _, _ => []
  | steps + 1, pos, left =>
    if left = 0 then []
    else
      let len := min left (chunk - pos % chunk)
      ((chunkBytes chunks (pos / chunk)).drop (pos % chunk)).take len ++
        readLoop chunks steps (pos + len) (left - len)

/-- **Reads** up to the end of the file. -/
def readAt (ino : Ino) (offset len : ℕ) : Except Errno Bytes := do
  match (← fs.node ino).body with
  | .file size chunks =>
    if offset ≥ size then return []
    else
      let n := min len (size - offset)
      return readLoop chunks n offset n
  | .dir _ _ => throw .EISDIR
  | .symlink _ => throw .EINVAL
  | .special _ _ => throw .EINVAL

/-- What is free and what is used. -/
def statfs : StatFs :=
  let blocks := fs.capacity.getD unlimited / chunk
  let free := blocks - fs.used / chunk
  { blockSize := chunk, blocks := blocks, freeBlocks := free, availBlocks := free
    files := fs.nodes.size, freeFiles := 2 ^ 32 - 1 - fs.nodes.size, readOnly := fs.readOnly }

/-! ### Changing -/

/-- What the clock tells. -/
def now : ℕ × MemFs := (fs.clock fs.asked, { fs with asked := fs.asked + 1 })

/-- An inode put in. -/
def put (ino : Ino) (n : MemNode) : MemFs := { fs with nodes := fs.nodes.insert ino n }

/-- An inode changed, if it is there. -/
def modify (ino : Ino) (f : MemNode → MemNode) : MemFs :=
  match fs.nodes[ino]? with
  | some n => fs.put ino (f n)
  | none => fs

/-- The entries of a directory changed. -/
def modifyEntries (dir : Ino) (f : Std.TreeMap Bytes Ino → Std.TreeMap Bytes Ino) : MemFs :=
  fs.modify dir fun n => match n.body with
    | .dir parent entries => { n with body := .dir parent (f entries) }
    | _ => n

/-- The directory has changed just now. -/
def changedDir (dir : Ino) (now : ℕ) : MemFs := fs.modify dir fun n => n.stamp now

/-- The chunks an inode holds. -/
def bodyChunks : Body → ℕ
  | .file _ chunks => chunks.size
  | _ => 0

/-- Drops one link; frees the inode and its data with the last one. -/
def dropLink (ino : Ino) (now : ℕ) : MemFs :=
  match fs.nodes[ino]? with
  | none => fs
  | some n =>
    let n := { n with nlink := n.nlink - 1, ctime := now }
    -- a directory has lost its only name
    if n.nlink > 0 ∧ n.body.kind ≠ .directory then fs.put ino n
    else { fs with nodes := fs.nodes.erase ino, used := fs.used - bodyChunks n.body * chunk }

/-- **Makes a node with a name.** -/
def newNode (dir : Ino) (name : Bytes) (perm : ℕ) (body : Body) : Except Errno Ino × MemFs :=
  match (do fs.checkChange dir name
            refuse (name ∈ (← fs.entries dir)) .EEXIST : Except Errno Unit) with
  | .error e => (.error e, fs)
  | .ok _ =>
    let (now, fs) := fs.now
    let ino := fs.freeIno
    let nlink := if body.kind = .directory then 2 else 1
    let fs := fs.put ino (.new perm nlink now body)
    (.ok ino, (fs.modifyEntries dir fun es => es.insert name ino).changedDir dir now)

/-- The pieces of a write from `pos` on, in at most `steps` pieces; what is left over did not fit.
-/
def writeLoop (capacity : Option ℕ) : ℕ → ℕ → Bytes → Chunks → ℕ → Chunks × ℕ × Bytes
  | 0, _, buf, chunks, used => (chunks, used, buf)
  | steps + 1, pos, buf, chunks, used =>
    if buf = [] then (chunks, used, buf)
    else
      let within := pos % chunk
      let len := min buf.length (chunk - within)
      if pos / chunk ∉ chunks ∧ capacity.any (fun c => used + chunk > c) then (chunks, used, buf)
      else
        let used := if pos / chunk ∈ chunks then used else used + chunk
        let old := chunkBytes chunks (pos / chunk)
        let new := old.take within ++ buf.take len ++ old.drop (within + len)
        writeLoop capacity steps (pos + len) (buf.drop len)
          (chunks.insert (pos / chunk) (sector chunk new)) used

/-- **Writes**, as far as there is room. -/
def writeAt (ino : Ino) (offset : ℕ) (buf : Bytes) : Except Errno ℕ × MemFs :=
  match fs.checkFileChange ino with
  | .error e => (.error e, fs)
  | .ok (n, size, chunks) =>
    if buf = [] then (.ok 0, fs)
    else if offset + buf.length > maxFileSize then (.error .EFBIG, fs)
    else
      let (now, fs) := fs.now
      let (chunks, used, left) := writeLoop fs.capacity buf.length offset buf chunks fs.used
      let done := buf.length - left.length
      if done = 0 then (.error .ENOSPC, fs)
      else
        let n := { n with body := .file (max size (offset + done)) chunks }
        (.ok done, { fs.put ino (n.stamp now) with used := used })

/-- A chunk with zeros from `start` on. -/
def zeroFrom (c : Block chunk) (start : ℕ) : Block chunk :=
  sector chunk (c.val.take start)

/-- **Sets the size of a file.** -/
def truncate (ino : Ino) (newSize : ℕ) : Except Errno Unit × MemFs :=
  match fs.checkFileChange ino with
  | .error e => (.error e, fs)
  | .ok (n, _, chunks) =>
    if newSize > maxFileSize then (.error .EFBIG, fs)
    else
      let (now, fs) := fs.now
      let keep := (newSize + chunk - 1) / chunk
      let kept := chunks.filter fun index _ => index < keep
      let freed := (chunks.size - kept.size) * chunk
      let kept := match kept[newSize / chunk]? with
        | some last => kept.insert (newSize / chunk) (zeroFrom last (newSize % chunk))
        | none => kept
      let n := { n with body := .file newSize kept }
      (.ok (), { fs.put ino (n.stamp now) with used := fs.used - freed })

/-- Sets the times to now. -/
def touch (ino : Ino) : Except Errno Unit × MemFs :=
  match (do let _ ← fs.node ino
            refuse fs.readOnly .EROFS : Except Errno Unit) with
  | .error e => (.error e, fs)
  | .ok _ =>
    let (now, fs) := fs.now
    (.ok (), fs.changedDir ino now)

/-- **Makes an empty file.** -/
def create (dir : Ino) (name : Bytes) : Except Errno Ino × MemFs :=
  fs.newNode dir name 0o644 (.file 0 ∅)

/-- **Makes a directory**, which is a link to the one it is in. -/
def mkdir (dir : Ino) (name : Bytes) : Except Errno Ino × MemFs :=
  match fs.newNode dir name 0o755 (.emptyDir dir) with
  | (.error e, fs) => (.error e, fs)
  | (.ok ino, fs) => (.ok ino, fs.modify dir fun n => { n with nlink := n.nlink + 1 })

/-- **Removes a name** that is not a directory's. -/
def unlink (dir : Ino) (name : Bytes) : Except Errno Unit × MemFs :=
  match (do fs.checkChange dir name
            let ino ← fs.lookup dir name
            refuse (← fs.isDir ino) .EISDIR
            return ino : Except Errno Ino) with
  | .error e => (.error e, fs)
  | .ok ino =>
    let (now, fs) := fs.now
    (.ok (), ((fs.modifyEntries dir fun es => es.erase name).dropLink ino now).changedDir dir now)

/-- **Removes an empty directory.** -/
def rmdir (dir : Ino) (name : Bytes) : Except Errno Unit × MemFs :=
  match (do fs.checkChange dir name
            let ino ← fs.lookup dir name
            refuse (¬(← fs.entries ino).isEmpty) .ENOTEMPTY
            return ino : Except Errno Ino) with
  | .error e => (.error e, fs)
  | .ok ino =>
    let (now, fs) := fs.now
    let fs := (fs.modifyEntries dir fun es => es.erase name).dropLink ino now
    (.ok (), (fs.modify dir fun n => { n with nlink := n.nlink - 1 }).changedDir dir now)

/-- What a rename finds: what moves, and what is in its way. -/
def renameFinds (fromDir : Ino) (src : Bytes) (toDir : Ino) (dst : Bytes) :
    Except Errno (Ino × Option Ino) := do
  let _ ← fs.node fromDir
  let _ ← fs.node toDir
  refuse fs.readOnly .EROFS
  checkName src
  checkName dst
  let _ ← fs.entries fromDir
  let _ ← fs.entries toDir
  let ino ← fs.lookup fromDir src
  return (ino, (← fs.entries toDir)[dst]?)

/-- Whether a rename may replace `target`. -/
def mayReplace (srcIsDir : Bool) : Option Ino → Except Errno Unit
  | none => .ok ()
  | some t => do
    let isDir ← fs.isDir t
    refuse (srcIsDir ∧ ¬isDir) .ENOTDIR
    refuse (¬srcIsDir ∧ isDir) .EISDIR
    if isDir then refuse (¬(← fs.entries t).isEmpty) .ENOTEMPTY

/-- What a move replaces, if anything, loses a link; a directory's is also one of the directory it
is in. -/
def dropTarget (now : ℕ) (toDir : Ino) : Option Ino → MemFs
  | none => fs
  | some t =>
    (match fs.isDir t with
      | .ok true => fs.modify toDir fun n => { n with nlink := n.nlink - 1 }
      | _ => fs).dropLink t now

/-- A directory gets another parent. -/
def reparent (fromDir toDir ino : Ino) : MemFs :=
  let fs := fs.modify ino fun n => n.setParent toDir
  let fs := fs.modify fromDir fun n => { n with nlink := n.nlink - 1 }
  fs.modify toDir fun n => { n with nlink := n.nlink + 1 }

/-- The move itself. -/
def move (fromDir : Ino) (src : Bytes) (toDir : Ino) (dst : Bytes) (ino : Ino) (srcIsDir : Bool)
    (target : Option Ino) : MemFs :=
  let (now, fs) := fs.now
  let fs := fs.dropTarget now toDir target
  let fs := fs.modifyEntries fromDir fun es => es.erase src
  let fs := fs.modifyEntries toDir fun es => es.insert dst ino
  let fs := if srcIsDir ∧ fromDir ≠ toDir then fs.reparent fromDir toDir ino else fs
  let fs := fs.modify ino fun n => { n with ctime := now }
  (fs.changedDir fromDir now).changedDir toDir now

/-- **Moves a node** to another name, which it may replace. -/
def rename (fromDir : Ino) (src : Bytes) (toDir : Ino) (dst : Bytes) :
    Option (Except Errno Unit × MemFs) :=
  match fs.renameFinds fromDir src toDir dst with
  | .error e => some (.error e, fs)
  | .ok (ino, target) =>
    if target = some ino then some (.ok (), fs)
    else match fs.isDir ino with
      | .error e => some (.error e, fs)
      | .ok srcIsDir =>
        match (if srcIsDir then fs.isAncestor ino toDir else some false) with
        | none => none
        | some true => some (.error .EINVAL, fs)
        | some false =>
          match fs.mayReplace srcIsDir target with
          | .error e => some (.error e, fs)
          | .ok _ => some (.ok (), fs.move fromDir src toDir dst ino srcIsDir target)

end MemFs

/-- **The filesystem in memory, as a filesystem.** -/
def memFs : FileSystem MemFs where
  root := fun _ => MemFs.rootIno
  answer := fun op fs => match op with
    | .stat ino => some (fs.stat ino, fs)
    | .lookup dir name => some (fs.lookup dir name, fs)
    | .readDir dir => some (fs.readDir dir, fs)
    | .readLink ino => some (fs.readLink ino, fs)
    | .readAt ino offset len => some (fs.readAt ino offset len, fs)
    | .writeAt ino offset buf => some (fs.writeAt ino offset buf)
    | .truncate ino size => some (fs.truncate ino size)
    | .touch ino => some (fs.touch ino)
    | .create dir name => some (fs.create dir name)
    | .mkdir dir name => some (fs.mkdir dir name)
    | .unlink dir name => some (fs.unlink dir name)
    | .rmdir dir name => some (fs.rmdir dir name)
    | .rename fromDir src toDir dst => fs.rename fromDir src toDir dst
    | .statfs => some (Except.ok fs.statfs, fs)
    | .sync => some (Except.ok (), fs)
    | .shutdown => some (Except.ok (), { fs with readOnly := true })

end RelayOs.Vfs
