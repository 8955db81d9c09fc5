import RelayOs.Lib.Fields
import RelayOs.Vfs.Contract

/-!
# Directory blocks

The entries of one directory block, parsed and validated in full on every read. An entry
is an inode number, a record length, a name length and a file type, then the name;
records tile the block exactly. Without the `filetype` feature the name length is 16 bits
and there is no type byte.
-/

namespace RelayOs.Ext2

open Vfs

namespace Dirent

/-- Bytes before an entry's name. -/
def header : ℕ := 8

/-- **One entry of a directory block.** -/
structure Entry where
  offset : ℕ
  inode : ℕ
  recLen : ℕ
  nameLen : ℕ
  deriving DecidableEq, Repr

/-- The entry's name, in its block. -/
def Entry.name (e : Entry) (block : Bytes) : Bytes := slice block (e.offset + header) e.nameLen

/-- The entry's name lies inside a block of `len` bytes. -/
def Entry.NameFits (e : Entry) (len : ℕ) : Prop := e.offset + header + e.nameLen ≤ len

instance (e : Entry) (len : ℕ) : Decidable (e.NameFits len) :=
  inferInstanceAs (Decidable (_ ≤ _))

/-- The smallest record holding a name of `nameLen` bytes. -/
def recLenFor (nameLen : ℕ) : ℕ := (header + nameLen + 3) / 4 * 4

/-- The file type byte of an entry for an inode of type `kind`. -/
def typeByte : FileType → UInt8
  | .regular => 1
  | .directory => 2
  | .charDev => 3
  | .blockDev => 4
  | .fifo => 5
  | .socket => 6
  | .symlink => 7

/-! ### Changes -/

/-- Sets the record length of the entry at `offset`. -/
def setRecLen (offset recLen : ℕ) : Edit := .u16 (offset + 4) (recLen % 2 ^ 16)

/-- The two bytes after the record length: the name's length, and the type byte with the
`filetype` feature. -/
def lenBytes (nameLen : ℕ) : Option UInt8 → Bytes
  | some t => [UInt8.ofNat nameLen, t]
  | none => u16Bytes (nameLen % 2 ^ 16)

/-- Writes an entry at `offset`. -/
def put (offset recLen : ℕ) (name : Bytes) (inode : ℕ) (fileType : Option UInt8) : Edit :=
  (((Edit.u32 offset inode).andThen (setRecLen offset recLen)).andThen
    (.splice (offset + 6) (lenBytes name.length fileType))).andThen (.splice (offset + header) name)

/-- What `put` writes stays inside a block of `len` bytes. -/
def PutFits (offset : ℕ) (name : Bytes) (len : ℕ) : Prop := offset + header + name.length ≤ len

instance (offset : ℕ) (name : Bytes) (len : ℕ) : Decidable (PutFits offset name len) :=
  inferInstanceAs (Decidable (_ ≤ _))

/-- **An entry with room** for a new name of `nameLen` bytes: an unused one large enough,
or a used one whose record has that much to spare after its own name. -/
def room (entries : List Entry) (nameLen : ℕ) : Option Entry :=
  entries.find? fun e =>
    if e.inode = 0 then decide (recLenFor nameLen ≤ e.recLen)
    else decide (recLenFor e.nameLen + recLenFor nameLen ≤ e.recLen)

/-- **Adds `name`** in the room `spot`: reusing an unused entry, or splitting the spare
space off a used one. -/
def insert (spot : Entry) (name : Bytes) (inode : ℕ) (fileType : Option UInt8) : Edit :=
  if spot.inode = 0 then put spot.offset spot.recLen name inode fileType
  else
    let kept := recLenFor spot.nameLen
    (setRecLen spot.offset kept).andThen
      (put (spot.offset + kept) (spot.recLen - kept) name inode fileType)

/-- What `insert` writes stays inside a block of `len` bytes. -/
def InsertFits (spot : Entry) (name : Bytes) (len : ℕ) : Prop :=
  if spot.inode = 0 then PutFits spot.offset name len
  else recLenFor spot.nameLen ≤ spot.recLen ∧
    PutFits (spot.offset + recLenFor spot.nameLen) name len

instance (spot : Entry) (name : Bytes) (len : ℕ) : Decidable (InsertFits spot name len) :=
  inferInstanceAs (Decidable (ite _ _ _))

/-- **Removes `entry`**: its record joins the previous entry's, or, first in the block, it
just becomes unused. -/
def remove (entry : Entry) : Option Entry → Edit
  | some prev => setRecLen prev.offset (prev.recLen + entry.recLen)
  | none => .u32 entry.offset 0

/-- **Points `entry` at another inode**, of type `fileType`. -/
def retarget (entry : Entry) (inode : ℕ) : Option UInt8 → Edit
  | some t => (Edit.u32 entry.offset inode).andThen (.splice (entry.offset + 7) [t])
  | none => .u32 entry.offset inode

/-- The header of the entry lies inside a block of `len` bytes. -/
def Entry.HeaderFits (e : Entry) (len : ℕ) : Prop := e.offset + header ≤ len

instance (e : Entry) (len : ℕ) : Decidable (e.HeaderFits len) :=
  inferInstanceAs (Decidable (_ ≤ _))

/-- Fills the block with zeros. -/
def fillZero : Edit := .zeroFrom 0

/-- Makes a block an empty directory block: one unused entry covering it. -/
def initEmpty : Edit where
  apply d := (setRecLen 0 d.length).apply (fillZero.apply d)
  length_apply d := ((setRecLen 0 d.length).length_apply _).trans (fillZero.length_apply d)

/-- The name `.`. -/
def dot : Bytes := [0x2e]

/-- The name `..`. -/
def dotDot : Bytes := [0x2e, 0x2e]

/-- Makes a block a new directory's first block: `.` and `..`. -/
def initDir (inode parent : ℕ) (filetype : Bool) : Edit :=
  let t := if filetype then some (typeByte .directory) else none
  { apply := fun d => (put 12 (d.length - 12) dotDot parent t).apply
      ((put 0 12 dot inode t).apply (fillZero.apply d))
    length_apply := fun d => by
      rw [(put 12 _ dotDot parent t).length_apply, (put 0 12 dot inode t).length_apply,
        fillZero.length_apply] }

/-! ### Reading a block -/

/-- What is wrong with a directory block. -/
inductive Flaw
  | headerPastEnd | badRecLen | recLenPastEnd | nameTooLong | inodeOutOfRange
  | emptyName | nameWithSlashOrNul | misplacedDots
  deriving DecidableEq, Repr

/-- Why a directory block does not parse: what is wrong, and where. -/
structure Corrupt where
  offset : ℕ
  what : Flaw
  deriving DecidableEq, Repr

/-- The entry at `offset`, if it is one. -/
def parseEntry (block : Bytes) (filetype : Bool) (maxInode offset : ℕ) : Except Corrupt Entry :=
  let inode := u32At block offset
  let recLen := u16At block (offset + 4)
  let nameLen :=
    if filetype then (block.getD (offset + 6) 0).toNat else u16At block (offset + 6)
  if block.length - offset < header then .error ⟨offset, .headerPastEnd⟩
  else if recLen % 4 ≠ 0 ∨ recLen < header then .error ⟨offset, .badRecLen⟩
  else if recLen > block.length - offset then .error ⟨offset, .recLenPastEnd⟩
  else if nameLen > 255 ∨ recLenFor nameLen > recLen then .error ⟨offset, .nameTooLong⟩
  else if inode > maxInode then .error ⟨offset, .inodeOutOfRange⟩
  else .ok ⟨offset, inode, recLen, nameLen⟩

/-- The loop of `parse`. Each record is at least a header long, so as many turns as there are bytes
are enough. -/
def parseLoop (block : Bytes) (filetype : Bool) (maxInode : ℕ) :
    ℕ → ℕ → Except Corrupt (List Entry)
  | 0, _ => .ok []
  | turns + 1, offset =>
    if block.length ≤ offset then .ok []
    else
      match parseEntry block filetype maxInode offset with
      | .error e => .error e
      | .ok entry =>
        match parseLoop block filetype maxInode turns (offset + entry.recLen) with
        | .error e => .error e
        | .ok entries => .ok (entry :: entries)

/-- **Parses every entry of `block`.** Used entries must name inodes up to `maxInode`. -/
def parse (block : Bytes) (filetype : Bool) (maxInode : ℕ) : Except Corrupt (List Entry) :=
  parseLoop block filetype maxInode block.length 0

/-- The place `.` and `..` have in a directory's first block. -/
def place (name : Bytes) : Option ℕ :=
  if name = dot then some 0 else if name = dotDot then some 1 else none

/-- What is wrong with the name of entry `i`, if it is used. -/
def checkName (block : Bytes) (firstBlock : Bool) (i : ℕ) (e : Entry) : Option Flaw :=
  let name := e.name block
  if e.inode = 0 then none
  else if name = [] then some .emptyName
  else if name.contains 0x2f || name.contains 0 then some .nameWithSlashOrNul
  else
    match place name with
    | some p => if !firstBlock || p ≠ i then some .misplacedDots else none
    | none => none

/-- The loop of `check_names`, from entry `i` on. -/
def checkNamesLoop (block : Bytes) (firstBlock : Bool) : ℕ → List Entry → Except Corrupt Unit
  | _, [] => .ok ()
  | i, e :: entries =>
    match checkName block firstBlock i e with
    | some what => .error ⟨e.offset, what⟩
    | none => checkNamesLoop block firstBlock (i + 1) entries

/-- **Checks the names of the used entries**: none is empty or holds `/` or NUL, and `.`
and `..` are only the first two entries of a directory's first block. -/
def checkNames (block : Bytes) (entries : List Entry) (firstBlock : Bool) : Except Corrupt Unit :=
  checkNamesLoop block firstBlock 0 entries

end Dirent

end RelayOs.Ext2
