import RelayOs.Memory.Phys

/-!
# Page tables: the code

Four-level page tables, as programs over physical memory. A PML4 has 512 entries; below it
are the PDPTs, page directories and page tables, and an entry of a page table names a page.
The kernel's own mappings (`RelayOs.Mm.map`) are writable and not executable; a program's pages
(`RelayOs.Mm.mapUser`) lie in the lower half and carry the permissions of their segment.
-/

namespace RelayOs.Mm

/-! ### Entries -/

/-- Bytes in a 2 MiB page. -/
def huge : ℕ := 2 * 2 ^ 20

/-- The entry maps something. -/
def present : ℕ := 1

/-- What it maps may be written. -/
def writable : ℕ := 2

/-- A program may use it. -/
def user : ℕ := 4

/-- Writes go through the cache. -/
def pwt : ℕ := 8

/-- It is not cached. -/
def pcd : ℕ := 16

/-- The processor has used the entry. -/
def accessed : ℕ := 32

/-- The processor has written to the page. -/
def dirty : ℕ := 64

/-- The entry maps a page of 2 MiB. -/
def hugePage : ℕ := 128

/-- What it maps must not be executed. -/
def noExecute : ℕ := 2 ^ 63

/-- Where an entry has the address of a page of 2 MiB. -/
def hugeAddrMask : ℕ := 0x000FFFFFFFE00000

/-- The end of the lower half (PML4 entries 0-255), which programs own. -/
def lowerHalfEnd : ℕ := 0x0000800000000000

/-- What a program may do with one of its pages. -/
inductive Perm
  | readExec
  | read
  | readWrite
  deriving DecidableEq, Repr

namespace Perm

/-- The bits of an entry for pages of this kind. -/
def bits : Perm → ℕ
  | readExec => 0
  | read => noExecute
  | readWrite => writable ||| noExecute

/-- What an entry lets a program do. -/
def ofEntry (e : ℕ) : Perm :=
  if e &&& writable ≠ 0 then readWrite
  else if e &&& noExecute ≠ 0 then read
  else readExec

end Perm

/-- Memory types used by the kernel. -/
inductive Cache
  | writeBack
  | writeCombining
  | uncached
  deriving DecidableEq, Repr

/-- The bits of an entry that is cached like this. -/
def Cache.bits : Cache → ℕ
  | writeBack => 0
  | writeCombining => pwt
  | uncached => pwt ||| pcd

/-- How an entry is cached. -/
def Cache.ofEntry (e : ℕ) : Cache :=
  if e &&& (pwt ||| pcd) = 0 then writeBack
  else if e &&& (pwt ||| pcd) = pwt then writeCombining
  else uncached

/-- Why nothing was mapped. -/
inductive MapError
  | outOfMemory
  | conflict (virt : ℕ)
  | unaligned
  | outOfRange
  | notUser (virt : ℕ)
  deriving DecidableEq, Repr

/-- The index of `virt` in its table of `level` (3 the PML4, 0 a page table). -/
def index (virt level : ℕ) : ℕ := (virt >>> (12 + 9 * level)) &&& 0x1FF

/-- Equal apart from the accessed and dirty bits, which the CPU sets. -/
def same (entry want : ℕ) : Bool := entry - (entry &&& (accessed ||| dirty)) = want

/-! ### Programs that can fail -/

/-- **A function that maps**, which can fail. -/
abbrev MapM (α : Type) := ExceptT MapError (Prog physMem) α

/-- Fails with `e` if `c` holds. -/
def refuse (c : Prop) [Decidable c] (e : MapError) : MapM Unit := if c then throw e else pure ()

/-- A zeroed frame, or the failure for want of memory. -/
def newFrame : MapM ℕ :=
  ExceptT.mk (allocTable.bind fun
    | some t => .ret (.ok t)
    | none => .ret (.error .outOfMemory))

/-! ### Going down the tables -/

/-- The flags of a table on the way to `virt`: those of the lower half carry the user bit, the
kernel's never do. -/
def tableFlags (virt : ℕ) : ℕ :=
  if virt < lowerHalfEnd then present ||| writable ||| user else present ||| writable

/-- A new table under entry `i` of `table`. -/
def makeChild (table i virt : ℕ) : MapM ℕ := do
  let t ← newFrame
  setWord table i (t ||| tableFlags virt)
  return t

/-- The next-level table under entry `i` of `table`, created if missing. -/
def child (table i virt : ℕ) : MapM ℕ := do
  let e ← word table i
  if e &&& present = 0 then makeChild table i virt
  else if e &&& hugePage ≠ 0 ∨ e &&& tableFlags virt ≠ tableFlags virt then throw (.conflict virt)
  else return e &&& addrMask

/-- The page directory covering `virt`; the entry is `index virt 1`. -/
def pdSlot (pml4 virt : ℕ) : MapM ℕ := do
  let pdpt ← child pml4 (index virt 3) virt
  child pdpt (index virt 2) virt

/-- The 4 KiB leaf entry for `virt` below `table` of `level`: its page table. -/
def leafFrom (virt : ℕ) : ℕ → ℕ → Prog physMem (Option ℕ)
  | 0, table => return some table
  | level + 1, table => do
    let e ← word table (index virt (level + 1))
    if e &&& present = 0 ∨ e &&& hugePage ≠ 0 then return none
    else leafFrom virt level (e &&& addrMask)

/-- The page table of `virt`, if every table on the way is there; the entry is `index virt 0`. -/
def leaf (pml4 virt : ℕ) : Prog physMem (Option ℕ) := leafFrom virt 3 pml4

/-! ### A program's pages -/

/-- **Maps the 4 KiB page at `virt`** in the lower half to the frame `phys` for ring 3, with
`perm`. A page already mapped is a conflict. -/
def mapUser (pml4 virt phys : ℕ) (perm : Perm) : MapM Unit := do
  refuse ((virt ||| phys) % page ≠ 0) .unaligned
  refuse (lowerHalfEnd ≤ virt) (.notUser virt)
  let pd ← pdSlot pml4 virt
  let pt ← child pd (index virt 1) virt
  let e ← word pt (index virt 0)
  refuse (e &&& present ≠ 0) (.conflict virt)
  setWord pt (index virt 0) (phys ||| (present ||| user ||| perm.bits))

/-- Clears the entry of `virt` in the page table `pt`; the frame it named. -/
def clearEntry (virt pt : ℕ) : Prog physMem (Option ℕ) := do
  let e ← word pt (index virt 0)
  if e &&& present = 0 then return none
  else do
    setWord pt (index virt 0) 0
    return some (e &&& addrMask)

/-- **Removes the 4 KiB page at `virt`** and returns its frame; `none` if no 4 KiB page is
mapped there. The tables stay. -/
def unmap (pml4 virt : ℕ) : Prog physMem (Option ℕ) := do
  match ← leaf pml4 virt with
  | none => return none
  | some pt => clearEntry virt pt

/-- The page holding `virt`, going down `level` tables from `table`. -/
def userPageFrom (virt : ℕ) : ℕ → ℕ → Prog physMem (Option (ℕ × Perm))
  | 0, _ => return none
  | level + 1, table => do
    let e ← word table (index virt level)
    if e &&& (present ||| user) ≠ present ||| user ∨ e &&& hugePage ≠ 0 then return none
    else if level = 0 then return some (e &&& addrMask, Perm.ofEntry e)
    else userPageFrom virt level (e &&& addrMask)

/-- **The frame and permission of the page holding `virt`**, if ring 3 may use it: in the
lower half, and the user bit at every level. -/
def userPage (pml4 virt : ℕ) : Prog physMem (Option (ℕ × Perm)) :=
  if lowerHalfEnd ≤ virt then return none else userPageFrom virt 4 pml4

/-! ### Giving everything back -/

/-- Frees what entry `i` of `table` leads to, by `below`. -/
def freeEntry (table : ℕ) (below : ℕ → Prog physMem Unit) (i : ℕ) : Prog physMem Unit := do
  let e ← word table i
  if e &&& present = 0 then return () else below (e &&& addrMask)

/-- **Frees the table** of `level` (2 a PDPT, 1 a PD, 0 a PT), the tables below it and, from a
PT, the pages it maps. -/
def freeTable : ℕ → ℕ → Prog physMem Unit
  | 0, table => do
    Prog.upTo (freeEntry table freeFrame) 512
    freeFrame table
  | level + 1, table => do
    Prog.upTo (freeEntry table (freeTable level)) 512
    freeFrame table

/-- Empties entry `i` of the PML4 and frees what it led to. -/
def freeTop (pml4 i : ℕ) : Prog physMem Unit :=
  freeEntry pml4 (fun pdpt => do
    setWord pml4 i 0
    freeTable 2 pdpt) i

/-- Gives back every page of the lower half and every table below its PML4 entries, which
are left empty. -/
def freeLowerHalf (pml4 : ℕ) : Prog physMem Unit := Prog.upTo (freeTop pml4) 256

/-! ### The kernel's mappings -/

/-- What a page of the kernel's is mapped with. -/
def kernelFlags (cache : Cache) : ℕ := present ||| writable ||| noExecute ||| cache.bits

/-- Maps one 2 MiB page. -/
def mapHuge (pml4 v p : ℕ) (cache : Cache) : MapM Bool := do
  let pd ← pdSlot pml4 v
  let e ← word pd (index v 1)
  let want := p ||| (kernelFlags cache ||| hugePage)
  if e &&& present = 0 then do
    setWord pd (index v 1) want
    return true
  else if e &&& hugePage = 0 then return false
  else if same e want then return true
  else throw (.conflict v)

/-- Maps the page at `v` in the table `pt`. -/
def setLeaf (pt v p : ℕ) (cache : Cache) : MapM Unit := do
  let e ← word pt (index v 0)
  let want := p ||| kernelFlags cache
  if e &&& present = 0 then setWord pt (index v 0) want
  else if same e want then return ()
  else throw (.conflict v)

/-- Maps one page of 4 KiB. -/
def map4k (pml4 v p : ℕ) (cache : Cache) : MapM Unit := do
  let pd ← pdSlot pml4 v
  let e ← word pd (index v 1)
  if e &&& present ≠ 0 ∧ e &&& hugePage ≠ 0 then
    -- Inside an existing 2 MiB page: fine if it maps `v` the same way.
    if same e ((p - p % huge) ||| (kernelFlags cache ||| hugePage)) ∧
      (e &&& hugeAddrMask) + v % huge = p then
      return ()
    else throw (.conflict v)
  else do
    let pt ← child pd (index v 1) v
    setLeaf pt v p cache

/-- Tries a 2 MiB page, if both addresses are aligned and enough is left. -/
def tryHuge (pml4 v p left : ℕ) (cache : Cache) : MapM Bool :=
  if (v ||| p) % huge = 0 ∧ huge ≤ left then mapHuge pml4 v p cache else return false

/-- The rounds of `map`, from `off` on. -/
def mapFrom (pml4 virt phys len : ℕ) (cache : Cache) : ℕ → ℕ → MapM Unit
  | 0, _ => return ()
  | rounds + 1, off =>
    if len ≤ off then return ()
    else do
      if ← tryHuge pml4 (virt + off) (phys + off) (len - off) cache then
        mapFrom pml4 virt phys len cache rounds (off + huge)
      else do
        map4k pml4 (virt + off) (phys + off) cache
        mapFrom pml4 virt phys len cache rounds (off + page)

/-- **Maps** `[virt, virt + len)` to `[phys, phys + len)`, writable and not executable, using
2 MiB pages wherever both addresses are aligned. -/
def map (pml4 virt phys len : ℕ) (cache : Cache) : MapM Unit := do
  refuse ((virt ||| phys ||| len) % page ≠ 0) .unaligned
  -- Every round covers a page at least.
  mapFrom pml4 virt phys len cache (len / page) 0

/-! ### Where an address leads -/

/-- What an entry of `level` that holds a page makes of `virt`: the physical address, the cache type
and the size of the page. -/
def pageOf (virt level e : ℕ) : ℕ × Cache × ℕ :=
  let size := 2 ^ (12 + 9 * level)
  let base := (e &&& addrMask) - (e &&& addrMask) % size
  (base + virt % size, Cache.ofEntry e, size)

/-- The page holding `virt`, going down `level` tables from `table`. -/
def translateFrom (virt : ℕ) : ℕ → ℕ → Prog physMem (Option (ℕ × Cache × ℕ))
  | 0, _ => return none
  | level + 1, table => do
    let e ← word table (index virt level)
    if e &&& present = 0 then return none
    else if level = 0 ∨ e &&& hugePage ≠ 0 then return some (pageOf virt level e)
    else translateFrom virt level (e &&& addrMask)

/-- **The physical address, cache type and page size `virt` maps to.** -/
def translate (pml4 virt : ℕ) : Prog physMem (Option (ℕ × Cache × ℕ)) := translateFrom virt 4 pml4

end RelayOs.Mm
