import Mathlib

/-!
# The heap

An allocator over regions of memory. Small blocks come from size classes, each with a free
list of blocks carved out of slabs; larger ones from an address-ordered first-fit free list,
in which freed blocks are merged with free neighbours. No block has a header: the layout
gives its size class or rounded size again when it is freed.
-/

namespace RelayOs.Heap

/-! ### Arithmetic -/

/-- A sum, if it fits in a word. -/
def plus (a b : ℕ) : Option ℕ := if a + b < 2 ^ 64 then some (a + b) else none

/-- A difference, if there is one. -/
def minus (a b : ℕ) : Option ℕ := if b ≤ a then some (a - b) else none

/-- The first multiple of `m` from `a` on. -/
def nextMultiple (a m : ℕ) : ℕ := if a % m = 0 then a else a + (m - a % m)

/-- The first multiple of `m` from `a` on, if it fits in a word. -/
def nextMultipleOf (a m : ℕ) : Option ℕ :=
  if a % m = 0 then some a else plus a (m - a % m)

/-! ### Layouts -/

/-- **What a block is asked to be**: its size, and the power of two its address is to be a
multiple of. -/
structure Layout where
  size : ℕ
  align : ℕ
  align_pow : ∃ k, align = 2 ^ k
  size_le : size + align ≤ 2 ^ 63

instance : DecidableEq Layout := fun l l' =>
  decidable_of_iff (l.size = l'.size ∧ l.align = l'.align)
    ⟨fun h => by cases l; cases l'; simpa using h, fun h => by rw [h]; exact ⟨rfl, rfl⟩⟩

/-- The block sizes small layouts are rounded up to. -/
def sizeClasses : List ℕ := [16, 32, 64, 128, 256, 512, 1024, 2048]

/-- The number of a size class. -/
abbrev Class : Type := Fin 8

/-- The block size of a class. -/
def classSize (c : Class) : ℕ := sizeClasses.get c

/-- What is cut into small blocks at a time. -/
def slab : ℕ := 4096

/-- The smallest block, and its alignment. -/
def minBlock : ℕ := 16

/-- The size class of the layout, if it is small enough for one. -/
def classOf (l : Layout) : Option Class :=
  (List.finRange 8).find? fun c => decide (max l.size l.align ≤ classSize c)

/-- The size of a large block of the layout. It fits in a word, as the layout does. -/
def largeSize (l : Layout) : ℕ := nextMultiple (max l.size minBlock) minBlock

/-- The size of a block of the layout: its class's, or the rounded one. -/
def blockSize (l : Layout) : ℕ :=
  match classOf l with
  | some c => classSize c
  | none => largeSize l

end Heap

open Heap

/-- **The heap**, and the memory it has its lists in. -/
structure Heap where
  mem : ℕ → ℕ
  start : ℕ
  stop : ℕ
  total : ℕ
  classes : Heap.Class → ℕ
  large : ℕ
  used : ℕ

/-- What `stats` counts. -/
structure HeapStats where
  total : ℕ
  used : ℕ
  freeLarge : ℕ
  largestFree : ℕ
  deriving DecidableEq, Repr

namespace Heap

/-- A heap without a region, whatever memory holds. -/
def empty (mem : ℕ → ℕ) : Heap := ⟨mem, 2 ^ 64 - 1, 0, 0, fun _ => 0, 0, 0⟩

/-- The most steps a walk along a list is given: no list has a block for each address. -/
def walkMax : ℕ := 2 ^ 64

/-- Writes a word. -/
def write (h : Heap) (addr value : ℕ) : Heap := { h with mem := Function.update h.mem addr value }

/-- Writes a free large block. -/
def writeBlock (h : Heap) (addr size next : ℕ) : Heap := (h.write addr size).write (addr + 8) next

/-! ### The large blocks -/

/-- The last block before `addr`, `prev` if there is none, and the first from there on. -/
def place (mem : ℕ → ℕ) (addr : ℕ) : ℕ → ℕ → ℕ → Option (ℕ × ℕ)
  | 0, _, _ => none
  | steps + 1, prev, next =>
    if next ≠ 0 ∧ next < addr then place mem addr steps next (mem (next + 8)) else some (prev, next)

/-- The block at `addr` takes in the next one, if they touch. -/
def joinNext (h : Heap) (addr size next : ℕ) : Option Heap :=
  if next = 0 then some h
  else do
    let stop ← plus addr size
    if stop = next then
      let size ← plus (h.mem addr) (h.mem next)
      some (h.writeBlock addr size (h.mem (next + 8)))
    else some h

/-- The block at `addr` goes after `prev`, which takes it in if they touch. -/
def joinPrev (h : Heap) (addr prev : ℕ) : Option Heap :=
  if prev = 0 then some { h with large := addr }
  else do
    let stop ← plus prev (h.mem prev)
    if stop = addr then
      let size ← plus (h.mem prev) (h.mem addr)
      some (h.writeBlock prev size (h.mem (addr + 8)))
    else some (h.write (prev + 8) addr)

/-- **Inserts `size` bytes from `addr` on** in address order, merging them with the blocks
directly before and after. -/
def insertFree (h : Heap) (addr size : ℕ) : Option Heap := do
  let (prev, next) ← place h.mem addr walkMax 0 h.large
  if addr = 0 then none
  else
    let h ← (h.writeBlock addr size next).joinNext addr size next
    h.joinPrev addr prev

/-- A free block that holds what is asked for. -/
structure Fit where
  prev : ℕ
  start : ℕ
  size : ℕ
  next : ℕ
  aligned : ℕ
  deriving DecidableEq, Repr

/-- The lowest block that holds `size` bytes at a multiple of `align`, if there is one. -/
def firstFit (mem : ℕ → ℕ) (size align : ℕ) : ℕ → ℕ → ℕ → Option (Option Fit)
  | 0, _, _ => none
  | steps + 1, prev, link =>
    if link = 0 then some none
    else do
      let aligned ← nextMultipleOf link align
      let stop ← plus aligned size
      let limit ← plus link (mem link)
      if stop ≤ limit then some (some ⟨prev, link, mem link, mem (link + 8), aligned⟩)
      else firstFit mem size align steps link (mem (link + 8))

/-- Takes the block after `prev` out of the list; `next` follows it. -/
def unlink (h : Heap) (prev next : ℕ) : Heap :=
  if prev = 0 then { h with large := next } else h.write (prev + 8) next

/-- Puts a range back into the list, unless it is empty. -/
def giveBack (h : Heap) (addr size : ℕ) : Option Heap :=
  if 0 < size then h.insertFree addr size else some h

/-- **First fit**: what is left before and after goes back on the free list. -/
def allocLarge (h : Heap) (size align : ℕ) : Option (Option ℕ × Heap) := do
  match ← firstFit h.mem size align walkMax 0 h.large with
  | none => some (none, h)
  | some fit =>
    let h ← (h.unlink fit.prev fit.next).giveBack fit.start (fit.aligned - fit.start)
    let h ← h.giveBack (fit.aligned + size) (fit.start + fit.size - (fit.aligned + size))
    some (some fit.aligned, h)

/-! ### The small blocks -/

/-- Pushes the block at `addr` on the free list of class `c`. -/
def pushSmall (h : Heap) (c : Class) (addr : ℕ) : Heap :=
  { h.write addr (h.classes c) with classes := Function.update h.classes c addr }

/-- Pushes the blocks listed on the free list of class `c`. -/
def carve (c : Class) : List ℕ → Heap → Option Heap
  | [], h => some h
  | addr :: addrs, h => if addr = 0 then none else carve c addrs (h.pushSmall c addr)

/-- The addresses of a slab's blocks of class `c`. -/
def slabBlocks (c : Class) (addr : ℕ) : List ℕ :=
  (List.range (slab / classSize c)).map fun i => addr + i * classSize c

/-- **Carves a new slab into blocks of class `c`**, the last one first, so that they are
handed out in address order. -/
def refill (h : Heap) (c : Class) : Option (Option ℕ × Heap) := do
  let (addr, h) ← h.allocLarge slab slab
  match addr with
  | none => some (none, h)
  | some addr =>
    let _ ← plus addr slab
    let h ← carve c (slabBlocks c addr).reverse h
    some (some (h.classes c), h)

/-- The first free block of class `c`, from a new slab if there is none. -/
def firstSmall (h : Heap) (c : Class) : Option (Option ℕ × Heap) :=
  if h.classes c ≠ 0 then some (some (h.classes c), h) else h.refill c

/-- A block of a class, from its list or a new slab. -/
def allocSmall (h : Heap) (c : Class) : Option (Option ℕ × Heap) := do
  let (block, h) ← h.firstSmall c
  match block with
  | none => some (none, h)
  | some block =>
    let used ← plus h.used (classSize c)
    some (some block,
      { h with classes := Function.update h.classes c (h.mem block), used := used })

/-! ### The heap's calls -/

/-- **Adds the region** of `size` bytes from `addr` on. -/
def add (h : Heap) (addr size : ℕ) : Option Heap :=
  if addr % minBlock ≠ 0 then none
  else
    let size := size / minBlock * minBlock
    if size = 0 then some h
    else do
      let stop ← plus addr size
      let total ← plus h.total size
      let h := { h with start := min h.start addr, stop := max h.stop stop, total := total }
      insertFree h addr size

/-- A large block of the layout. -/
def allocRounded (h : Heap) (l : Layout) : Option (Option ℕ × Heap) := do
  let (addr, h) ← h.allocLarge (largeSize l) (max l.align minBlock)
  match addr with
  | none => some (none, h)
  | some addr =>
    let used ← plus h.used (largeSize l)
    some (some addr, { h with used := used })

/-- A block of the layout's class, or a large one. -/
def allocBlock (h : Heap) (l : Layout) : Option (Option ℕ × Heap) :=
  match classOf l with
  | some c => h.allocSmall c
  | none => h.allocRounded l

/-- The pointer to `addr`, which is not 0. -/
def nonNull (addr : ℕ) : Option ℕ := if addr = 0 then none else some addr

/-- **Allocates a block** of the layout, if there is one. -/
def alloc (h : Heap) (l : Layout) : Option (Option ℕ × Heap) := do
  let (addr, h) ← h.allocBlock l
  some (addr.bind nonNull, h)

/-- **Frees the block** at `addr`, which was allocated with the layout. -/
def dealloc (h : Heap) (addr : ℕ) (l : Layout) : Option Heap :=
  if h.start ≤ addr ∧ addr < h.stop then
    match classOf l with
    | some c => do
      let used ← minus h.used (classSize c)
      some { h.pushSmall c addr with used := used }
    | none => do
      let h ← h.insertFree addr (largeSize l)
      let used ← minus h.used (largeSize l)
      some { h with used := used }
  else none

/-- Adds up the sizes of the free large blocks, and keeps the greatest. -/
def countLarge (mem : ℕ → ℕ) : ℕ → ℕ → ℕ → ℕ → Option (ℕ × ℕ)
  | 0, _, _, _ => none
  | steps + 1, link, sum, largest =>
    if link = 0 then some (sum, largest)
    else do
      let sum ← plus sum (mem link)
      countLarge mem steps (mem (link + 8)) sum (max largest (mem link))

/-- **What the heap holds**: in all, in use, free, and the largest free block. -/
def stats (h : Heap) : Option HeapStats := do
  let (freeLarge, largestFree) ← countLarge h.mem walkMax h.large 0 0
  some ⟨h.total, h.used, freeLarge, largestFree⟩

end RelayOs.Heap
