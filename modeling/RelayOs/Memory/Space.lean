import RelayOs.Memory.Paging
import RelayOs.Vfs.Contract

/-!
# A program's address space: the code

An address space is a PML4 of its own, whose lower half holds the program's pages, with the
list of what `mem_map` gave the program: regions of the `mem_map` area, first fit from its
start, merged where they meet. The functions that take the space to change give it back
changed.
-/

namespace RelayOs.Mm

open Vfs

/-- The product, if it has 64 bits. -/
def checkedMul (a b : ℕ) : Option ℕ := if a * b < 2 ^ 64 then some (a * b) else none

/-- The sum, if it has 64 bits. -/
def checkedAdd (a b : ℕ) : Option ℕ := if a + b < 2 ^ 64 then some (a + b) else none

/-- The sum; the code stops dead where it has more than 64 bits. -/
def plus (a b : ℕ) : Prog physMem ℕ := do
  Prog.need (a + b < 2 ^ 64)
  return a + b

/-- The difference; the code stops dead where there is none. -/
def minus (a b : ℕ) : Prog physMem ℕ := do
  Prog.need (b ≤ a)
  return a - b

/-- The `mem_map` area. -/
def mapStart : ℕ := 0x0000100000000000

/-- Where the area of mappings ends. -/
def mapEnd : ℕ := 0x0000700000000000

/-- The most regions of `mem_map` memory a program may have. -/
def mapsMax : ℕ := 1024

/-- **A program's address space**: its top table, and the ranges it has mapped. -/
structure AddressSpace where
  pml4 : ℕ
  maps : List (ℕ × ℕ)
  deriving DecidableEq, Repr

namespace AddressSpace

/-! ### Making a space -/

/-- Entry `i` of the kernel's PML4, copied. -/
def copyEntry (kernel pml4 i : ℕ) : Prog physMem Unit := do
  let e ← word kernel i
  setWord pml4 i e

/-- **An empty lower half** under the kernel's upper half (PML4 entries 256-511 of
`kernel`). -/
def new (kernel : ℕ) : MapM AddressSpace := do
  let pml4 ← newFrame
  Prog.upTo (fun i => copyEntry kernel pml4 (256 + i)) 256
  return ⟨pml4, []⟩

/-! ### Fresh pages -/

/-- A frame that could not be mapped is given back. -/
def keepOrFree (frame : ℕ) : Except MapError Unit → Prog physMem (Except MapError Unit)
  | .ok () => return .ok ()
  | .error e => do
    freeFrame frame
    return .error e

/-- Maps a fresh page at `v`. -/
def mapFresh (pml4 v : ℕ) (perm : Perm) : MapM Unit := do
  let frame ← newFrame
  ExceptT.mk ((mapUser pml4 v frame perm).run.bind (keepOrFree frame))

/-- The rounds of `map_zeroed`: `pages` pages from `v` on. -/
def mapPages (pml4 : ℕ) (perm : Perm) : ℕ → ℕ → MapM Unit
  | 0, _ => return ()
  | pages + 1, v => do
    mapFresh pml4 v perm
    mapPages pml4 perm pages (v + page)

/-- The end of `pages` pages from `virt`, if it does not run past the lower half. -/
def rangeEnd (virt pages : ℕ) : Option ℕ :=
  ((checkedMul pages page).bind (checkedAdd virt)).filter (· ≤ lowerHalfEnd)

theorem rangeEnd_eq (v n : ℕ) :
    rangeEnd v n = if v + n * page ≤ lowerHalfEnd then some (v + n * page) else none := by
  unfold rangeEnd checkedMul
  by_cases h : v + n * page ≤ lowerHalfEnd
  · have hlt : n * page < 2 ^ 64 ∧ v + n * page < 2 ^ 64 := by
      unfold lowerHalfEnd at h
      omega
    rw [if_pos h, if_pos hlt.1, Option.bind_some, checkedAdd, if_pos hlt.2]
    simp [h]
  · rw [if_neg h]
    split
    · rw [Option.bind_some, checkedAdd]
      split
      · simp [not_le.1 h]
      · rfl
    · rfl

-- The end is a computation on 64-bit numbers, never to be carried out by unification.
attribute [irreducible] rangeEnd

/-- **Maps `pages` fresh zeroed pages from `virt`** for the program, with `perm`. On failure
the pages mapped so far stay mapped. -/
def mapZeroed (pml4 virt pages : ℕ) (perm : Perm) : MapM Unit :=
  match rangeEnd virt pages with
  | none => throw (.notUser virt)
  -- `v` goes up by a page from `virt` while it is below the end: `pages` rounds
  | some _ => mapPages pml4 perm pages virt

/-! ### Filling pages -/

/-- The rounds of `fill`, with `done` bytes copied. -/
def fillFrom (pml4 virt : ℕ) (bytes : Bytes) : ℕ → ℕ → MapM Unit
  | 0, _ => return ()
  | rounds + 1, done =>
    if bytes.length ≤ done then return ()
    else match checkedAdd virt done with
      | none => throw (.notUser virt)
      | some v => do
        match ← userPage pml4 v with
        | none => throw (.notUser v)
        | some (frame, _) => do
          let n := min (page - v % page) (bytes.length - done)
          writeBytes frame (v % page) ((bytes.drop done).take n)
          fillFrom pml4 virt bytes rounds (done + n)

/-- **Copies `bytes` to `virt`**, whatever the pages' permissions. Every page must be mapped
already. -/
def fill (pml4 virt : ℕ) (bytes : Bytes) : MapM Unit :=
  -- every round copies a byte at least
  fillFrom pml4 virt bytes bytes.length 0

/-! ### Giving pages back -/

/-- Unmaps the page at `virt`, if there is one, and frees its frame. -/
def unmapPage (pml4 virt : ℕ) : Prog physMem Unit := do
  match ← unmap pml4 virt with
  | none => return ()
  | some frame => freeFrame frame

/-- Unmaps `pages` pages from `addr` and frees their frames. -/
def unmapPages (pml4 addr pages : ℕ) : Prog physMem Unit :=
  Prog.upTo (fun k => unmapPage pml4 (addr + k * page)) pages

/-! ### The `mem_map` area -/

/-- The first address after a region. -/
def endOf (r : ℕ × ℕ) : Prog physMem ℕ := do
  Prog.need (r.1 + r.2 * page < 2 ^ 64)
  return r.1 + r.2 * page

/-- First fit: the gaps between the regions, in address order. -/
def findGap (len : ℕ) : List (ℕ × ℕ) → ℕ → ℕ → Prog physMem (Option (ℕ × ℕ))
  | [], place, i => do
    Prog.need (place ≤ mapEnd)
    if len ≤ mapEnd - place then return some (place, i) else return none
  | (s, n) :: rest, place, i => do
    Prog.need (place ≤ s)
    if len ≤ s - place then return some (place, i)
    else do
      let next ← endOf (s, n)
      findGap len rest next (i + 1)

/-- Maps the `left` pages from the `k`-th on, one by one; if one cannot be, those before it are
given back. -/
def mapEach (pml4 place : ℕ) : ℕ → ℕ → Prog physMem Bool
  | 0, _ => return true
  | left + 1, k => do
    match ← (mapZeroed pml4 (place + k * page) 1 .readWrite).run with
    | .ok () => mapEach pml4 place left (k + 1)
    | .error _ => do
      unmapPages pml4 place k
      return false

/-- The region before the place, if it ends there. -/
def meetsBefore (maps : List (ℕ × ℕ)) (place i : ℕ) : Bool :=
  decide (0 < i) && (maps[i - 1]?).any fun r => r.1 + r.2 * page = place

/-- The region after the place, if it starts where the new pages end. -/
def meetsAfter (maps : List (ℕ × ℕ)) (stop i : ℕ) : Bool := (maps[i]?).any fun r => r.1 = stop

/-- New pages put before region `i`, joined with the regions they meet. -/
def mergeAt (maps : List (ℕ × ℕ)) (place pages i : ℕ) : Bool → Bool → List (ℕ × ℕ)
  | true, true =>
    (maps.eraseIdx i).modify (i - 1) fun r => (r.1, r.2 + (pages + (maps.getD i (0, 0)).2))
  | true, false => maps.modify (i - 1) fun r => (r.1, r.2 + pages)
  | false, true => maps.modify i fun r => (place, pages + r.2)
  | false, false => maps.insertIdx i (place, pages)

/-- The pages are mapped at the place found for them. -/
def mapAt (sp : AddressSpace) (pages place i : ℕ) : Prog physMem (Except Errno ℕ × AddressSpace) :=
  let before := meetsBefore sp.maps place i
  let after := meetsAfter sp.maps (place + pages * page) i
  if !before && !after && decide (mapsMax ≤ sp.maps.length) then return (.error .ENOMEM, sp)
  else do
    if ← mapEach sp.pml4 place pages 0 then
      return (.ok place, { sp with maps := mergeAt sp.maps place pages i before after })
    else return (.error .ENOMEM, sp)

/-- **Maps `pages` fresh zeroed read-write pages** at the lowest place in the `mem_map` area
they fit; their address. -/
def mapArea (sp : AddressSpace) (pages room : ℕ) : Prog physMem (Except Errno ℕ × AddressSpace) :=
  if pages = 0 then return (.error .EINVAL, sp)
  else if room < pages then return (.error .ENOMEM, sp)
  else match checkedMul pages page with
    | none => return (.error .ENOMEM, sp)
    | some len => do
      match ← findGap len sp.maps mapStart 0 with
      | none => return (.error .ENOMEM, sp)
      | some (place, i) => mapAt sp pages place i

/-- The pages from `addr` up to `stop` cut out of region `i`. -/
def cutAt (maps : List (ℕ × ℕ)) (r : ℕ × ℕ) (addr stop i : ℕ) : Bool → Bool → List (ℕ × ℕ)
  | true, true =>
    (maps.set i (r.1, (addr - r.1) / page)).insertIdx (i + 1)
      (stop, (r.1 + r.2 * page - stop) / page)
  | true, false => maps.set i (r.1, (addr - r.1) / page)
  | false, true => maps.set i (stop, (r.1 + r.2 * page - stop) / page)
  | false, false => maps.eraseIdx i

/-- The pages are unmapped from region `i`, which is `r`. -/
def unmapAt (sp : AddressSpace) (r : ℕ × ℕ) (addr pages stop i : ℕ) :
    Prog physMem (Except Errno Unit × AddressSpace) := do
  let regionEnd ← endOf r
  let before := decide (r.1 < addr)
  let after := decide (stop < regionEnd)
  if regionEnd < stop then return (.error .EINVAL, sp)
  else if before && after && decide (mapsMax ≤ sp.maps.length) then return (.error .ENOMEM, sp)
  else do
    unmapPages sp.pml4 addr pages
    return (.ok (), { sp with maps := cutAt sp.maps r addr stop i before after })

/-- **Unmaps `pages` pages from `addr`** and gives their frames back: whole pages of earlier
`mapArea`s only, `EINVAL` otherwise; `ENOMEM` if cutting a region in two would make more than
`mapsMax`. -/
def unmapArea (sp : AddressSpace) (addr pages : ℕ) :
    Prog physMem (Except Errno Unit × AddressSpace) :=
  match (checkedMul pages page).bind (checkedAdd addr) with
  | none => return (.error .EINVAL, sp)
  | some stop =>
    if pages = 0 ∨ addr % page ≠ 0 then return (.error .EINVAL, sp)
    else match sp.maps.findIdx? fun r => r.1 ≤ addr ∧ addr < r.1 + r.2 * page with
      | none => return (.error .EINVAL, sp)
      | some i => unmapAt sp (sp.maps.getD i (0, 0)) addr pages stop i

/-- **Gives back every page, table and the PML4.** -/
def destroy (sp : AddressSpace) : Prog physMem Unit := do
  freeLowerHalf sp.pml4
  freeFrame sp.pml4

end AddressSpace

/-! ### Memory a program names -/

/-- A range of `len` bytes at `addr` in a program's memory. -/
structure UserSlice where
  addr : ℕ
  len : ℕ
  deriving DecidableEq, Repr

namespace UserSlice

/-- A range that lies in the lower half; `EFAULT` otherwise. -/
def new (addr len : ℕ) : Except Errno UserSlice :=
  match checkedAdd addr len with
  | some stop => if stop ≤ lowerHalfEnd then .ok ⟨addr, len⟩ else .error .EFAULT
  | none => .error .EFAULT

/-- The end of `n` bytes from `offset`, if it does not run past the range. -/
def stopOf (u : UserSlice) (offset n : ℕ) : Option ℕ := (checkedAdd offset n).filter (· ≤ u.len)

/-- The rounds of `read`, from `virt` up to `stop`, with `done` bytes of `buf` filled. -/
def readFrom (pml4 stop : ℕ) : ℕ → ℕ → ℕ → Bytes → Prog physMem (Except Errno Unit × Bytes)
  | 0, _, _, buf => return (.ok (), buf)
  | rounds + 1, virt, done, buf =>
    if stop ≤ virt then return (.ok (), buf)
    else do
      match ← userPage pml4 virt with
      | none => return (.error .EFAULT, buf)
      | some (frame, _) => do
        let left ← minus buf.length done
        let n := min (page - virt % page) left
        let data ← readBytes frame (virt % page) n
        let more ← plus done n
        let next ← plus virt n
        readFrom pml4 stop rounds next more (splice buf done data)

/-- **Copies** as many bytes as `buf` holds from `offset` into the range to `buf`. -/
def read (u : UserSlice) (sp : AddressSpace) (offset : ℕ) (buf : Bytes) :
    Prog physMem (Except Errno Unit × Bytes) :=
  match u.stopOf offset buf.length with
  | none => return (.error .EFAULT, buf)
  | some stop => do
    let virt ← plus u.addr offset
    let stop ← plus u.addr stop
    readFrom sp.pml4 stop buf.length virt 0 buf

/-- The rounds of `writable`, page by page up to `stop`. -/
def writableFrom (pml4 stop : ℕ) : ℕ → ℕ → Prog physMem (Except Errno Unit)
  | 0, _ => return .ok ()
  | rounds + 1, at_ =>
    if stop ≤ at_ then return .ok ()
    else do
      match ← userPage pml4 at_ with
      | some (_, .readWrite) => do
        let next ← plus at_ page
        writableFrom pml4 stop rounds next
      | _ => return .error .EFAULT

/-- Fails with `EFAULT` unless every page from `start` up to `stop` is the program's and writable.
-/
def writable (sp : AddressSpace) (start stop : ℕ) : Prog physMem (Except Errno Unit) :=
  writableFrom sp.pml4 stop ((stop - (start - start % page)) / page + 1) (start - start % page)

/-- The rounds of `write`, from `virt` up to `stop`, with `done` bytes copied. -/
def writeFrom (pml4 stop : ℕ) (bytes : Bytes) : ℕ → ℕ → ℕ → Prog physMem (Except Errno Unit)
  | 0, _, _ => return .ok ()
  | rounds + 1, virt, done =>
    if stop ≤ virt then return .ok ()
    else do
      match ← userPage pml4 virt with
      | none => return .error .EFAULT
      | some (frame, _) => do
        let left ← minus bytes.length done
        let n := min (page - virt % page) left
        writeBytes frame (virt % page) ((bytes.drop done).take n)
        let more ← plus done n
        let next ← plus virt n
        writeFrom pml4 stop bytes rounds next more

/-- **Copies `bytes` into the range** from `offset`. -/
def write (u : UserSlice) (sp : AddressSpace) (offset : ℕ) (bytes : Bytes) :
    Prog physMem (Except Errno Unit) :=
  match u.stopOf offset bytes.length with
  | none => return .error .EFAULT
  | some stop => do
    let start ← plus u.addr offset
    let stop ← plus u.addr stop
    match ← writable sp start stop with
    | .error e => return .error e
    | .ok () => writeFrom sp.pml4 stop bytes bytes.length start 0

/-- Whether every page of the range is one of the program's and writable; `EFAULT` otherwise. -/
def checkWritable (u : UserSlice) (sp : AddressSpace) : Prog physMem (Except Errno Unit) := do
  let stop ← plus u.addr u.len
  writable sp u.addr stop

end UserSlice

end RelayOs.Mm
