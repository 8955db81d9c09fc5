import RelayOs.Memory.Space
import RelayOs.Memory.Frames

/-!
# From the firmware's memory map to the frame allocator

At boot the kernel sizes the bitmap for the highest usable address, puts it into the first
usable region with room for it, and clears the bits of the frames that lie wholly inside a
usable region; then it sets those of low memory and of the bitmap itself. From there on
frames are handed out in runs and given back.
-/

namespace RelayOs.Mm

/-! ### The code -/

/-- What a region of memory is for. -/
inductive MemoryKind
  | usable | bootloader | acpiReclaimable | acpiNvs | reserved | mmio | kernel
  deriving DecidableEq

/-- **A region of the memory map.** -/
structure MemoryRegion where
  start : ℕ
  len : ℕ
  kind : MemoryKind

namespace MemoryRegion

/-- Where the region ends; the kernel stops if that does not fit in a word. -/
def stop (r : MemoryRegion) : Option ℕ := checkedAdd r.start r.len

/-- The region is memory to use. -/
def isUsable (r : MemoryRegion) : Bool := r.kind = .usable

end MemoryRegion

/-- Frames below 1 MiB are never handed out. -/
def lowLimit : ℕ := 0x100000

/-- The number of frames that hold `x` bytes from a frame's start. -/
def framesFor (x : ℕ) : ℕ := (x + (page - 1)) / page

/-- The higher of `top` and the end of the region. -/
def MemoryRegion.maxEnd (top : ℕ) (r : MemoryRegion) : Option ℕ := do
  let stop ← r.stop
  return max top stop

/-- **The number of words the bitmap needs** for `map`. -/
def bitmapWords (map : List MemoryRegion) : Option ℕ := do
  let top ← (map.filter MemoryRegion.isUsable).foldlM MemoryRegion.maxEnd 0
  return (top / page + 63) / 64

/-- Where `size` bytes go in a region, if they fit. -/
def MemoryRegion.spot (size : ℕ) (r : MemoryRegion) : Option (Option ℕ) := do
  let start ← checkedMul (framesFor (max r.start lowLimit)) page
  let limit ← checkedAdd start size
  let stop ← r.stop
  return if limit ≤ stop then some start else none

/-- The first region with room for the allocator's bits. -/
def placeIn (size : ℕ) : List MemoryRegion → Option (Option ℕ)
  | [] => some none
  | r :: rs => do
    match ← r.spot size with
    | some start => return some start
    | none => placeIn size rs

/-- **Where the bitmap goes**: the first frame-aligned spot at or above `lowLimit` in the first
usable region that can hold `bytes`. -/
def placeBitmap (map : List MemoryRegion) (bytes : ℕ) : Option (Option ℕ) := do
  let size ← checkedMul (framesFor bytes) page
  placeIn size (map.filter MemoryRegion.isUsable)

namespace FrameAllocator

/-- Clears the bits of the frames that are wholly inside the region. -/
def addRegion (a : FrameAllocator) (r : MemoryRegion) : Option FrameAllocator := do
  let stop ← r.stop
  let first := framesFor r.start
  let last := min (stop / page) a.size
  return setFrom false (last - first) first a

/-- Marks every frame touching the bytes from `start` to `stop` as used. -/
def reserve (a : FrameAllocator) (start stop : ℕ) : FrameAllocator :=
  let first := start / page
  let last := min (framesFor stop) a.size
  setFrom true (last - first) first a

/-- **The allocator for `map`**, with a bitmap of `words` words at `bitmapPhys`. -/
def new (map : List MemoryRegion) (words bitmapPhys : ℕ) : Option FrameAllocator := do
  let full : FrameAllocator := ⟨List.replicate words (BitVec.allOnes 64), 0, 0⟩
  let a ← (map.filter MemoryRegion.isUsable).foldlM addRegion full
  let a := a.reserve 0 lowLimit
  let limit ← checkedAdd bitmapPhys (words * 8)
  let a := a.reserve bitmapPhys limit
  return { a with free := ((List.range a.size).filter fun i => !a.used i).length }

end FrameAllocator

/-! ### What may be handed out -/

/-- The frame is wholly inside the region. -/
def MemoryRegion.Covers (r : MemoryRegion) (i : ℕ) : Prop :=
  r.start ≤ i * page ∧ (i + 1) * page ≤ r.start + r.len

/-- **A frame that may be handed out**: wholly inside a usable region, at or above `lowLimit`,
and outside the frames of the `words` words of bitmap at `phys`. -/
structure Allocatable (map : List MemoryRegion) (words phys i : ℕ) : Prop where
  covered : ∃ r ∈ map, r.kind = .usable ∧ r.Covers i
  high : lowLimit ≤ i * page
  off_bitmap : (i + 1) * page ≤ phys ∨ phys + words * 8 ≤ i * page

variable {map : List MemoryRegion} {words phys : ℕ}

theorem of_checkedAdd {a b c : ℕ} (h : checkedAdd a b = some c) : a + b < 2 ^ 64 ∧ a + b = c := by
  rw [checkedAdd] at h
  split at h
  · next hlt => exact ⟨hlt, Option.some.inj h⟩
  · cases h

theorem of_checkedMul {a b c : ℕ} (h : checkedMul a b = some c) : a * b < 2 ^ 64 ∧ a * b = c := by
  rw [checkedMul] at h
  split at h
  · next hlt => exact ⟨hlt, Option.some.inj h⟩
  · cases h

theorem framesFor_le_iff {x i : ℕ} : framesFor x ≤ i ↔ x ≤ i * page := by
  rw [framesFor, page]
  omega

theorem lt_div_page_iff {x i : ℕ} : i < x / page ↔ (i + 1) * page ≤ x := by
  rw [page]
  omega

/-- **The bitmap is where it may be**: at a frame of a usable region, and above low memory. -/
theorem placeIn_spec {size : ℕ} {rs : List MemoryRegion} (h : placeIn size rs = some (some phys)) :
    ∃ r ∈ rs, r.start ≤ phys ∧ phys + size ≤ r.start + r.len ∧ lowLimit ≤ phys ∧ page ∣ phys ∧
      phys + size < 2 ^ 64 := by
  induction rs with
  | nil => cases h
  | cons r rs ih =>
    rw [placeIn] at h
    obtain ⟨spot, hspot, h⟩ := Option.bind_eq_some_iff.1 h
    cases spot with
    | none =>
      obtain ⟨r', hr', hrest⟩ := ih h
      exact ⟨r', List.mem_cons_of_mem r hr', hrest⟩
    | some start =>
      obtain rfl : start = phys := Option.some.inj (Option.some.inj h)
      obtain ⟨start', hstart, hspot⟩ := Option.bind_eq_some_iff.1 hspot
      obtain ⟨limit, hlimit, hspot⟩ := Option.bind_eq_some_iff.1 hspot
      obtain ⟨stop, hstop, hspot⟩ := Option.bind_eq_some_iff.1 hspot
      obtain ⟨-, rfl⟩ := of_checkedAdd hstop
      obtain ⟨hlt, rfl⟩ := of_checkedAdd hlimit
      obtain ⟨-, rfl⟩ := of_checkedMul hstart
      have hfit := Option.some.inj hspot
      split at hfit
      · next hle =>
        obtain rfl := Option.some.inj hfit
        have hmax : max r.start lowLimit ≤ framesFor (max r.start lowLimit) * page :=
          framesFor_le_iff.1 le_rfl
        exact ⟨r, List.mem_cons_self, (le_max_left _ _).trans hmax, hle,
          (le_max_right _ _).trans hmax,
          Nat.dvd_mul_left _ _, hlt⟩
      · cases hfit

theorem placeBitmap_spec {bytes : ℕ} (h : placeBitmap map bytes = some (some phys)) :
    page ∣ phys ∧ phys + bytes < 2 ^ 64 := by
  obtain ⟨size, hsize, h⟩ := Option.bind_eq_some_iff.1 h
  obtain ⟨-, rfl⟩ := of_checkedMul hsize
  obtain ⟨r, -, -, -, -, hdvd, hlt⟩ := placeIn_spec h
  have hle : bytes ≤ framesFor bytes * page := framesFor_le_iff.1 le_rfl
  exact ⟨hdvd, by omega⟩

theorem foldlM_maxEnd {rs : List MemoryRegion} {m top : ℕ}
    (h : rs.foldlM MemoryRegion.maxEnd m = some top) :
    m ≤ top ∧ ∀ r ∈ rs, r.stop = some (r.start + r.len) ∧ r.start + r.len ≤ top := by
  induction rs generalizing m with
  | nil =>
    obtain rfl := Option.some.inj h
    exact ⟨le_rfl, fun _ hr => absurd hr List.not_mem_nil⟩
  | cons r rs ih =>
    rw [List.foldlM_cons] at h
    obtain ⟨m', hm', h⟩ := Option.bind_eq_some_iff.1 h
    obtain ⟨stop, hstop, hm'⟩ := Option.bind_eq_some_iff.1 hm'
    obtain rfl := Option.some.inj hm'
    obtain ⟨-, rfl⟩ := of_checkedAdd hstop
    obtain ⟨hle, hrest⟩ := ih h
    refine ⟨(le_max_left _ _).trans hle, fun r' hr' => ?_⟩
    rcases List.mem_cons.1 hr' with rfl | hr'
    · exact ⟨hstop, (le_max_right _ _).trans hle⟩
    · exact hrest r' hr'

theorem bitmapWords_spec (h : bitmapWords map = some words) {r : MemoryRegion}
    (hr : r ∈ map.filter MemoryRegion.isUsable) :
    r.stop = some (r.start + r.len) ∧ ∀ i, r.Covers i → i < words * 64 := by
  obtain ⟨top, htop, h⟩ := Option.bind_eq_some_iff.1 h
  obtain rfl := Option.some.inj h
  obtain ⟨hstop, hle⟩ := (foldlM_maxEnd htop).2 r hr
  refine ⟨hstop, fun i hi => ?_⟩
  have hlt : i < top / page := lt_div_page_iff.2 (hi.2.trans hle)
  omega

namespace FrameAllocator

variable {a : FrameAllocator}

theorem addRegion_spec {r : MemoryRegion} (hstop : r.stop = some (r.start + r.len)) :
    ∃ b, a.addRegion r = some b ∧ b.size = a.size ∧
      ∀ i, i ∈ b.clear ↔ i ∈ a.clear ∨ (i < a.size ∧ r.Covers i) := by
  rw [addRegion, hstop]
  refine ⟨_, rfl, size_setFrom .., fun i => ?_⟩
  have hcovers : r.Covers i ↔ framesFor r.start ≤ i ∧ i < (r.start + r.len) / page := by
    rw [framesFor_le_iff, lt_div_page_iff, MemoryRegion.Covers]
  rw [clear_setFrom_false fun j hj hj' => by omega, Finset.mem_union, Finset.mem_Ico, hcovers]
  exact or_congr_right (by omega)

theorem addRegions_spec {rs : List MemoryRegion}
    (hstop : ∀ r ∈ rs, r.stop = some (r.start + r.len)) :
    ∃ b, rs.foldlM addRegion a = some b ∧ b.size = a.size ∧
      ∀ i, i ∈ b.clear ↔ i ∈ a.clear ∨ (i < a.size ∧ ∃ r ∈ rs, r.Covers i) := by
  induction rs generalizing a with
  | nil => exact ⟨a, rfl, rfl, fun i => by simp⟩
  | cons r rs ih =>
    obtain ⟨b, hb, hsize, hclear⟩ := addRegion_spec (a := a) (hstop r List.mem_cons_self)
    obtain ⟨c, hc, hsize', hclear'⟩ := ih (a := b) fun r' hr' =>
      hstop r' (List.mem_cons_of_mem r hr')
    refine ⟨c, ?_, hsize'.trans hsize, fun i => ?_⟩
    · rw [List.foldlM_cons, hb]
      exact hc
    · rw [hclear', hclear, hsize, List.exists_mem_cons_iff]
      tauto

theorem mem_clear_reserve {start stop i : ℕ} : i ∈ (a.reserve start stop).clear ↔
    i ∈ a.clear ∧ ((i + 1) * page ≤ start ∨ stop ≤ i * page) := by
  have hstop : stop ≤ i * page ↔ framesFor stop ≤ i := framesFor_le_iff.symm
  have hstart : (i + 1) * page ≤ start ↔ i < start / page := lt_div_page_iff.symm
  rw [reserve, clear_setFrom_true fun j hj hj' => by omega, Finset.mem_sdiff, Finset.mem_Ico,
    hstop, hstart]
  refine and_congr_right fun hi => ?_
  have := (mem_clear_iff.1 hi).1
  omega

theorem length_filter_used (a : FrameAllocator) :
    ((List.range a.size).filter fun i => !a.used i).length = a.clear.card := by
  rw [← List.toFinset_card_of_nodup (List.nodup_range.filter _)]
  congr 1
  ext i
  rw [List.mem_toFinset, List.mem_filter, List.mem_range, mem_clear_iff, Bool.not_eq_true']

theorem clear_full (words : ℕ) :
    (⟨List.replicate words (BitVec.allOnes 64), 0, 0⟩ : FrameAllocator).clear = ∅ := by
  ext i
  rw [mem_clear_iff]
  constructor
  · rintro ⟨hi, hused⟩
    rw [size, List.length_replicate] at hi
    have hword : i / 64 < words := by omega
    rw [used, List.getD_eq_getElem?_getD, List.getElem?_replicate_of_lt hword, Option.getD_some,
      BitVec.getLsbD_allOnes] at hused
    simp [Nat.mod_lt] at hused
  · exact fun hi => absurd hi (Finset.notMem_empty i)

/-- **The allocator at boot**: the clear bits are those of the frames that may be handed out. -/
theorem new_spec (hwords : bitmapWords map = some words)
    (hphys : placeBitmap map (words * 8) = some (some phys)) :
    ∃ a, new map words phys = some a ∧ a.free = a.clear.card ∧ ∀ i, i ∈ a.clear ↔
      Allocatable map words phys i := by
  obtain ⟨a, ha, hsize, hclear⟩ :=
    addRegions_spec (a := ⟨List.replicate words (BitVec.allOnes 64), 0, 0⟩)
    fun r hr => (bitmapWords_spec hwords hr).1
  have hlimit : checkedAdd phys (words * 8) = some (phys + words * 8) :=
    if_pos (placeBitmap_spec hphys).2
  rw [new, ha, Option.bind_eq_bind, Option.bind_some, hlimit]
  refine ⟨_, rfl, ?_, fun i => ?_⟩
  · exact length_filter_used _
  · change i ∈ ((a.reserve 0 lowLimit).reserve phys (phys + words * 8)).clear ↔ _
    rw [mem_clear_reserve, mem_clear_reserve, hclear, clear_full]
    constructor
    · rintro ⟨⟨hnew, hlow⟩, hoff⟩
      obtain ⟨-, r, hr, hcov⟩ := hnew.resolve_left (Finset.notMem_empty i)
      obtain ⟨hr, hk⟩ := List.mem_filter.1 hr
      exact ⟨⟨r, hr, of_decide_eq_true hk, hcov⟩, hlow.resolve_left (by rw [page]; omega), hoff⟩
    · rintro ⟨⟨r, hr, hk, hcov⟩, hlow, hoff⟩
      have hr' : r ∈ map.filter MemoryRegion.isUsable := List.mem_filter.2 ⟨hr, decide_eq_true hk⟩
      have hi := (bitmapWords_spec hwords hr').2 i hcov
      refine ⟨⟨Or.inr ⟨?_, r, hr', hcov⟩, Or.inr hlow⟩, hoff⟩
      rw [size, List.length_replicate]
      exact hi

end FrameAllocator

/-! ### Runs -/

/-- A call of the allocator. -/
inductive FrameCall
  | alloc (count align : ℕ)
  | free (phys count : ℕ)

/-- **The allocator, and the frames it handed out** that did not come back since. -/
structure FrameUse where
  allocator : FrameAllocator
  out : Finset ℕ

/-- The frames from address `phys` on. -/
def framesAt (phys count : ℕ) : Finset ℕ := Finset.Ico (phys / page) (phys / page + count)

namespace FrameUse

/-- One call, with the frames that are out after it. -/
def step (u : FrameUse) : FrameCall → Option FrameUse
  | .alloc count align => (u.allocator.alloc count align).map fun r =>
    match r.1 with
    | none => ⟨r.2, u.out⟩
    | some f => ⟨r.2, u.out ∪ framesAt f count⟩
  | .free phys count => (u.allocator.release phys count).map fun a =>
      ⟨a, u.out \ framesAt phys count⟩

/-- **The calls the kernel makes**: of `alloc` with a positive count and a power of two, and of
`free` for frames it has. -/
def Allowed (u : FrameUse) : FrameCall → Prop
  | .alloc count align => 0 < count ∧ align.isPowerOfTwo
  | .free phys count => page ∣ phys ∧ framesAt phys count ⊆ u.out

/-- What a run of allowed calls comes to. -/
inductive Reached (u₀ : FrameUse) : FrameUse → Prop
  | start : Reached u₀ u₀
  | call {u u' : FrameUse} {c : FrameCall} (h : Reached u₀ u) (hc : u.Allowed c)
      (hs : u.step c = some u') :
    Reached u₀ u'

/-- A run of `count` frames that may be handed out and are not, the first a multiple of `align`. -/
def FreeRun (map : List MemoryRegion) (words phys : ℕ) (u : FrameUse) (count align i : ℕ) : Prop :=
  align ∣ i ∧ ∀ j, i ≤ j → j < i + count → Allocatable map words phys j ∧ j ∉ u.out

/-- **The clear bits are those of the frames that may be handed out and are not.** -/
structure Inv (map : List MemoryRegion) (words phys : ℕ) (u : FrameUse) : Prop where
  free_eq : u.allocator.free = u.allocator.clear.card
  clear_iff : ∀ i, i ∈ u.allocator.clear ↔ Allocatable map words phys i ∧ i ∉ u.out
  out_lt : ∀ i ∈ u.out, i < u.allocator.size
  out_ok : ∀ i ∈ u.out, Allocatable map words phys i

variable {u u' : FrameUse} {c : FrameCall}

theorem Inv.freeRun_iff (h : Inv map words phys u) {count align i : ℕ} :
    u.allocator.FreeRun count align i ↔ FreeRun map words phys u count align i := by
  refine and_congr_right fun _ => forall_congr' fun j => ?_
  rw [h.clear_iff]

theorem mem_framesAt {i count j : ℕ} : j ∈ framesAt (i * page) count ↔ i ≤ j ∧ j < i + count := by
  rw [framesAt, Nat.mul_div_cancel i (by norm_num [page]), Finset.mem_Ico]

theorem Inv.alloc (h : Inv map words phys u) {count align : ℕ}
    (hc : u.Allowed (.alloc count align)) :
    ∃ u', u.step (.alloc count align) = some u' ∧ Inv map words phys u' := by
  obtain ⟨⟨x, a⟩, hr, hpost⟩ := FrameAllocator.alloc_spec h.free_eq hc.1 hc.2
  rw [step, hr, Option.map_some]
  refine ⟨_, rfl, ?_⟩
  cases x with
  | none =>
    obtain ⟨rfl, -⟩ := hpost
    exact h
  | some f =>
    obtain ⟨i, rfl, hrun, hfree, hsize, hused⟩ := hpost
    have hrun' := h.freeRun_iff.1 hrun
    refine ⟨hfree, fun j => ?_, fun j hj => ?_, fun j hj => ?_⟩
    · change j ∈ a.clear ↔ _ ∧ j ∉ u.out ∪ framesAt (i * page) count
      rw [Finset.mem_union, mem_framesAt, not_or, ← and_assoc, ← h.clear_iff,
        FrameAllocator.mem_clear_iff,
        FrameAllocator.mem_clear_iff, hsize, hused]
      by_cases hj : i ≤ j ∧ j < i + count <;> simp [hj]
    · change j < a.size
      rw [hsize]
      rcases Finset.mem_union.1 hj with hj | hj
      · exact h.out_lt j hj
      · exact (FrameAllocator.mem_clear_iff.1
          (hrun.2 j (mem_framesAt.1 hj).1 (mem_framesAt.1 hj).2)).1
    · rcases Finset.mem_union.1 hj with hj | hj
      · exact h.out_ok j hj
      · exact (hrun'.2 j (mem_framesAt.1 hj).1 (mem_framesAt.1 hj).2).1

theorem Inv.free (h : Inv map words phys u) {at_ count : ℕ} (hc : u.Allowed (.free at_ count)) :
    ∃ u', u.step (.free at_ count) = some u' ∧ Inv map words phys u' := by
  obtain ⟨⟨i, hi⟩, hsub⟩ := hc
  obtain rfl : at_ = i * page := hi.trans (Nat.mul_comm page i)
  -- what is out is in use
  have hin : ∀ j, i ≤ j → j < i + count → j < u.allocator.size ∧ u.allocator.used j = true := by
    intro j hj hj'
    have hout := hsub (mem_framesAt.2 ⟨hj, hj'⟩)
    refine ⟨h.out_lt j hout, ?_⟩
    by_contra hused
    rw [Bool.not_eq_true] at hused
    exact ((h.clear_iff j).1 (FrameAllocator.mem_clear (h.out_lt j hout) hused)).2 hout
  obtain ⟨a, ha, hfree, hsize, hused⟩ := FrameAllocator.release_spec h.free_eq hin
  rw [step, ha, Option.map_some]
  refine ⟨_, rfl, hfree, fun j => ?_, fun j hj => ?_, fun j hj => ?_⟩
  · change j ∈ a.clear ↔ _ ∧ j ∉ u.out \ framesAt (i * page) count
    rw [Finset.mem_sdiff, mem_framesAt, FrameAllocator.mem_clear_iff, hsize, hused]
    by_cases hj : i ≤ j ∧ j < i + count
    · have hok := h.out_ok j (hsub (mem_framesAt.2 hj))
      simp [hj, (hin j hj.1 hj.2).1, hok]
    · rw [if_neg hj, ← FrameAllocator.mem_clear_iff, h.clear_iff]
      simp [hj]
  · exact (h.out_lt j (Finset.mem_sdiff.1 hj).1).trans_eq hsize.symm
  · exact h.out_ok j (Finset.mem_sdiff.1 hj).1

/-- **One call**: an allowed call does not stop the kernel, and keeps the books. -/
theorem Inv.step (h : Inv map words phys u) (hc : u.Allowed c) :
    ∃ u', u.step c = some u' ∧ Inv map words phys u' := by
  cases c with
  | alloc count align => exact h.alloc hc
  | free at_ count => exact h.free hc

theorem Reached.inv {u0 : FrameUse} (h0 : Inv map words phys u0) (h : Reached u0 u) :
    Inv map words phys u := by
  induction h with
  | start => exact h0
  | call _ hc hs ih =>
    obtain ⟨u', hs', h'⟩ := ih.step hc
    rw [hs] at hs'
    exact Option.some.inj hs' ▸ h'

end FrameUse

/-- **Frames in runs.** With the bitmap where `placeBitmap` puts it, after any allowed calls: no
allowed call stops the kernel, the count is that of the clear bits, and `alloc` hands out a
run of frames that may be handed out and are not, and none only if there is no such run. -/
theorem frames_in_runs (hwords : bitmapWords map = some words)
    (hphys : placeBitmap map (words * 8) = some (some phys)) :
    ∃ a, FrameAllocator.new map words phys = some a ∧ ∀ u, FrameUse.Reached ⟨a, ∅⟩ u →
      (∀ c, u.Allowed c → ∃ u', u.step c = some u') ∧
      u.allocator.free = u.allocator.clear.card ∧
      ∀ count align, 0 < count → align.isPowerOfTwo → ∃ r, u.allocator.alloc count align = some r ∧
        match r.1 with
        | some f => ∃ i, f = i * page ∧ u.FreeRun map words phys count align i
        | none => ¬∃ i, u.FreeRun map words phys count align i := by
  obtain ⟨a, ha, hfree, hclear⟩ := FrameAllocator.new_spec hwords hphys
  refine ⟨a, ha, fun u hu => ?_⟩
  have h₀ : FrameUse.Inv map words phys ⟨a, ∅⟩ :=
    ⟨hfree, fun i => by simp [hclear], fun i hi => absurd hi (Finset.notMem_empty i),
      fun i hi => absurd hi (Finset.notMem_empty i)⟩
  have h := hu.inv h₀
  refine ⟨fun c hc => ?_, h.free_eq, fun count align hcount halign => ?_⟩
  · obtain ⟨u', hs, -⟩ := h.step hc
    exact ⟨u', hs⟩
  · obtain ⟨⟨x, b⟩, hr, hpost⟩ := FrameAllocator.alloc_spec h.free_eq hcount halign
    refine ⟨_, hr, ?_⟩
    cases x with
    | none =>
      rintro ⟨i, hi⟩
      exact hpost.2 i (h.freeRun_iff.2 hi)
    | some f =>
      obtain ⟨i, hi, hrun, -⟩ := hpost
      exact ⟨i, hi, h.freeRun_iff.1 hrun⟩

/-- Low memory, and a region that ends in the middle of a frame. -/
def smallMap : List MemoryRegion :=
  [⟨0, 0x9F000, .usable⟩, ⟨0x9F000, 0x61000, .reserved⟩, ⟨0x100000, 0x40800, .usable⟩]

theorem frames_in_runs_smallMap : bitmapWords smallMap = some 5 ∧
    placeBitmap smallMap (5 * 8) = some (some 0x100000) ∧ ∃ a,
      FrameAllocator.new smallMap 5 0x100000 = some a ∧
      ∃ r, a.alloc 2 2 = some r ∧
        match r.1 with
        | some f => ∃ i, f = i * page ∧ FrameUse.FreeRun smallMap 5 0x100000 ⟨a, ∅⟩ 2 2 i
        | none => ¬∃ i, FrameUse.FreeRun smallMap 5 0x100000 ⟨a, ∅⟩ 2 2 i := by
  have hwords : bitmapWords smallMap = some 5 := by decide
  have hphys : placeBitmap smallMap (5 * 8) = some (some 0x100000) := by decide
  obtain ⟨a, ha, hrun⟩ := frames_in_runs hwords hphys
  exact ⟨hwords, hphys, a, ha, (hrun ⟨a, ∅⟩ .start).2.2 2 2 (by decide) ⟨1, rfl⟩⟩

end RelayOs.Mm
