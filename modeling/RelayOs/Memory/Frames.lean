import RelayOs.Memory.Phys

/-!
# The frame allocator

One bit for each frame of 4 KiB, set while the frame is in use or is not RAM to be handed
out; a count of the clear bits; and the place where the next search for a single frame
starts. Physical memory as the kernel has it (`RelayOs.Mm.mem`) is this allocator and the
contents of the frames, reached through the linear map.
-/

namespace RelayOs.Mm

/-! ### The code -/

/-- The first multiple of `align`, a power of two, from `x` on. -/
def alignUp (x align : ℕ) : ℕ := (x + align - 1) / align * align

/-- **The frame allocator**: a bit for each frame, how many are free, and where to look next. -/
structure FrameAllocator where
  bits : List (BitVec 64)
  free : ℕ
  next : ℕ

namespace FrameAllocator

variable (a : FrameAllocator)

/-- The number of frames there are bits for. -/
def size : ℕ := a.bits.length * 64

/-- Whether frame `i` is in use. -/
def used (i : ℕ) : Bool := (a.bits.getD (i / 64) 0).getLsbD (i % 64)

/-- Marks frame `i` as used or free. -/
def set (i : ℕ) (used : Bool) : FrameAllocator :=
  let w := a.bits.getD (i / 64) 0
  { a with bits := a.bits.set (i / 64) (if used then w ||| (1#64 <<< (i % 64))
    else w &&& ~~~(1#64 <<< (i % 64))) }

/-- Sets the bits of `count` frames from `i` on. -/
def setFrom (used : Bool) : ℕ → ℕ → FrameAllocator → FrameAllocator
  | 0, _, a => a
  | count + 1, i, a => setFrom used count (i + 1) (a.set i used)

/-- The rounds of `find`, from frame `i` on: `count` frames below `to_` that are not in use. -/
def findFrom (to_ count align : ℕ) : ℕ → ℕ → Option ℕ
  | 0, _ => none
  | rounds + 1, i =>
    if to_ < i + count then none
    -- words all in use are skipped
    else if i % 64 = 0 ∧ a.bits.getD (i / 64) 0 = BitVec.allOnes 64 then
      findFrom to_ count align rounds (alignUp (i + 64) align)
    else match (List.range' i count).find? a.used with
      | none => some i
      | some j => findFrom to_ count align rounds (alignUp (j + 1) align)

/-- The first run of `count` free frames at a multiple of `align`. -/
def find (start to_ count align : ℕ) : Option ℕ :=
  -- every round goes on by a frame at least
  a.findFrom to_ count align (to_ + 1) (alignUp start align)

/-- **Allocates `count` frames in a row**, the first a multiple of `align`; the address of the
first. -/
def alloc (count align : ℕ) : Option (Option ℕ × FrameAllocator) :=
  if count = 0 ∨ ¬align.isPowerOfTwo then none
  else
    let single := count = 1 ∧ align = 1
    match (a.find (if single then a.next else 0) a.size count align).or
      (a.find 0 a.size count align) with
    | none => some (none, a)
    | some i =>
      if a.free < count then none
      else
        let b := setFrom true count i a
        some (some (i * page), { b with free := a.free - count, next := if single then i + 1
          else a.next })

/-- Clears the bits of `count` frames from `i` on; `none` if one of them is not in use. -/
def clearFrom : ℕ → ℕ → FrameAllocator → Option FrameAllocator
  | 0, _, a => some a
  | count + 1, i, a => if i < a.size ∧ a.used i then clearFrom count (i + 1)
      (a.set i false) else none

/-- **Returns `count` frames** from `phys` on. Freeing a frame that is not allocated stops the
kernel. -/
def release (phys count : ℕ) : Option FrameAllocator :=
  (clearFrom count (phys / page) a).map fun b =>
    { b with free := a.free + count, next := min a.next (phys / page) }

end FrameAllocator

/-- **The machine's memory**: the allocator, and what the frames hold. -/
structure Machine where
  frames : FrameAllocator
  content : ℕ → Block page

namespace Machine

/-- The contents as a map, whatever is handed out. -/
def view (c : Machine) : Mem := ⟨∅, c.content, True⟩

/-- A frame of the allocator's, filled with zeros; none if there is none, or if `may` forbids it at
the number of free frames. -/
def alloc (may : ℕ → Bool) (c : Machine) : Option (Option ℕ × Machine) :=
  if may c.frames.free then
    (c.frames.alloc 1 1).map fun r =>
      match r.1 with
      | none => (none, ⟨r.2, c.content⟩)
      | some f => (some f, ⟨r.2, Function.update c.content f Mem.zeros⟩)
  else some (none, c)

end Machine

/-- Frames that user memory leaves to the kernel. -/
def userReserveFrames : ℕ := 2048

/-- Whether a program may take a frame while `free` are free. -/
def userMayTake (free : ℕ) : Bool := userReserveFrames < free

/-- **Physical memory through the linear map**, with frames handed out while `may` allows
it. -/
def mem (may : ℕ → Bool) : Handler physMem Machine
  | .word f i, c => if i < 512 then some (c.view.word f i, c) else none
  | .setWord f i v, c =>
    if i < 512 then some ((), ⟨c.frames, (c.view.setWord f i v).content⟩) else none
  | .alloc, c => c.alloc may
  | .free f, c => (c.frames.release f 1).map fun b => ((), ⟨b, c.content⟩)
  | .bytes f i n, c => if i + n ≤ page then some (c.view.bytes f i n, c) else none
  | .setBytes f i data, c =>
    if i + data.length ≤ page then some ((), ⟨c.frames, (c.view.setBytes f i data).content⟩)
    else none

/-- Memory as the kernel uses it for itself. -/
def linearMem : Handler physMem Machine := mem fun _ => true

/-- Memory as it is used for programs, with `userReserveFrames` left free. -/
def userMem : Handler physMem Machine := mem userMayTake

/-! ### The allocator hands out what is free -/

theorem isFrame_mul {i : ℕ} (h : i < 2 ^ 40) : IsFrame (i * page) := by
  have hmask : addrMask = (2 ^ 40 - 1) <<< 12 := by decide
  have hmul : i * page = i <<< 12 := (Nat.shiftLeft_eq i 12).symm
  rw [IsFrame, hmask, hmul, ← Nat.shiftLeft_and_distrib, Nat.and_two_pow_sub_one_of_lt_two_pow h]

namespace FrameAllocator

variable {a : FrameAllocator} {i j : ℕ}

/-- The frames that can be handed out. -/
def clear (a : FrameAllocator) : Finset ℕ := (Finset.range a.size).filter fun i => a.used i = false

/-- **An allocator as it should be**: the count is that of the clear bits, and the frames are
frames of memory. -/
structure Ok (a : FrameAllocator) : Prop where
  free_eq : a.free = a.clear.card
  size_le : a.size ≤ 2 ^ 40

@[simp] theorem size_set (a : FrameAllocator) (i : ℕ) (b : Bool) : (a.set i b).size = a.size := by
  unfold set size
  rw [List.length_set]

theorem used_set (hi : i < a.size) (b : Bool) (j : ℕ) :
    (a.set i b).used j = if j = i then b else a.used j := by
  have hlen : i / 64 < a.bits.length := by
    unfold size at hi
    omega
  have hmod : i % 64 < 64 := Nat.mod_lt _ (by norm_num)
  by_cases hword : i / 64 = j / 64
  · have hsame : j = i ↔ j % 64 = i % 64 := by omega
    simp only [used, set, List.getD_eq_getElem?_getD, ← hword, List.getElem?_set_self hlen,
      Option.getD_some]
    rw [← BitVec.twoPow_eq]
    cases b <;> by_cases hbit : j % 64 = i % 64 <;> simp [hsame, hbit, hmod, Nat.mod_lt]
  · have hne : j ≠ i := by
      rintro rfl
      exact hword rfl
    simp only [used, set, List.getD_eq_getElem?_getD, List.getElem?_set_ne hword, if_neg hne]

@[simp] theorem size_setFrom (b : Bool) (count i : ℕ) (a : FrameAllocator) :
    (setFrom b count i a).size = a.size := by
  induction count generalizing i a with
  | zero => rfl
  | succ count ih => exact (ih (i + 1) (a.set i b)).trans (size_set a i b)

variable {count align k : ℕ}

theorem used_setFrom (b : Bool) (h : ∀ j, i ≤ j → j < i + count → j < a.size) (j : ℕ) :
    (setFrom b count i a).used j = if i ≤ j ∧ j < i + count then b else a.used j := by
  induction count generalizing i a with
  | zero => exact (if_neg (by omega)).symm
  | succ count ih =>
    have hi : i < a.size := h i le_rfl (by omega)
    have hrest : ∀ j, i + 1 ≤ j → j < i + 1 + count → j < (a.set i b).size := by
      intro j hj hj'
      rw [size_set]
      exact h j (by omega) (by omega)
    rw [setFrom, ih hrest, used_set hi]
    by_cases hj : j = i
    · rw [if_neg (by omega), if_pos hj, if_pos (by omega)]
    · rw [if_neg hj]
      exact if_congr (by omega) rfl rfl

theorem mem_clear (hi : i < a.size) (h : a.used i = false) : i ∈ a.clear :=
  Finset.mem_filter.2 ⟨Finset.mem_range.2 hi, h⟩

theorem mem_clear_iff : i ∈ a.clear ↔ i < a.size ∧ a.used i = false := by
  rw [clear, Finset.mem_filter, Finset.mem_range]

theorem clear_setFrom_true (h : ∀ j, i ≤ j → j < i + count → j < a.size) :
    (setFrom true count i a).clear = a.clear \ Finset.Ico i (i + count) := by
  ext j
  rw [mem_clear_iff, Finset.mem_sdiff, mem_clear_iff, size_setFrom, used_setFrom true h,
    Finset.mem_Ico]
  by_cases hj : i ≤ j ∧ j < i + count <;> simp [hj]

theorem clear_setFrom_false (h : ∀ j, i ≤ j → j < i + count → j < a.size) :
    (setFrom false count i a).clear = a.clear ∪ Finset.Ico i (i + count) := by
  ext j
  rw [mem_clear_iff, Finset.mem_union, mem_clear_iff, size_setFrom, used_setFrom false h,
    Finset.mem_Ico]
  by_cases hj : i ≤ j ∧ j < i + count
  · simp [hj, h j hj.1 hj.2]
  · simp [hj]

/-! ### The search -/

theorem dvd_alignUp (x align : ℕ) : align ∣ alignUp x align := Nat.dvd_mul_left _ _

theorem le_alignUp (h : 0 < align) (x : ℕ) : x ≤ alignUp x align := by
  have hlt := Nat.lt_div_mul_add h (a := x + align - 1)
  rw [alignUp]
  omega

theorem alignUp_le {x : ℕ} (h : 0 < align) (hd : align ∣ k) (hx : x ≤ k) : alignUp x align ≤ k := by
  obtain ⟨q, rfl⟩ := hd
  have hlt : (x + align - 1) / align < q + 1 := by
    rw [Nat.div_lt_iff_lt_mul h, Nat.add_mul, Nat.one_mul, Nat.mul_comm q]
    omega
  rw [alignUp, Nat.mul_comm align]
  exact Nat.mul_le_mul_right align (Nat.lt_succ_iff.1 hlt)

/-- **A run of `count` frames that can be handed out**, the first a multiple of `align`. -/
def FreeRun (a : FrameAllocator) (count align i : ℕ) : Prop :=
  align ∣ i ∧ ∀ j, i ≤ j → j < i + count → j ∈ a.clear

theorem findFrom_sound {rounds : ℕ} (hi : align ∣ i)
    (h : a.findFrom a.size count align rounds i = some k) : a.FreeRun count align k := by
  induction rounds generalizing i with
  | zero => cases h
  | succ rounds ih =>
    rw [findFrom] at h
    split at h
    · cases h
    · next hto =>
      split at h
      · exact ih (dvd_alignUp _ _) h
      · split at h
        · next hnone =>
          cases h
          refine ⟨hi, fun j hj hj' => mem_clear (by omega) ?_⟩
          have := List.find?_eq_none.1 hnone j (List.mem_range'_1.2 ⟨hj, hj'⟩)
          simpa using this
        · exact ih (dvd_alignUp _ _) h

theorem find?_used {j : ℕ} (h : (List.range' i count).find? a.used = some j) :
    a.used j = true ∧ i ≤ j ∧ j < i + count :=
  ⟨List.find?_some h, List.mem_range'_1.1 (List.mem_of_find?_eq_some h)⟩

theorem notMem_clear_of_word (hi : i % 64 = 0) (hword : a.bits.getD (i / 64) 0 = BitVec.allOnes 64)
    (hk : i ≤ k) (hk' : k < i + 64) : k ∉ a.clear := by
  intro hmem
  have hused := (mem_clear_iff.1 hmem).2
  have hdiv : k / 64 = i / 64 := by omega
  rw [used, hdiv, hword, BitVec.getLsbD_allOnes] at hused
  simp [Nat.mod_lt] at hused

/-- **The search misses no run**: neither the skipped words nor the rounding up pass one. -/
theorem findFrom_complete {rounds : ℕ} (hcount : 0 < count) (halign : 0 < align) (hk : i ≤ k)
    (hrun : a.FreeRun count align k) (hrounds : a.size < i + rounds) :
    ∃ m, a.findFrom a.size count align rounds i = some m := by
  have hfit : k + count ≤ a.size := by
    have := (mem_clear_iff.1 (hrun.2 (k + count - 1) (by omega) (by omega))).1
    omega
  induction rounds generalizing i with
  | zero => omega
  | succ rounds ih =>
    -- the run is still ahead after a round, since what the round passes is in use
    have hon : ∀ x, i < x → x ≤ k →
        ∃ m, a.findFrom a.size count align rounds (alignUp x align) = some m := by
      intro x hix hxk
      have hle := le_alignUp halign x
      exact ih (alignUp_le halign hrun.1 hxk) (by omega)
    rw [findFrom, if_neg (by omega)]
    split
    · next hskip =>
      refine hon (i + 64) (by omega) (not_lt.1 fun hlt => ?_)
      exact notMem_clear_of_word hskip.1 hskip.2 hk hlt (hrun.2 k le_rfl (by omega))
    · cases hfind : (List.range' i count).find? a.used with
      | none => exact ⟨i, rfl⟩
      | some j =>
        obtain ⟨hused, hij, hj⟩ := find?_used hfind
        refine hon (j + 1) (by omega) (not_lt.1 fun hlt => ?_)
        have hfree := (mem_clear_iff.1 (hrun.2 j (by omega) (by omega))).2
        rw [hused] at hfree
        cases hfree

theorem find_sound {start : ℕ} (h : a.find start a.size count align = some k) :
    a.FreeRun count align k := findFrom_sound (dvd_alignUp _ _) h

theorem find_complete (hcount : 0 < count) (halign : 0 < align)
    (hrun : a.FreeRun count align k) : ∃ m, a.find 0 a.size count align = some m := by
  have hzero : alignUp 0 align ≤ k := alignUp_le halign hrun.1 (Nat.zero_le k)
  exact findFrom_complete hcount halign hzero hrun (by omega)

/-! ### Allocation and release -/

/-- **What `alloc` does**: it hands out a run that was free, and none if there is none. -/
theorem alloc_spec (hfree : a.free = a.clear.card) (hcount : 0 < count)
    (halign : align.isPowerOfTwo) : ∃ r, a.alloc count align = some r ∧
    match r.1 with
    | none => r.2 = a ∧ ∀ i, ¬a.FreeRun count align i
    | some f => ∃ i, f = i * page ∧ a.FreeRun count align i ∧ r.2.free = r.2.clear.card ∧
        r.2.size = a.size ∧
        ∀ j, r.2.used j = if i ≤ j ∧ j < i + count then true else a.used j := by
  rw [alloc, if_neg (by simp [halign, hcount.ne'])]
  dsimp only
  generalize (if count = 1 ∧ align = 1 then a.next else 0) = hint
  cases hfind : (a.find hint a.size count align).or (a.find 0 a.size count align) with
  | none =>
    refine ⟨_, rfl, rfl, fun i hrun => ?_⟩
    obtain ⟨m, hm⟩ := find_complete hcount (Nat.pos_of_isPowerOfTwo halign) hrun
    rw [(Option.or_eq_none_iff.1 hfind).2] at hm
    cases hm
  | some i =>
    have hrun : a.FreeRun count align i := by
      rcases Option.or_eq_some_iff.1 hfind with hf | ⟨-, hf⟩
      · exact find_sound hf
      · exact find_sound hf
    have hin : ∀ j, i ≤ j → j < i + count → j < a.size :=
      fun j hj hj' => (mem_clear_iff.1 (hrun.2 j hj hj')).1
    have hsub : Finset.Ico i (i + count) ⊆ a.clear := by
      intro j hj
      rw [Finset.mem_Ico] at hj
      exact hrun.2 j hj.1 hj.2
    have hcard := Finset.card_le_card hsub
    rw [Nat.card_Ico, Nat.add_sub_cancel_left, ← hfree] at hcard
    dsimp only
    rw [if_neg (by omega)]
    refine ⟨_, rfl, i, rfl, hrun, ?_, size_setFrom true count i a, fun j => used_setFrom true hin j⟩
    change a.free - count = (setFrom true count i a).clear.card
    rw [clear_setFrom_true hin, Finset.card_sdiff_of_subset hsub, Nat.card_Ico,
      Nat.add_sub_cancel_left, hfree]

theorem clearFrom_eq (h : ∀ j, i ≤ j → j < i + count → j < a.size ∧ a.used j = true) :
    clearFrom count i a = some (setFrom false count i a) := by
  induction count generalizing i a with
  | zero => rfl
  | succ count ih =>
    have hi := h i le_rfl (by omega)
    rw [clearFrom, if_pos hi, setFrom]
    refine ih fun j hj hj' => ?_
    rw [size_set, used_set hi.1, if_neg (by omega)]
    exact h j (by omega) (by omega)

/-- **What `release` does**, for frames in use: their bits are cleared. -/
theorem release_spec (hfree : a.free = a.clear.card)
    (h : ∀ j, i ≤ j → j < i + count → j < a.size ∧ a.used j = true) :
    ∃ b, a.release (i * page) count = some b ∧
    b.free = b.clear.card ∧ b.size = a.size ∧
    ∀ j, b.used j = if i ≤ j ∧ j < i + count then false else a.used j := by
  have hin : ∀ j, i ≤ j → j < i + count → j < a.size := fun j hj hj' => (h j hj hj').1
  have hdisj : Disjoint a.clear (Finset.Ico i (i + count)) := by
    rw [Finset.disjoint_left]
    intro j hj hj'
    rw [Finset.mem_Ico] at hj'
    have hused := (h j hj'.1 hj'.2).2
    rw [(mem_clear_iff.1 hj).2] at hused
    cases hused
  rw [release, Nat.mul_div_cancel i (by norm_num [page]), clearFrom_eq h, Option.map_some]
  refine ⟨_, rfl, ?_, size_setFrom false count i a, fun j => used_setFrom false hin j⟩
  change a.free + count = (setFrom false count i a).clear.card
  rw [clear_setFrom_false hin, Finset.card_union_of_disjoint hdisj, Nat.card_Ico,
    Nat.add_sub_cancel_left, hfree]

/-- **A single frame**: none, or one that was free and is in use now. -/
theorem alloc_one (h : a.Ok) : ∃ r, a.alloc 1 1 = some r ∧
    match r.1 with
    | none => r.2 = a
    | some f => ∃ i < a.size, a.used i = false ∧ f = i * page ∧ r.2.Ok ∧ r.2.size = a.size ∧
        ∀ j, r.2.used j = if j = i then true else a.used j := by
  obtain ⟨⟨x, b⟩, hr, hpost⟩ := alloc_spec h.free_eq Nat.one_pos ⟨0, rfl⟩
  refine ⟨_, hr, ?_⟩
  cases x with
  | none => exact hpost.1
  | some f =>
    obtain ⟨i, rfl, hrun, hfree, hsize, hused⟩ := hpost
    obtain ⟨hi, hclear⟩ := mem_clear_iff.1 (hrun.2 i le_rfl (Nat.lt_succ_self i))
    refine ⟨i, hi, hclear, rfl, ⟨hfree, hsize.trans_le h.size_le⟩, hsize, fun j => ?_⟩
    rw [hused]
    exact if_congr (by omega) rfl rfl

/-- **Giving a frame back** clears its bit. -/
theorem release_one (h : a.Ok) (hi : i < a.size) (hu : a.used i = true) :
    ∃ b, a.release (i * page) 1 = some b ∧
    b.Ok ∧ b.size = a.size ∧ ∀ j, b.used j = if j = i then false else a.used j := by
  have hone : ∀ j, i ≤ j → j < i + 1 → j < a.size ∧ a.used j = true := by
    intro j hj hj'
    obtain rfl : j = i := by omega
    exact ⟨hi, hu⟩
  obtain ⟨b, hb, hfree, hsize, hused⟩ := release_spec h.free_eq hone
  refine ⟨b, hb, ⟨hfree, hsize.trans_le h.size_le⟩, hsize, fun j => ?_⟩
  rw [hused]
  exact if_congr (by omega) rfl rfl

end FrameAllocator

/-! ### The machine's memory keeps the specification -/

open Prog

/-- **The machine and the memory it stands for.** -/
structure Models (c : Machine) (s : Mem) : Prop where
  ok : c.frames.Ok
  taken : s.taken = {f | ∃ i < c.frames.size, c.frames.used i = true ∧ f = i * page}
  content : s.content = c.content
  short : s.short

/-- The machines differ in what the frames `D` hold, and in nothing else. -/
structure Agree (D : Set ℕ) (c c₂ : Machine) : Prop where
  frames : c₂.frames = c.frames
  content : ∀ f, f ∉ D → c₂.content f = c.content f

theorem Agree.refl (D : Set ℕ) (c : Machine) : Agree D c c := ⟨rfl, fun _ _ => rfl⟩

section Answers

variable {D : Set ℕ} {may : ℕ → Bool} {c c₂ : Machine} {s : Mem}

/-- Changing a frame that is not among `D` keeps what is known of the two machines. -/
theorem Agree.update (h : Agree D c c₂) {f : ℕ} {g : Block page → Block page} (hf : f ∉ D) :
    Agree D ⟨c.frames, Function.update c.content f (g (c.content f))⟩
      ⟨c₂.frames, Function.update c₂.content f (g (c₂.content f))⟩ := by
  refine ⟨h.frames, fun k hk => ?_⟩
  rcases eq_or_ne k f with rfl | hne
  · simp only [Function.update_self, h.content k hf]
  · simp only [Function.update_of_ne hne, h.content k hk]

theorem Models.setContent (h : Models c s) (content : ℕ → Block page) :
    Models ⟨c.frames, content⟩ ⟨s.taken, content, s.short⟩ := ⟨h.ok, h.taken, rfl, h.short⟩

/-- A frame is handed out. -/
theorem Models.take (h : Models c s) {b : FrameAllocator} {i : ℕ}
    (hi : i < c.frames.size) (hb : b.Ok)
    (hsize : b.size = c.frames.size)
    (hused : ∀ j, b.used j = if j = i then true else c.frames.used j) :
    Models ⟨b, Function.update c.content (i * page) Mem.zeros⟩ (s.take (i * page)) := by
  refine ⟨hb, ?_, ?_, h.short⟩
  · change insert (i * page) s.taken = {f | ∃ j < b.size, b.used j = true ∧ f = j * page}
    rw [h.taken]
    ext f
    constructor
    · rintro (rfl | ⟨j, hj, hu, rfl⟩)
      · exact ⟨i, hsize ▸ hi, by rw [hused, if_pos rfl], rfl⟩
      · refine ⟨j, hsize ▸ hj, ?_, rfl⟩
        rw [hused, hu, ite_self]
    · rintro ⟨j, hj, hu, rfl⟩
      rcases eq_or_ne j i with rfl | hne
      · exact Or.inl rfl
      · rw [hused, if_neg hne] at hu
        exact Or.inr ⟨j, hsize ▸ hj, hu, rfl⟩
  · change Function.update s.content _ _ = _
    rw [h.content]

/-- A frame is given back. -/
theorem Models.drop (h : Models c s) {b : FrameAllocator} {i : ℕ} (hb : b.Ok)
    (hsize : b.size = c.frames.size)
    (hused : ∀ j, b.used j = if j = i then false else c.frames.used j) :
    Models ⟨b, c.content⟩ ⟨s.taken \ {i * page}, s.content, s.short⟩ := by
  have hinj : ∀ j, j * page = i * page → j = i :=
    fun j => Nat.eq_of_mul_eq_mul_right (by norm_num [page])
  refine ⟨hb, ?_, h.content, h.short⟩
  change s.taken \ {i * page} = {f | ∃ j < b.size, b.used j = true ∧ f = j * page}
  rw [h.taken]
  ext f
  constructor
  · rintro ⟨⟨j, hj, hu, rfl⟩, hne⟩
    refine ⟨j, hsize ▸ hj, ?_, rfl⟩
    have hji : j ≠ i := fun he => hne (by rw [he]; rfl)
    rw [hused, if_neg hji, hu]
  · rintro ⟨j, hj, hu, rfl⟩
    rw [hused] at hu
    split at hu
    · cases hu
    · next hne => exact ⟨⟨j, hsize ▸ hj, hu, rfl⟩, fun he => hne (hinj j he)⟩

theorem alloc_answers (h : Models c s) (ha : Agree D c c₂) :
    ∃ x c' c2' s', c.alloc may = some (x, c') ∧ c₂.alloc may = some (x, c2') ∧
      (spec D).post .alloc s x s' ∧ Models c' s' ∧ Agree D c' c2' := by
  obtain ⟨hframes, hcontent⟩ := ha
  unfold Machine.alloc
  rw [hframes]
  split
  · obtain ⟨⟨x, b⟩, hr, hpost⟩ := FrameAllocator.alloc_one h.ok
    rw [hr]
    cases x with
    | none =>
      obtain rfl : b = c.frames := hpost
      exact ⟨none, c, ⟨c.frames, c₂.content⟩, s, rfl, rfl, Or.inl ⟨rfl, h.short, rfl⟩, h,
        rfl, hcontent⟩
    | some f =>
      obtain ⟨i, hi, hu, rfl, hb, hsize, hused⟩ := hpost
      have hfresh : i * page ∉ s.taken := by
        rw [h.taken]
        rintro ⟨j, -, hj, he⟩
        rw [Nat.eq_of_mul_eq_mul_right (by norm_num [page]) he, hj] at hu
        cases hu
      refine ⟨_, _, _, _, rfl, rfl,
        Or.inr ⟨i * page, rfl, hfresh, isFrame_mul (hi.trans_le h.ok.size_le), rfl⟩,
        h.take hi hb hsize hused, rfl, fun g hg => ?_⟩
      simp only [Function.update_apply, hcontent g hg]
  · exact ⟨none, c, c₂, s, rfl, rfl, Or.inl ⟨rfl, h.short, rfl⟩, h, hframes, hcontent⟩

/-- **One answer**: it is as specified, and what the frames `D` hold makes no difference. -/
theorem mem_answers (h : Models c s) (ha : Agree D c c₂) (r : Request) (hpre : (spec D).pre r s) :
    ∃ x c' c2' s', mem may r c = some (x, c') ∧ mem may r c₂ = some (x, c2') ∧
      (spec D).post r s x s' ∧ Models c' s' ∧ Agree D c' c2' := by
  obtain ⟨taken, content, short⟩ := s
  obtain rfl : content = c.content := h.content
  have hview : ∀ f, f ∉ D → c₂.view.content f = c.view.content f := ha.content
  cases r with
  | word f i =>
    obtain ⟨husable, hi⟩ := hpre
    refine ⟨_, c, c₂, _, if_pos hi, ?_, ⟨rfl, rfl⟩, h, ha⟩
    rw [← Mem.word_congr (hview f husable.2)]
    exact if_pos hi
  | setWord f i v =>
    obtain ⟨husable, hi, -⟩ := hpre
    exact ⟨(), _, _, _, if_pos hi, if_pos hi, rfl, h.setContent _,
      ha.update (g := fun b => ⟨setU64 b.1 (8 * i) v, (length_setU64 ..).trans b.2⟩) husable.2⟩
  | alloc => exact alloc_answers h ha
  | free f =>
    obtain ⟨i, hi, hu, rfl⟩ : ∃ i < c.frames.size, c.frames.used i = true ∧ f = i * page := by
      have htaken : f ∈ taken := hpre.1
      rw [show taken = _ from h.taken] at htaken
      exact htaken
    obtain ⟨b, hb, hok, hsize, hused⟩ := FrameAllocator.release_one h.ok hi hu
    refine ⟨(), ⟨b, c.content⟩, ⟨b, c₂.content⟩, ⟨taken \ {i * page}, c.content, short⟩, ?_, ?_,
      ⟨rfl, fun _ _ => rfl, rfl⟩, h.drop hok hsize hused, rfl, ha.content⟩
    · simp only [mem, hb, Option.map_some]
    · simp only [mem, ha.frames, hb, Option.map_some]
  | bytes f i n =>
    obtain ⟨husable, hi⟩ := hpre
    refine ⟨_, c, c₂, _, if_pos hi, ?_, ⟨rfl, rfl⟩, h, ha⟩
    have hbytes : c₂.view.bytes f i n = c.view.bytes f i n := by
      rw [Mem.bytes, hview f husable.2, Mem.bytes]
    exact (if_pos hi).trans (by rw [hbytes])
  | setBytes f i data =>
    obtain ⟨husable, hi⟩ := hpre
    exact ⟨(), _, _, _, if_pos hi, if_pos hi, rfl, h.setContent _,
      ha.update (g := fun b => ⟨splice b.1 i data, (length_splice ..).trans b.2⟩) husable.2⟩

/-- **Memory answers as specified**, whichever frames are out of bounds. -/
theorem mem_keeps (D : Set ℕ) (may : ℕ → Bool) : (mem may).Keeps (spec D) Models := by
  intro r c s h hpre
  obtain ⟨x, c', -, s', hx, -, hpost, h', -⟩ := mem_answers h (Agree.refl D c) r hpre
  exact ⟨x, c', s', hx, hpost, h'⟩

/-- **A program that stays off some frames does not depend on what is in them.** Two runs of
it, from machines that differ in those frames only, have the same result, and the machines
differ in those frames only afterwards. -/
theorem run_agree {α : Type} {p : Prog physMem α} {Q : α → Mem → Prop} (hp : wp (spec D) p Q s)
    (h : Models c s)
    (ha : Agree D c c₂) : ∃ a c' c2' s', p.run (mem may) c = some (a, c') ∧ p.run
    (mem may) c₂ = some (a, c2') ∧
      Q a s' ∧ Models c' s' ∧ Agree D c' c2' := by
  induction p generalizing c c₂ s with
  | ret a => exact ⟨a, c, c₂, s, rfl, rfl, hp, h, ha⟩
  | fault => exact hp.elim
  | ask r k ih =>
    obtain ⟨x, c', c2', s', hx, hx2, hpost, h', ha'⟩ := @mem_answers D may _ _ _ h ha r hp.1
    have hr : (ask (S := physMem) r k).run (mem may) c = (k x).run (mem may) c' := by rw [run, hx]
    have hr2 : (ask (S := physMem) r k).run (mem may) c₂ =
        (k x).run (mem may) c2' := by rw [run, hx2]
    rw [hr, hr2]
    exact ih x (hp.2 x s' hpost) h' ha'

end Answers

end RelayOs.Mm
