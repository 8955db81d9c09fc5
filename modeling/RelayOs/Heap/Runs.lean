import Mathlib
import RelayOs.Heap.Books

/-!
# Runs of the heap

A heap in use: regions are added, blocks handed out and freed, and whoever holds a block
writes into it. Over every such run the books of the heap balance
(`RelayOs.Heap.Use.run_safe`): blocks handed out are aligned, inside the regions and
disjoint from each other and from every free block, the large free list is in order, and
the counters are right. Nothing stops dead but for an address past the top of memory.
-/

namespace RelayOs.Heap

open Linked Spans

/-- **A heap in use**: the regions it was given, and the blocks it handed out. -/
structure Use where
  heap : Heap
  regions : List Span
  live : List (ℕ × Layout)

/-- What is done with a heap. -/
inductive Op
  | add (addr size : ℕ)
  | alloc (l : Layout)
  | dealloc (addr : ℕ) (l : Layout)
  | write (addr value : ℕ)

namespace Use

variable {u u' : Use} {l : Layout}

/-- A heap without memory. -/
def new (mem : ℕ → ℕ) : Use := ⟨.empty mem, [], []⟩

/-- What a region adds to the heap, as whole minimal blocks. -/
def wholeBlocks (addr size : ℕ) : Span := ⟨addr, size / minBlock * minBlock⟩

/-- The regions with the one added, unless it is too small to hold a block. -/
def withRegion (regions : List Span) (s : Span) : List Span :=
  if s.size = 0 then regions else s :: regions

/-- Makes a call; what `alloc` answers is the block it handed out. -/
def step (u : Use) : Op → Option Use
  | .add addr size => (u.heap.add addr size).map fun h =>
      { u with heap := h, regions := withRegion u.regions (wholeBlocks addr size) }
  | .alloc l => (u.heap.alloc l).map fun r =>
      { u with heap := r.2, live := (r.1.map fun a => (a, l)).toList ++ u.live }
  | .dealloc addr l => (u.heap.dealloc addr l).map fun h =>
      { u with heap := h, live := u.live.erase (addr, l) }
  | .write addr value => some { u with heap := u.heap.write addr value }

/-- The calls one after the other; `none` if one stops dead. -/
def run : List Op → Use → Option Use
  | [], u => some u
  | op :: ops, u => (u.step op).bind (run ops)

/-- **What the heap asks of its users**: a region starts at a multiple of 16 that is not 0,
lies in memory and overlaps none there is; a block is freed that was handed out, with its own
layout; and only a block handed out is written to. -/
def Allowed (u : Use) : Op → Prop
  | .add addr size => 16 ∣ addr ∧ addr ≠ 0 ∧ addr + size ≤ 2 ^ 64 ∧
      ∀ r ∈ u.regions, (wholeBlocks addr size).Apart r
  | .alloc _ => True
  | .dealloc addr l => (addr, l) ∈ u.live
  | .write addr _ => 8 ∣ addr ∧ ∃ b ∈ u.live, b.1 ≤ addr ∧ addr < b.1 + blockSize b.2

/-- Every call of the run is allowed where it is made. -/
def AllowedRun : List Op → Use → Prop
  | [], _ => True
  | op :: ops, u => u.Allowed op ∧ ∀ u', u.step op = some u' → AllowedRun ops u'

instance (u : Use) : ∀ op, Decidable (u.Allowed op)
  | .add _ _ => inferInstanceAs (Decidable (_ ∧ _ ∧ _ ∧ _))
  | .alloc _ => isTrue trivial
  | .dealloc _ _ => inferInstanceAs (Decidable (_ ∈ _))
  | .write _ _ => inferInstanceAs (Decidable (_ ∧ _))

instance decidableAllowedRun : ∀ ops u, Decidable (AllowedRun ops u)
  | [], _ => isTrue trivial
  | op :: ops, u =>
    match h : u.step op with
    | none => decidable_of_iff (u.Allowed op)
        ⟨fun ha => ⟨ha, fun _ hs => by simp [h] at hs⟩, And.left⟩
    | some u' =>
      have := decidableAllowedRun ops u'
      decidable_of_iff (u.Allowed op ∧ AllowedRun ops u')
        ⟨fun ha => ⟨ha.1, fun _ hs => by rw [h] at hs; cases hs; exact ha.2⟩,
          fun ha => ⟨ha.1, ha.2 u' h⟩⟩

/-- The free blocks a heap in use has in its lists, with the books balanced. -/
def Sound (u : Use) : Prop := ∃ large small, Books u.heap u.regions large small u.live

/-- The size and alignment that are asked of the large list for a block of the layout: those of a
slab, if it is a small one. -/
def request (l : Layout) : ℕ × ℕ :=
  match classOf l with
  | some _ => (slab, slab)
  | none => (largeSize l, max l.align minBlock)

/-- **The address passes the top of memory** that the call computes: the end of a region, or
of a block at the first multiple of the alignment from some free block on. -/
def Overflows (u : Use) : Op → Prop
  | .add addr size => 2 ^ 64 ≤ (wholeBlocks addr size).stop
  | .alloc l => ∃ r ∈ u.regions, ∃ x, r.start ≤ x ∧ x < r.stop ∧
      2 ^ 64 ≤ nextMultiple x (request l).2 + (request l).1
  | _ => False

theorem sound_new (mem : ℕ → ℕ) : (new mem).Sound :=
  ⟨[], fun _ => [], ⟨⟨rfl, nofun⟩, ⟨.nil, nofun⟩, fun _ => rfl, nofun,
    nofun, by simp [new, smallSpans],
    Multiset.nodup_zero, nofun, rfl, rfl⟩⟩

/-! ### One call -/

variable {large : List Span} {small : Class → List ℕ} {addr : ℕ}

/-- **`add`** takes the whole minimal blocks of the region in. -/
theorem add_books {size : ℕ}
    (hB : Books u.heap u.regions large small u.live) (hs : IsBlock (wholeBlocks addr size))
    (hapart : ∀ r ∈ u.regions, (wholeBlocks addr size).Apart r) :
    ∃ h', u.heap.add addr size = some h' ∧
      Books h' (wholeBlocks addr size :: u.regions)
        (Spans.insert (wholeBlocks addr size) large) small
        u.live := by
  obtain ⟨h', he, hB'⟩ := hB.add hs hapart
  have hmod : addr % minBlock = 0 := Nat.mod_eq_zero_of_dvd hs.start_dvd
  have hsize : size / minBlock * minBlock ≠ 0 := hs.size_pos.ne'
  have hover : addr + size / minBlock * minBlock < 2 ^ 64 := hs.stop_lt
  have htotal : u.heap.total + size / minBlock * minBlock < 2 ^ 64 := by
    have := hB'.size_lt
    rw [size_cons, ← hB.total_eq, Nat.add_comm] at this
    exact this
  refine ⟨h', ?_, hB'⟩
  simp only [Heap.add, hmod, ne_eq, not_true_eq_false, if_false, hsize, plus_eq hover,
    plus_eq htotal,
    Option.bind_eq_bind, Option.bind_some, he]

theorem step_add {size : ℕ} (hS : u.Sound) (ha : u.Allowed (.add addr size)) :
    (u.step (.add addr size) = none ∧ u.Overflows (.add addr size)) ∨
      ∃ u', u.step (.add addr size) = some u' ∧ u'.Sound := by
  obtain ⟨large, small, hB⟩ := hS
  obtain ⟨hdvd, h0, htop, hapart⟩ := ha
  have hmod : addr % minBlock = 0 := Nat.mod_eq_zero_of_dvd hdvd
  by_cases hsize : size / minBlock * minBlock = 0
  · refine Or.inr ⟨u, ?_, large, small, hB⟩
    simp only [step, Heap.add, withRegion, wholeBlocks, hmod, ne_eq, not_true_eq_false,
      if_false, hsize,
      if_true, Option.map_some]
  by_cases hover : addr + size / minBlock * minBlock < 2 ^ 64
  · have hs : IsBlock (wholeBlocks addr size) :=
      ⟨hdvd, Nat.dvd_mul_left _ _, Nat.pos_of_ne_zero hsize, Nat.pos_of_ne_zero h0, hover⟩
    obtain ⟨h', he, hB'⟩ := add_books hB hs hapart
    refine Or.inr ⟨⟨h', wholeBlocks addr size :: u.regions, u.live⟩, ?_, _, small, hB'⟩
    have hregions : withRegion u.regions (wholeBlocks addr size) =
        wholeBlocks addr size :: u.regions :=
      if_neg hsize
    rw [step, he, hregions]
    rfl
  · refine Or.inl ⟨?_, not_lt.mp hover⟩
    have hnone : plus addr (size / minBlock * minBlock) = none := if_neg hover
    simp only [step, Heap.add, hmod, ne_eq, not_true_eq_false, if_false, hsize, hnone]
    rfl

theorem step_dealloc (hS : u.Sound) (ha : u.Allowed (.dealloc addr l)) :
    ∃ u', u.step (.dealloc addr l) = some u' ∧ u'.Sound := by
  obtain ⟨large, small, hB⟩ := hS
  have hlive : (addr, l) ∈ u.live := ha
  have hused := hB.used_eq_add hlive
  have hle : blockSize l ≤ u.heap.used := hused ▸ Nat.le_add_right _ _
  have hin : u.heap.start ≤ addr ∧ addr < u.heap.stop := by
    obtain ⟨r, hr, h1, h2⟩ := hB.mem_regions (Or.inr (Or.inr
      (Books.mem_bytes_live hlive le_rfl (Nat.lt_add_of_pos_right (blockSize_pos l)))))
    obtain ⟨-, -, h3, h4⟩ := hB.region r hr
    exact ⟨h3.trans h1, h2.trans_le h4⟩
  rcases hc : classOf l with _ | c
  · obtain ⟨h', large', he, hu, hB'⟩ := hB.dealloc_large hlive
    rw [blockSize_of_large hc] at he hB' hle
    refine ⟨⟨{ h' with used := u.heap.used - largeSize l }, u.regions, u.live.erase (addr, l)⟩, ?_,
      large', small, hB'⟩
    simp only [step, dealloc, if_pos hin, hc, he, hu, minus, if_pos hle, Option.bind_eq_bind,
      Option.bind_some, Option.map_some]
  · have hB' := hB.dealloc_small hlive hc
    rw [blockSize_of_class hc] at hle
    refine ⟨⟨{ u.heap.pushSmall c addr with used := u.heap.used - classSize c }, u.regions,
      u.live.erase (addr, l)⟩, ?_, large, _, hB'⟩
    simp only [step, dealloc, if_pos hin, hc, minus, if_pos hle, Option.bind_eq_bind,
      Option.bind_some, Option.map_some]

theorem overflows_alloc
    (hB : Books u.heap u.regions large small u.live)
    (h : PassesTop (request l).1 (request l).2 large) :
    u.Overflows (.alloc l) := by
  obtain ⟨b, hb, hbig⟩ := h.exists_mem
  have hx := (hB.free.block b hb).words_mem.1
  obtain ⟨r, hr, h1, h2⟩ := hB.mem_regions (Or.inl (mem_bytes.mpr ⟨b, hb, Span.mem_bytes.mp hx⟩))
  exact ⟨r, hr, b.start, h1, h2, hbig⟩

/-- **The heap has no block of the layout**: no free large block holds what is asked of the
large list, and the layout's class, if it has one, has no free block. -/
def Lacks (large : List Span) (small : Class → List ℕ) (l : Layout) : Prop :=
  (∀ b ∈ large, ¬Holds b (request l).1 (request l).2) ∧ ∀ c, classOf l = some c → small c = []

/-- **The allocation stops dead**: the layout's class, if it has one, has no free block, and the
walk along the large list passes the top of memory. -/
def Stops (large : List Span) (small : Class → List ℕ) (l : Layout) : Prop :=
  (∀ c, classOf l = some c → small c = []) ∧ PassesTop (request l).1 (request l).2 large

theorem request_of_class {c : Class} (hc : classOf l = some c) : request l = (slab, slab) := by
  simp only [request, hc]

theorem request_of_large (hc : classOf l = none) : request l = (blockSize l, unit l) := by
  simp only [request, unit, blockSize, hc]

/-- **`alloc`** hands a block out, a large one from the lowest free block that holds it, or
has none and leaves the heap as it is. -/
theorem alloc_books
    (hB : Books u.heap u.regions large small u.live) (l : Layout) :
    (u.heap.alloc l = none ∧ Stops large small l) ∨
      (u.heap.alloc l = some (none, u.heap) ∧ Lacks large small l) ∨
      ∃ a h', u.heap.alloc l = some (some a, h') ∧ ¬Lacks large small l ∧
        (classOf l = none → LowestAt large (request l).1 (request l).2 a) ∧
        Sound { u with heap := h', live := (a, l) :: u.live } := by
  have hnull : ∀ {h' : Heap} {large' : List Span} {small' : Class → List ℕ} {a : ℕ},
      Books h' u.regions large' small' ((a, l) :: u.live) → nonNull a = some a := fun hB' => by
    have := (hB'.isBlock List.mem_cons_self).start_pos
    exact if_neg this.ne'
  unfold alloc
  rcases hc : classOf l with _ | c
  · have hblock : u.heap.allocBlock l = u.heap.allocRounded l := by simp only [allocBlock, hc]
    have hreq := request_of_large hc
    rw [hblock]
    rcases hB.alloc_large hc with ⟨hnone, hbig⟩ | ⟨hno, hnot⟩ | ⟨a, h', large', he, hlow, hB'⟩
    · refine Or.inl ⟨by rw [hnone]; rfl, fun c hc' => ?_, hreq ▸ hbig⟩
      rw [hc] at hc'
      cases hc'
    · refine Or.inr (Or.inl ⟨by rw [hno]; rfl, ?_, fun c hc' => ?_⟩)
      · rwa [hreq]
      · rw [hc] at hc'
        cases hc'
    · refine Or.inr (Or.inr ⟨a, h', ?_, fun hlacks => ?_, fun _ => ?_, large', small, hB'⟩)
      · simp only [he, Option.bind_eq_bind, Option.bind_some, hnull hB']
      · obtain ⟨b, hb, hholds⟩ := hlow.exists_holds
        exact hlacks.1 b hb (hreq ▸ hholds)
      · rwa [hreq]
  · have hblock : u.heap.allocBlock l = u.heap.allocSmall c := by simp only [allocBlock, hc]
    have hreq := request_of_class hc
    rw [hblock]
    rcases hB.alloc_small hc with
      ⟨hnone, hempty, hbig⟩ | ⟨hno, hempty, hnot⟩ | ⟨a, h', large', small', he, hroom, hB'⟩
    · refine Or.inl ⟨by rw [hnone]; rfl, fun c' hc' => ?_, hreq ▸ hbig⟩
      rw [hc] at hc'
      cases hc'
      exact hempty
    · refine Or.inr (Or.inl ⟨by rw [hno]; rfl, ?_, fun c' hc' => ?_⟩)
      · rwa [hreq]
      · rw [hc] at hc'
        cases hc'
        exact hempty
    · refine Or.inr (Or.inr ⟨a, h', ?_, fun hlacks => ?_, nofun, large', small', hB'⟩)
      · simp only [he, Option.bind_eq_bind, Option.bind_some, hnull hB']
      · rcases hroom with hsmall | ⟨b, hb, hholds⟩
        · exact hsmall (hlacks.2 c hc)
        · exact hlacks.1 b hb (hreq ▸ hholds)

/-- **`alloc`** hands a block out, or has none and leaves the heap as it is. -/
theorem alloc_spec (hS : u.Sound) (l : Layout) :
    (u.heap.alloc l = none ∧ u.Overflows (.alloc l)) ∨
      u.heap.alloc l = some (none, u.heap) ∨
      ∃ a h', u.heap.alloc l = some (some a, h') ∧
        Sound { u with heap := h', live := (a, l) :: u.live } := by
  obtain ⟨large, small, hB⟩ := hS
  rcases alloc_books hB l with ⟨hnone, hbig⟩ | ⟨hno, -⟩ | ⟨a, h', he, -, -, hS'⟩
  · exact Or.inl ⟨hnone, overflows_alloc hB hbig.2⟩
  · exact Or.inr (Or.inl hno)
  · exact Or.inr (Or.inr ⟨a, h', he, hS'⟩)

theorem step_write {value : ℕ} (hS : u.Sound) (ha : u.Allowed (.write addr value)) :
    Sound { u with heap := u.heap.write addr value } := by
  obtain ⟨large, small, hB⟩ := hS
  obtain ⟨-, b, hb, h1, h2⟩ := ha
  have hin := Books.mem_bytes_live hb h1 h2
  have hsame : ∀ x ≠ addr, (u.heap.write addr value).mem x = u.heap.mem x := fun x hx =>
    Function.update_of_ne hx _ _
  refine ⟨large, small, ?_, hB.free, fun c => ?_, hB.small_dvd, hB.live_dvd, hB.cover, hB.nodup,
    hB.region, hB.total_eq, hB.used_eq⟩
  · refine hB.large_at.congr fun f hf => ?_
    have hnot : ∀ x ∈ f.bytes, x ≠ addr := fun x hx he =>
      Multiset.disjoint_left.mp (disjoint_bytes hB.parts.2.1 hf) hx (he ▸ hin)
    obtain ⟨hw1, hw2⟩ := (hB.free.block f hf).words_mem
    exact ⟨hsame _ (hnot _ hw1), hsame _ (hnot _ hw2)⟩
  · refine (hB.small_at c).congr fun a ha => hsame a fun he => ?_
    exact Multiset.disjoint_left.mp hB.parts.2.2.1 (Books.mem_bytes_small ha) (he ▸ hin)

/-- **One call keeps the books balanced**, unless it stops dead at an overflow. -/
theorem step_sound (hS : u.Sound) {op : Op} (ha : u.Allowed op) :
    (u.step op = none ∧ u.Overflows op) ∨ ∃ u', u.step op = some u' ∧ u'.Sound := by
  cases op with
  | add addr size => exact step_add hS ha
  | alloc l =>
    rcases alloc_spec hS l with ⟨hnone, hover⟩ | hno | ⟨a, h', he, hS'⟩
    · exact Or.inl ⟨by rw [step, hnone]; rfl, hover⟩
    · exact Or.inr ⟨u, by rw [step, hno]; rfl, hS⟩
    · exact Or.inr ⟨_, by rw [step, he]; rfl, hS'⟩
  | dealloc addr l => exact Or.inr (step_dealloc hS ha)
  | write addr value => exact Or.inr ⟨_, rfl, step_write hS ha⟩

/-! ### Whole runs -/

theorem run_sound (ops : List Op) : ∀ {u u' : Use}, u.Sound → AllowedRun ops u →
    run ops u = some u' →
    u'.Sound := by
  induction ops with
  | nil =>
    intro u u' hS _ hrun
    cases hrun
    exact hS
  | cons op ops ih =>
    intro u u' hS hall hrun
    obtain ⟨u1, hstep, hrest⟩ := Option.bind_eq_some_iff.mp hrun
    rcases step_sound hS hall.1 with ⟨hnone, -⟩ | ⟨u2, hstep', hS'⟩
    · rw [hnone] at hstep
      cases hstep
    · rw [hstep] at hstep'
      cases hstep'
      exact ih hS' (hall.2 _ hstep) hrest

theorem countLarge_spec {mem : ℕ → ℕ} (l : List Span) :
    ∀ {steps a sum largest : ℕ}, ListAt mem a l →
    l.length < steps → sum + size l < 2 ^ 64 →
    countLarge mem steps a sum largest =
      some (sum + size l, (l.map Span.size).foldl max largest) := by
  induction l with
  | nil =>
    intro steps a sum largest hl hlt hsum
    obtain ⟨steps, rfl⟩ := Nat.exists_eq_succ_of_ne_zero (by omega : steps ≠ 0)
    have ha : a = 0 := hl.path
    simp [countLarge, ha]
  | cons b l ih =>
    intro steps a sum largest hl hlt hsum
    obtain ⟨steps, rfl⟩ := Nat.exists_eq_succ_of_ne_zero (by simp at hlt; omega : steps ≠ 0)
    obtain ⟨rfl, hne, hsize, htail⟩ := hl.tail
    rw [size_cons, ← Nat.add_assoc] at hsum
    have hplus : sum + b.size < 2 ^ 64 := (Nat.le_add_right _ _).trans_lt hsum
    rw [countLarge, if_neg hne, hsize, plus_eq hplus]
    have := @ih _ _ _ (max largest b.size) htail (by simpa using hlt) hsum
    simp only [Option.bind_eq_bind, Option.bind_some, this, size_cons, Nat.add_assoc, List.map_cons,
      List.foldl_cons]

/-- The counters `stats` gives. -/
theorem Sound.stats
    (hB : Books u.heap u.regions large small u.live) :
    u.heap.stats =
      some ⟨u.heap.total, u.heap.used, size large, (large.map Span.size).foldl max 0⟩ := by
  have hsum : 0 + size large < 2 ^ 64 := by
    have h1 := hB.total
    have h2 := hB.size_lt
    rw [← hB.total_eq] at h2
    omega
  unfold Heap.stats
  rw [countLarge_spec large hB.large_at hB.free.length_lt hsum, Nat.zero_add]
  rfl

/-- **The heap is safe over every run.** Whatever regions are added and whatever blocks are
asked for, freed and written to, as the heap asks of its users: every block handed out is
aligned to its layout, holds the bytes asked for, lies in the regions, and is apart from every
other one and from every free block, at its class or rounded size; the large free list is in
the order of addresses and no two of its blocks touch; `used` is the sum of the sizes handed
out, and with the free blocks of both kinds it makes the total. An allocation that fails leaves
the heap as it is, and nothing stops dead unless an address passes the top of memory. -/
theorem run_safe (mem : ℕ → ℕ) (ops : List Op) (u : Use) (hall : AllowedRun ops (new mem))
    (hrun : run ops (new mem) = some u) :
    ∃ (large : List Span) (small : Class → List ℕ),
      (ListAt u.heap.mem u.heap.large large ∧ ∀ c, Path u.heap.mem (u.heap.classes c) (small c) 0) ∧
      (∀ b ∈ u.live, b.2.align ∣ b.1 ∧ b.2.size ≤ blockSize b.2 ∧
        ∀ x, b.1 ≤ x → x < b.1 + blockSize b.2 → ∃ r ∈ u.regions, r.start ≤ x ∧ x < r.stop) ∧
      (u.live.map blockOf).Pairwise Span.Apart ∧
      (∀ b ∈ u.live, (∀ f ∈ large, (blockOf b).Apart f) ∧
        ∀ c, ∀ a ∈ small c, (blockOf b).Apart ⟨a, classSize c⟩) ∧
      large.Pairwise (fun s t => s.stop < t.start) ∧
      u.heap.used = (u.live.map fun b => blockSize b.2).sum ∧
      u.heap.total = u.heap.used + size large + ∑ c, (small c).length * classSize c ∧
      u.heap.stats = some ⟨u.heap.total, u.heap.used, size large,
        (large.map Span.size).foldl max 0⟩ ∧
      (∀ l h', u.heap.alloc l = some (none, h') → h' = u.heap) ∧
      (∀ op, u.Allowed op → ¬u.Overflows op → ∃ u', u.step op = some u') := by
  have hS := run_sound ops (sound_new mem) hall hrun
  obtain ⟨large, small, hB⟩ := id hS
  obtain ⟨-, hd₁, hd₂, -, hnodup⟩ := hB.parts
  have hpos : ∀ s ∈ u.live.map blockOf, 0 < s.size := fun s hs => by
    obtain ⟨b, -, rfl⟩ := List.mem_map.mp hs
    exact blockSize_pos b.2
  refine ⟨large, small, ⟨hB.large_at, hB.small_at⟩, fun b hb => ⟨?_, size_le_blockSize _, ?_⟩,
    pairwise_apart hnodup hpos, fun b hb => ⟨fun f hf => ?_, fun c a ha => ?_⟩, hB.free.spaced, ?_,
    hB.total, Sound.stats hB, fun l h' he => ?_, fun op ha hno => ?_⟩
  · exact (align_dvd_unit b.2).trans (hB.live_dvd b hb)
  · exact fun x h₁ h₂ => hB.mem_regions (Or.inr (Or.inr (Books.mem_bytes_live hb h₁ h₂)))
  · exact apart_of_disjoint hd₁.symm (List.mem_map_of_mem hb) hf (blockSize_pos b.2)
      (hB.free.block f hf).size_pos
  · refine Span.apart_of_disjoint (blockSize_pos b.2) (classSize_pos c) ?_
    refine (disjoint_bytes hd₂.symm (List.mem_map_of_mem hb)).mono_right ?_
    refine le_trans ?_ (Finset.single_le_sum (f := fun c => bytes (smallSpans c (small c)))
      (fun _ _ => Multiset.zero_le _) (Finset.mem_univ c))
    exact List.single_le_sum (fun _ _ => Multiset.zero_le _) _
      (List.mem_map_of_mem (Books.mem_smallSpans ha))
  · rw [hB.used_eq, size, List.map_map]
    rfl
  · rcases alloc_spec hS l with ⟨hnone, -⟩ | hno | ⟨a, h'', hsome, -⟩
    · rw [hnone] at he
      cases he
    · rw [hno] at he
      cases he
      rfl
    · rw [hsome] at he
      cases he
  · rcases step_sound hS ha with ⟨-, hover⟩ | ⟨u', hu', -⟩
    · exact absurd hover hno
    · exact ⟨u', hu'⟩

/-- 24 bytes at a multiple of 8: a small block. -/
def twentyFour : Layout := ⟨24, 8, ⟨3, rfl⟩, by decide⟩

/-- 5000 bytes at a multiple of 64: a large block. -/
def fiveThousand : Layout := ⟨5000, 64, ⟨6, rfl⟩, by decide⟩

/-- A region is added, a block of each kind handed out, the small one written to and freed. -/
def oneOfEach : List Op :=
  [.add 65536 32768, .alloc twentyFour, .alloc fiveThousand, .write 65544 7,
    .dealloc 65536 twentyFour]

theorem run_safe_oneOfEach :
    AllowedRun oneOfEach (new fun _ => 0) ∧ ∃ u, run oneOfEach (new fun _ => 0) = some u ∧
      u.live = [(69632, fiveThousand)] ∧ u.heap.used = 5008 := by
  have hrun : ((run oneOfEach (new fun _ => 0)).map Use.live) = some [(69632, fiveThousand)] := by
    decide +kernel
  have hall : AllowedRun oneOfEach (new fun _ => 0) := by decide +kernel
  refine ⟨hall, ?_⟩
  obtain ⟨u, hu, hlive⟩ := Option.map_eq_some_iff.mp hrun
  obtain ⟨large, small, -, -, -, -, -, hused, -⟩ := run_safe _ oneOfEach u hall hu
  refine ⟨u, hu, hlive, ?_⟩
  rw [hused, hlive]
  decide

end Use

end RelayOs.Heap
