import RelayOs.Heap.Runs

/-!
# What the heap can serve

An allocation fails only where it has to. Free neighbours are merged, so a range of free
bytes that could be handed out lies in one free block, and the walk along the list finds the
lowest block such a range lies in (`RelayOs.Heap.Use.alloc_complete`).
-/

namespace RelayOs.Heap

open Linked Spans

variable {b : Span} {l : Layout} {size align : ℕ}

/-- **A range of `size` bytes at a multiple of `align`** lies in the block. -/
def Contains (b : Span) (size align : ℕ) : Prop :=
  ∃ a, align ∣ a ∧ b.start ≤ a ∧ a + size ≤ b.stop

theorem Contains.of_dvd {align' : ℕ} (hdvd : align' ∣ align) (h : Contains b size align) :
    Contains b size align' := by
  obtain ⟨a, ha, hfit⟩ := h
  exact ⟨a, hdvd.trans ha, hfit⟩

theorem holds_iff_contains (hb : IsBlock b) :
    Holds b size (max l.align minBlock) ↔ Contains b size l.align := by
  have hpos : 0 < max l.align minBlock := Nat.lt_of_lt_of_le (by decide) (le_max_right _ _)
  rw [holds_iff hpos]
  constructor
  · exact Contains.of_dvd (align_max_dvd l).1
  · rintro ⟨a, hdvd, hstart, hstop⟩
    rcases le_total l.align minBlock with hle | hle
    · rw [max_eq_right hle]
      exact ⟨b.start, hb.start_dvd, le_rfl, by omega⟩
    · rw [max_eq_left hle]
      exact ⟨a, hdvd, hstart, hstop⟩

/-- The lowest block that holds a range starts before every other that does. -/
theorem LowestAt.start_le {blocks : List Span} {a : ℕ} (hlow : LowestAt blocks size align a)
    (hf : IsFree blocks) :
    ∃ b ∈ blocks, b.start ≤ a ∧ a + size ≤ b.stop ∧
      ∀ c ∈ blocks, Holds c size align → b.start ≤ c.start := by
  obtain ⟨l1, b, l2, rfl, hbefore, hb, rfl⟩ := hlow
  refine ⟨b, by simp, le_nextMultiple _ _, hb, fun c hc hholds => ?_⟩
  rcases List.mem_append.mp hc with hc | hc
  · exact absurd hholds (hbefore c hc)
  · rcases List.mem_cons.mp hc with rfl | hc
    · exact le_rfl
    · have hspaced := (List.pairwise_append.mp hf.spaced).2.1
      have hlt := (List.pairwise_cons.mp hspaced).1 c hc
      exact (start_le_stop b).trans hlt.le

namespace Use

variable {u : Use} {large : List Span} {small : Class → List ℕ}

theorem lacks_large (hf : IsFree large) (hc : classOf l = none) :
    Lacks large small l ↔ ∀ b ∈ large, ¬Contains b (largeSize l) l.align := by
  have hreq : request l = (largeSize l, max l.align minBlock) := by simp only [request, hc]
  have hiff : ∀ b ∈ large, (¬Holds b (request l).1 (request l).2 ↔
      ¬Contains b (largeSize l) l.align) := by
    intro b hb
    rw [hreq, holds_iff_contains (hf.block b hb)]
  constructor
  · intro hlacks b hb
    exact (hiff b hb).mp (hlacks.1 b hb)
  · intro hnot
    refine ⟨fun b hb => (hiff b hb).mpr (hnot b hb), fun c hc' => ?_⟩
    rw [hc] at hc'
    cases hc'

theorem lacks_small {c : Class} (hc : classOf l = some c) :
    Lacks large small l ↔ small c = [] ∧ ∀ b ∈ large, ¬Contains b slab slab := by
  rw [Lacks, request_of_class hc]
  simp only [holds_iff (show 0 < slab by decide), hc, Option.some.injEq, forall_eq']
  exact and_comm

/-! ### The top of memory -/

theorem alloc_eq_none (hB : Books u.heap u.regions large small u.live)
    (hstops : Stops large small l) : u.heap.alloc l = none := by
  obtain ⟨hempty, htop⟩ := hstops
  have hlarge : u.heap.allocLarge (request l).1 (request l).2 = none :=
    allocLarge_eq_none hB.free hB.large_at htop
  rcases hc : classOf l with _ | c
  · rw [request, hc] at hlarge
    simp only [alloc, allocBlock, hc, allocRounded, hlarge]
    rfl
  · rw [request_of_class hc] at hlarge
    have h0 : u.heap.classes c = 0 := (hB.small_at c).eq_nil_iff.mpr (hempty c hc)
    simp only [alloc, allocBlock, hc, allocSmall, firstSmall, h0, ne_eq, not_true_eq_false,
      if_false, refill, hlarge]
    rfl

theorem request_align_pos (l : Layout) : 0 < (request l).2 := by
  rcases hc : classOf l with _ | c
  · simp only [request, hc]
    exact Nat.lt_of_lt_of_le (by decide) (le_max_right _ _)
  · rw [request_of_class hc]
    decide

theorem request_le (l : Layout) : (request l).1 + (request l).2 ≤ 2 ^ 63 + 2 ^ 13 := by
  have hsize := l.size_le
  rcases hc : classOf l with _ | c
  · have hround := nextMultiple_lt (show 0 < minBlock by decide) (max l.size minBlock)
    simp only [request, hc, largeSize, minBlock] at hround ⊢
    omega
  · rw [request_of_class hc]
    decide

theorem request_stop_lt {x : ℕ} (hx : x < 2 ^ 47) (l : Layout) :
    nextMultiple x (request l).2 + (request l).1 < 2 ^ 64 := by
  have hmult := nextMultiple_lt (request_align_pos l) x
  have hreq := request_le l
  omega

/-- What is asked for stops no heap that has room for it between its regions and the top of
memory. -/
theorem not_stops (hB : Books u.heap u.regions large small u.live)
    (hroom : ∀ r ∈ u.regions, r.stop + (request l).1 + (request l).2 ≤ 2 ^ 64) :
    ¬Stops large small l := by
  rintro ⟨-, htop⟩
  obtain ⟨r, hr, x, -, hx, hover⟩ := overflows_alloc hB htop
  have hmult := nextMultiple_lt (request_align_pos l) x
  have := hroom r hr
  omega

/-! ### Completeness -/

/-- **An allocation is complete.** Over every run of the heap and for every layout, `alloc`
stops dead exactly if its walk along the free blocks, up to the first that holds what is asked
for, passes the top of memory; which it does not where there is that much room between the
regions and the top. Otherwise it ends: with no block for a large layout exactly when no free
block contains a range of its rounded size at a multiple of its alignment, and for a small one
exactly when its class has no free block and no free block contains a slab. A large block comes
from the lowest free block that contains such a range. -/
theorem alloc_complete (mem : ℕ → ℕ) (ops : List Op) (u : Use) (l : Layout)
    (hall : AllowedRun ops (new mem)) (hrun : run ops (new mem) = some u) :
    ∃ (large : List Span) (small : Class → List ℕ),
      (ListAt u.heap.mem u.heap.large large ∧
        ∀ c, Path u.heap.mem (u.heap.classes c) (small c) 0) ∧
      (u.heap.alloc l = none ↔ Stops large small l) ∧
      ((∀ r ∈ u.regions, r.stop + (request l).1 + (request l).2 ≤ 2 ^ 64) →
        ¬Stops large small l) ∧
      (¬Stops large small l → ∃ r h', u.heap.alloc l = some (r, h') ∧
        (classOf l = none → (r = none ↔ ∀ b ∈ large, ¬Contains b (largeSize l) l.align)) ∧
        (∀ c, classOf l = some c →
          (r = none ↔ small c = [] ∧ ∀ b ∈ large, ¬Contains b slab slab)) ∧
        (classOf l = none → ∀ a, r = some a → l.align ∣ a ∧
          ∃ b ∈ large, b.start ≤ a ∧ a + largeSize l ≤ b.stop ∧
            ∀ c ∈ large, Contains c (largeSize l) l.align → b.start ≤ c.start)) := by
  obtain ⟨large, small, hB⟩ := run_sound ops (sound_new mem) hall hrun
  have hiff : u.heap.alloc l = none ↔ Stops large small l := by
    refine ⟨fun hnone => ?_, alloc_eq_none hB⟩
    rcases alloc_books hB l with ⟨-, hstops⟩ | ⟨he, -⟩ | ⟨a, h', he, -⟩
    · exact hstops
    · rw [hnone] at he
      cases he
    · rw [hnone] at he
      cases he
  refine ⟨large, small, ⟨hB.large_at, hB.small_at⟩, hiff, not_stops hB, fun hno => ?_⟩
  rcases alloc_books hB l with ⟨-, hstops⟩ | ⟨he, hlacks⟩ | ⟨a, h', he, hlacks, hlow, -⟩
  · exact absurd hstops hno
  · refine ⟨none, u.heap, he, fun hc => ?_, fun c hc => ?_, nofun⟩
    · simpa using (lacks_large hB.free hc).mp hlacks
    · simpa using (lacks_small hc).mp hlacks
  · refine ⟨some a, h', he, fun hc => ?_, fun c hc => ?_, ?_⟩
    · rw [lacks_large hB.free hc] at hlacks
      simpa using hlacks
    · rw [lacks_small hc] at hlacks
      simpa using hlacks
    · rintro hc _ ⟨⟩
      have hreq : request l = (largeSize l, max l.align minBlock) := by simp only [request, hc]
      have hfirst := hlow hc
      rw [hreq] at hfirst
      have hpos : 0 < max l.align minBlock := Nat.lt_of_lt_of_le (by decide) (le_max_right _ _)
      obtain ⟨b, hb, hstart, hstop, hmin⟩ := hfirst.start_le hB.free
      refine ⟨(align_max_dvd l).1.trans (hfirst.dvd hpos), b, hb, hstart, hstop, ?_⟩
      intro c hc hcont
      exact hmin c hc ((holds_iff_contains (hB.free.block c hc)).mpr hcont)

theorem alloc_complete_fiveThousand :
    ∃ u, run [.add 65536 32768] (new fun _ => 0) = some u ∧
      ∃ a h', u.heap.alloc fiveThousand = some (some a, h') ∧ 64 ∣ a := by
  have hregions : (run [.add 65536 32768] (new fun _ => 0)).map Use.regions =
      some [⟨65536, 32768⟩] := by
    decide +kernel
  have hgives : ((run [.add 65536 32768] (new fun _ => 0)).bind fun u =>
      u.heap.alloc fiveThousand).map Prod.fst = some (some 65536) := by
    decide +kernel
  obtain ⟨u, hu, hr⟩ := Option.map_eq_some_iff.mp hregions
  obtain ⟨large, small, -, -, hroom, hends⟩ := alloc_complete _ _ u fiveThousand
    (by decide +kernel) hu
  obtain ⟨r, h', he, -, -, hlowest⟩ := hends (hroom (by rw [hr]; decide))
  rw [hu, Option.bind_some, he, Option.map_some, Option.some.injEq] at hgives
  cases hgives
  exact ⟨u, hu, 65536, h', he, (hlowest (by decide) _ rfl).1⟩

/-- The kernel's heap. -/
def kernelHeap : List Op := [.add 0xFFFFC00000000000 (32 * 2 ^ 20)]

/-- 64 TiB at a multiple of 16. -/
def sixtyFourTiB : Layout := ⟨2 ^ 46, 16, ⟨4, rfl⟩, by decide⟩

/-- **The kernel's heap stops dead at a layout of 64 TiB**, where it has no block to give: the
sum of the heap's own address and the size is 2^64. -/
theorem kernel_heap_stops :
    AllowedRun kernelHeap (new fun _ => 0) ∧
      ∃ u, run kernelHeap (new fun _ => 0) = some u ∧ u.heap.alloc sixtyFourTiB = none := by
  have hstops : (run kernelHeap (new fun _ => 0)).map
      (fun u => (u.heap.alloc sixtyFourTiB).isNone) =
      some true := by
    decide +kernel
  obtain ⟨u, hu, hnone⟩ := Option.map_eq_some_iff.mp hstops
  exact ⟨by decide +kernel, u, hu, Option.isNone_iff_eq_none.mp hnone⟩

end Use

end RelayOs.Heap
