import Mathlib
import RelayOs.Heap.FreeList

/-!
# The heap's books

Every byte of the regions a heap was given lies in exactly one block: free on the large
list, free in a size class, or handed out (`RelayOs.Heap.Books`). Each of the heap's calls
keeps that: it moves blocks between the three, or splits one and joins others, and writes to
free blocks only.
-/

namespace RelayOs.Heap

open Linked Spans

variable {h h' : Heap} {l : Layout} {c : Class}

/-! ### Sizes -/

theorem classSize_eq (c : Class) : classSize c = 2 ^ (4 + c.val) := by
  revert c
  decide

theorem classSize_pos (c : Class) : 0 < classSize c := by
  rw [classSize_eq]
  exact Nat.two_pow_pos _

theorem dvd_classSize (c : Class) : 16 ∣ classSize c := by
  rw [classSize_eq, Nat.pow_add]
  exact Nat.dvd_mul_right _ _

theorem slab_eq (c : Class) : slab / classSize c * classSize c = slab := by
  revert c
  decide

theorem le_classSize (hc : classOf l = some c) : l.size ≤ classSize c ∧ l.align ≤ classSize c := by
  have := List.find?_some hc
  simpa using this

theorem align_dvd_classSize (hc : classOf l = some c) : l.align ∣ classSize c := by
  obtain ⟨k, hk⟩ := l.align_pow
  have hle := (le_classSize hc).2
  rw [hk, classSize_eq] at *
  exact Nat.pow_dvd_pow 2 ((Nat.pow_le_pow_iff_right (by decide)).mp hle)

theorem largeSize_dvd (l : Layout) : 16 ∣ largeSize l := dvd_nextMultiple (by decide) _

theorem largeSize_pos (l : Layout) : 0 < largeSize l := by
  have := le_nextMultiple (max l.size minBlock) minBlock
  have hmin : minBlock ≤ max l.size minBlock := le_max_right _ _
  unfold largeSize
  exact Nat.lt_of_lt_of_le (by decide) (hmin.trans this)

theorem blockSize_of_class (hc : classOf l = some c) : blockSize l = classSize c := by
  simp only [blockSize, hc]

theorem blockSize_of_large (hc : classOf l = none) : blockSize l = largeSize l := by
  simp only [blockSize, hc]

theorem blockSize_dvd (l : Layout) : 16 ∣ blockSize l := by
  unfold blockSize
  split
  · exact dvd_classSize _
  · exact largeSize_dvd l

theorem blockSize_pos (l : Layout) : 0 < blockSize l := by
  unfold blockSize
  split
  · exact classSize_pos _
  · exact largeSize_pos l

theorem size_le_blockSize (l : Layout) : l.size ≤ blockSize l := by
  rcases hc : classOf l with _ | c
  · rw [blockSize_of_large hc]
    exact (le_max_left _ _).trans (le_nextMultiple _ _)
  · rw [blockSize_of_class hc]
    exact (le_classSize hc).1

/-- What the address of a block of the layout is a multiple of. -/
def unit (l : Layout) : ℕ :=
  match classOf l with
  | some c => classSize c
  | none => max l.align minBlock

theorem align_max_dvd (l : Layout) :
    l.align ∣ max l.align minBlock ∧ 16 ∣ max l.align minBlock := by
  obtain ⟨k, hk⟩ := l.align_pow
  have h16 : minBlock = 2 ^ 4 := rfl
  rw [hk, h16]
  rcases le_total k 4 with hle | hle
  · rw [max_eq_right (Nat.pow_le_pow_right (by decide) hle)]
    exact ⟨Nat.pow_dvd_pow 2 hle, dvd_rfl⟩
  · rw [max_eq_left (Nat.pow_le_pow_right (by decide) hle)]
    exact ⟨dvd_rfl, Nat.pow_dvd_pow 2 hle⟩

theorem align_dvd_unit (l : Layout) : l.align ∣ unit l := by
  unfold unit
  split
  · exact align_dvd_classSize (by assumption)
  · exact (align_max_dvd l).1

theorem dvd_unit (l : Layout) : 16 ∣ unit l := by
  unfold unit
  split
  · exact dvd_classSize _
  · exact (align_max_dvd l).2

/-! ### The books -/

/-- The range of a block handed out. -/
def blockOf (b : ℕ × Layout) : Span := ⟨b.1, blockSize b.2⟩

/-- The ranges of the free blocks of a class. -/
def smallSpans (c : Class) (as : List ℕ) : List Span := as.map fun a => ⟨a, classSize c⟩

/-- **The books of a heap**: the regions it was given, its free blocks, as its lists in
memory have them, and the blocks it handed out. -/
structure Books (h : Heap) (regions large : List Span) (small : Class → List ℕ)
    (live : List (ℕ × Layout)) : Prop where
  large_at : ListAt h.mem h.large large
  free : IsFree large
  small_at : ∀ c, Path h.mem (h.classes c) (small c) 0
  small_dvd : ∀ c, ∀ a ∈ small c, classSize c ∣ a
  live_dvd : ∀ b ∈ live, unit b.2 ∣ b.1
  cover : bytes large + ∑ c, bytes (smallSpans c (small c)) + bytes (live.map blockOf) =
    bytes regions
  nodup : (bytes regions).Nodup
  region : ∀ r ∈ regions, 0 < r.start ∧ r.stop < 2 ^ 64 ∧ h.start ≤ r.start ∧ r.stop ≤ h.stop
  total_eq : h.total = size regions
  used_eq : h.used = size (live.map blockOf)

namespace Books

variable {regions large : List Span} {small : Class → List ℕ} {live : List (ℕ × Layout)}

/-- No two of the three kinds of blocks share a byte. -/
theorem parts (hB : Books h regions large small live) :
    Disjoint (bytes large) (∑ c, bytes (smallSpans c (small c))) ∧
      Disjoint (bytes large) (bytes (live.map blockOf)) ∧
      Disjoint (∑ c, bytes (smallSpans c (small c))) (bytes (live.map blockOf)) ∧
      (∑ c, bytes (smallSpans c (small c))).Nodup ∧ (bytes (live.map blockOf)).Nodup := by
  have hn := hB.nodup
  rw [← hB.cover] at hn
  simp only [Multiset.nodup_add, Multiset.disjoint_add_left] at hn
  exact ⟨hn.1.2.2, hn.2.2.1, hn.2.2.2, hn.1.2.1, hn.2.1⟩

theorem size_lt (hB : Books h regions large small live) : size regions < 2 ^ 64 := by
  have hsub : (bytes regions).toFinset ⊆ Finset.Ico 1 (2 ^ 64) := fun x hx => by
    obtain ⟨r, hr, h1, h2⟩ := mem_bytes.mp (Multiset.mem_toFinset.mp hx)
    obtain ⟨h0, h3, -⟩ := hB.region r hr
    exact Finset.mem_Ico.mpr ⟨h0.trans_le h1, h2.trans h3⟩
  have hcard := Finset.card_le_card hsub
  rw [Multiset.toFinset_card_of_nodup hB.nodup, card_bytes, Nat.card_Ico] at hcard
  omega

theorem size_smallSpans (c : Class) (as : List ℕ) :
    size (smallSpans c as) = as.length * classSize c := by
  induction as with
  | nil => simp [smallSpans]
  | cons a as ih =>
    rw [smallSpans] at *
    rw [List.map_cons, size_cons, ih, List.length_cons, Nat.succ_mul, Nat.add_comm]

/-- **The counters add up.** -/
theorem total (hB : Books h regions large small live) :
    h.total = h.used + size large + ∑ c, (small c).length * classSize c := by
  have hcard := congrArg Multiset.card hB.cover
  simp only [Multiset.card_add, Multiset.card_sum, card_bytes, size_smallSpans] at hcard
  rw [hB.total_eq, hB.used_eq, ← hcard]
  omega

variable {x a : ℕ} {b : ℕ × Layout}

/-- A byte of a block is a byte of a region. -/
theorem mem_regions (hB : Books h regions large small live)
    (hx : x ∈ bytes large ∨ (∃ c, x ∈ bytes (smallSpans c (small c))) ∨
      x ∈ bytes (live.map blockOf)) :
    ∃ r ∈ regions, r.start ≤ x ∧ x < r.stop := by
  refine mem_bytes.mp ?_
  rw [← hB.cover, Multiset.mem_add, Multiset.mem_add]
  rcases hx with hx | ⟨c, hx⟩ | hx
  · exact Or.inl (Or.inl hx)
  · exact Or.inl (Or.inr (Multiset.mem_sum.mpr ⟨c, Finset.mem_univ c, hx⟩))
  · exact Or.inr hx

theorem mem_smallSpans (ha : a ∈ small c) : (⟨a, classSize c⟩ : Span) ∈ smallSpans c (small c) :=
  List.mem_map_of_mem ha

theorem mem_bytes_small (ha : a ∈ small c) : a ∈ ∑ c, bytes (smallSpans c (small c)) := by
  refine Multiset.mem_sum.mpr ⟨c, Finset.mem_univ c,
    mem_bytes.mpr ⟨_, mem_smallSpans ha, le_rfl, ?_⟩⟩
  exact Nat.lt_add_of_pos_right (classSize_pos c)

theorem mem_bytes_live (hb : b ∈ live) (h1 : b.1 ≤ x)
    (h2 : x < b.1 + blockSize b.2) : x ∈ bytes (live.map blockOf) :=
  mem_bytes.mpr ⟨blockOf b, List.mem_map_of_mem hb, h1, h2⟩

/-- **A block handed out is a block**: aligned, and inside the regions. -/
theorem isBlock (hB : Books h regions large small live) (hb : b ∈ live) : IsBlock (blockOf b) := by
  have hpos := blockSize_pos b.2
  obtain ⟨r, hr, h1, -⟩ := hB.mem_regions (Or.inr (Or.inr
    (mem_bytes_live hb le_rfl (Nat.lt_add_of_pos_right hpos))))
  obtain ⟨r', hr', -, h2⟩ := hB.mem_regions (Or.inr (Or.inr
    (mem_bytes_live hb (x := b.1 + blockSize b.2 - 1) (by omega) (by omega))))
  have h16 : 16 ∣ b.1 := (dvd_unit b.2).trans (hB.live_dvd b hb)
  have hlow := (hB.region r hr).1
  have hhigh := (hB.region r' hr').2.1
  refine ⟨h16, blockSize_dvd _, hpos, hlow.trans_le h1, ?_⟩
  -- the end of the block is a multiple of 16 too, so not the top itself
  have hend : 16 ∣ b.1 + blockSize b.2 := Nat.dvd_add h16 (blockSize_dvd _)
  change b.1 + blockSize b.2 < 2 ^ 64
  omega

theorem small_moved (hB : Books h regions large small live) {l : List Span} (hm : Moved l h h')
    (hd : Disjoint (bytes l) (∑ c, bytes (smallSpans c (small c)))) (c : Class) :
    Path h'.mem (h'.classes c) (small c) 0 := by
  rw [hm.classes_eq]
  refine (hB.small_at c).congr fun a ha => hm.mem_eq a fun hc => ?_
  exact Multiset.disjoint_left.mp hd hc (mem_bytes_small ha)

/-- The books of a heap that differs in its counters only. -/
theorem counters (hB : Books h regions large small live) {live' : List (ℕ × Layout)} {used : ℕ}
    {large' : List Span} (hl : ListAt h'.mem h'.large large') (hf : IsFree large') {l : List Span}
    (hm : Moved l h h') (hd : Disjoint (bytes l) (∑ c, bytes (smallSpans c (small c))))
    (hlive : ∀ b ∈ live', unit b.2 ∣ b.1) (hused : used = size (live'.map blockOf))
    (hcover : bytes large' + bytes (live'.map blockOf) = bytes large + bytes (live.map blockOf)) :
    Books { h' with used := used } regions large' small live' where
  large_at := hl
  free := hf
  small_at := fun c => (hB.small_moved hm hd c : Path h'.mem (h'.classes c) (small c) 0)
  small_dvd := hB.small_dvd
  live_dvd := hlive
  cover := by
    rw [← hB.cover, add_right_comm, hcover, add_right_comm]
  nodup := hB.nodup
  region := fun r hr => by
    change _ ∧ _ ∧ h'.start ≤ _ ∧ _ ≤ h'.stop
    rw [hm.start_eq, hm.stop_eq]
    exact hB.region r hr
  total_eq := hm.total_eq.trans hB.total_eq
  used_eq := hused

/-! ### Adding a region -/

theorem add (hB : Books h regions large small live) {addr n : ℕ}
    (hs : IsBlock ⟨addr, n⟩) (hapart : ∀ r ∈ regions, (⟨addr, n⟩ : Span).Apart r) :
    ∃ h',
      insertFree { h with
          start := min h.start addr, stop := max h.stop (addr + n), total := h.total + n }
        addr n = some h' ∧
      Books h' (⟨addr, n⟩ :: regions) (Spans.insert ⟨addr, n⟩ large) small live := by
  have hd : Disjoint (⟨addr, n⟩ : Span).bytes (bytes regions) :=
    Multiset.disjoint_left.mpr fun {x} hx hx' => by
      obtain ⟨r, hr, hrx⟩ := mem_bytes.mp hx'
      exact Multiset.disjoint_left.mp (hapart r hr).disjoint hx (Span.mem_bytes.mpr hrx)
  rw [← hB.cover, Multiset.disjoint_add_right, Multiset.disjoint_add_right] at hd
  obtain ⟨⟨hd1, hd2⟩, -⟩ := hd
  have hapart' : ∀ b ∈ large, (⟨addr, n⟩ : Span).Apart b := fun b hb =>
    Span.apart_of_disjoint hs.size_pos (hB.free.block b hb).size_pos
      (disjoint_bytes hd1.symm hb).symm
  obtain ⟨h', he, hl', hm⟩ := insertFree_spec (h := { h with
    start := min h.start addr, stop := max h.stop (addr + n), total := h.total + n })
    hB.free hB.large_at hs hapart'
  refine ⟨h', he, hl', .insert hs hB.free hapart', fun c => ?_, hB.small_dvd, hB.live_dvd, ?_,
    ?_, ?_, ?_, ?_⟩
  · rw [hm.classes_eq]
    refine (hB.small_at c).congr fun a ha => hm.mem_eq a fun hc => ?_
    rcases Multiset.mem_add.mp (bytes_cons _ _ ▸ hc) with hc | hc
    · exact Multiset.disjoint_left.mp hd2 hc (mem_bytes_small ha)
    · exact Multiset.disjoint_left.mp hB.parts.1 hc (mem_bytes_small ha)
  · rw [bytes_insert, bytes_cons, ← hB.cover]
    simp only [add_assoc]
  · rw [bytes_cons, Multiset.nodup_add]
    refine ⟨Multiset.nodup_Ico, hB.nodup, Multiset.disjoint_left.mpr fun {x} hx hx' => ?_⟩
    obtain ⟨r, hr, hrx⟩ := mem_bytes.mp hx'
    exact Multiset.disjoint_left.mp (hapart r hr).disjoint hx (Span.mem_bytes.mpr hrx)
  · rw [hm.start_eq, hm.stop_eq]
    refine List.forall_mem_cons.mpr
      ⟨⟨hs.start_pos, hs.stop_lt, min_le_right _ _, le_max_right _ _⟩, ?_⟩
    intro r hr
    obtain ⟨h1, h2, h3, h4⟩ := hB.region r hr
    exact ⟨h1, h2, (min_le_left _ _).trans h3, h4.trans (le_max_left _ _)⟩
  · rw [hm.total_eq, size_cons, ← hB.total_eq]
    exact Nat.add_comm _ _
  · exact hm.used_eq.trans hB.used_eq

/-! ### Large blocks -/

theorem live_perm (hb : b ∈ live) :
    (live.map blockOf).Perm (blockOf b :: (live.erase b).map blockOf) :=
  (List.perm_cons_erase hb).map blockOf

theorem used_eq_add (hB : Books h regions large small live) (hb : b ∈ live) :
    h.used = blockSize b.2 + size ((live.erase b).map blockOf) := by
  rw [hB.used_eq, size_perm (live_perm hb), size_cons]
  rfl

/-- **A large block is freed.** -/
theorem dealloc_large (hB : Books h regions large small live) (hb : b ∈ live) :
    ∃ h' large', h.insertFree b.1 (blockSize b.2) = some h' ∧ h'.used = h.used ∧
      Books { h' with used := h.used - blockSize b.2 } regions large' small (live.erase b) := by
  have hbytes := bytes_perm (live_perm hb)
  rw [bytes_cons] at hbytes
  have hparts := hB.parts
  rw [hbytes] at hparts
  simp only [Multiset.disjoint_add_right] at hparts
  have hs := hB.isBlock hb
  have hapart : ∀ c ∈ large, (blockOf b).Apart c := fun c hc =>
    Span.apart_of_disjoint hs.size_pos (hB.free.block c hc).size_pos
      (disjoint_bytes hparts.2.1.1 hc).symm
  obtain ⟨h', he, hl', hm⟩ := insertFree_spec hB.free hB.large_at hs hapart
  refine ⟨h', _, he, hm.used_eq, hB.counters hl' (.insert hs hB.free hapart) hm ?_ ?_ ?_ ?_⟩
  · rw [bytes_cons, Multiset.disjoint_add_left]
    exact ⟨hparts.2.2.1.1.symm, hparts.1⟩
  · exact fun c hc => hB.live_dvd c (List.mem_of_mem_erase hc)
  · rw [hB.used_eq_add hb, Nat.add_sub_cancel_left]
  · rw [bytes_insert, hbytes, add_left_comm, add_assoc]

/-- **A large block is handed out**, or there is none and nothing changes. -/
theorem alloc_large (hB : Books h regions large small live) (hc : classOf l = none) :
    (h.allocRounded l = none ∧ PassesTop (blockSize l) (unit l) large) ∨
      (h.allocRounded l = some (none, h) ∧ ∀ b ∈ large, ¬Holds b (blockSize l) (unit l)) ∨
      ∃ a h' large', h.allocRounded l = some (some a, h') ∧
        LowestAt large (blockSize l) (unit l) a ∧
        Books h' regions large' small ((a, l) :: live) := by
  have hunit : unit l = max l.align minBlock := by simp only [unit, hc]
  have h16 := dvd_unit l
  have hpos : 0 < max l.align minBlock := Nat.lt_of_lt_of_le (by decide) (le_max_right _ _)
  unfold allocRounded
  rw [blockSize_of_large hc, hunit]
  rw [hunit] at h16
  rcases allocLarge_spec hB.free hB.large_at (largeSize_dvd l) h16 hpos with
    ⟨hnone, hbig⟩ | ⟨hno, hnot⟩ | ⟨a, h', large', he, hlow, hl', hf', hbytes, hm⟩
  · exact Or.inl ⟨by rw [hnone]; rfl, hbig⟩
  · exact Or.inr (Or.inl ⟨by rw [hno]; rfl, hnot⟩)
  · have hlarge : size large = largeSize l + size large' := by
      rw [← card_bytes, hbytes, Multiset.card_add, Span.card_bytes, card_bytes]
    have hused : h'.used + largeSize l < 2 ^ 64 := by
      have h1 := hB.total
      have h2 := hB.size_lt
      rw [← hB.total_eq] at h2
      rw [hm.used_eq]
      omega
    refine Or.inr (Or.inr ⟨a, { h' with used := h'.used + largeSize l }, large', ?_, hlow, ?_⟩)
    · simp only [he, Option.bind_eq_bind, Option.bind_some, plus_eq hused]
    · refine hB.counters hl' hf' hm hB.parts.1 ?_ ?_ ?_
      · refine List.forall_mem_cons.mpr ⟨?_, hB.live_dvd⟩
        rw [hunit]
        exact hlow.dvd hpos
      · rw [hm.used_eq, hB.used_eq, List.map_cons, size_cons]
        change _ = blockSize l + _
        rw [blockSize_of_large hc, Nat.add_comm]
      · rw [hbytes, List.map_cons, bytes_cons]
        change _ + ((⟨a, blockSize l⟩ : Span).bytes + _) = _
        rw [blockSize_of_large hc, add_left_comm, add_assoc]

/-! ### Small blocks -/

theorem sum_push (small : Class → List ℕ) (c : Class) (as : List ℕ) :
    ∑ c', bytes (smallSpans c' (Function.update small c (as ++ small c) c')) =
      bytes (smallSpans c as) + ∑ c', bytes (smallSpans c' (small c')) := by
  have hother : ∑ c' ∈ Finset.univ.erase c,
      bytes (smallSpans c' (Function.update small c (as ++ small c) c')) =
      ∑ c' ∈ Finset.univ.erase c, bytes (smallSpans c' (small c')) :=
    Finset.sum_congr rfl fun c' hc' => by rw [Function.update_of_ne (Finset.ne_of_mem_erase hc')]
  rw [← Finset.add_sum_erase _ _ (Finset.mem_univ c), hother, Function.update_self, smallSpans,
    List.map_append, bytes_append, add_assoc]
  congr 1
  exact Finset.add_sum_erase Finset.univ (fun c' => bytes (smallSpans c' (small c')))
    (Finset.mem_univ c)

theorem pushSmall_path {as : List ℕ} (ha0 : a ≠ 0) (hp : Path h.mem (h.classes c) as 0)
    (ha : a ∉ as) : Path (h.pushSmall c a).mem ((h.pushSmall c a).classes c) (a :: as) 0 := by
  have hcl : (h.pushSmall c a).classes c = a := Function.update_self _ _ _
  have hself : (h.pushSmall c a).mem a = h.classes c := Function.update_self _ _ _
  rw [hcl]
  refine ⟨rfl, ha0, ?_⟩
  rw [hself]
  exact hp.congr fun n hn => Function.update_of_ne (fun he => ha (by rwa [← he])) _ _

theorem pushSmall_mem (hx : x ≠ a) : (h.pushSmall c a).mem x = h.mem x :=
  Function.update_of_ne hx _ _

theorem pushSmall_classes {c' : Class} (hc : c' ≠ c) :
    (h.pushSmall c a).classes c' = h.classes c' := Function.update_of_ne hc _ _

/-- **A small block is freed.** -/
theorem dealloc_small (hB : Books h regions large small live) (hb : b ∈ live)
    (hc : classOf b.2 = some c) :
    Books { h.pushSmall c b.1 with used := h.used - classSize c } regions large
      (Function.update small c ([b.1] ++ small c)) (live.erase b) := by
  have hbytes := bytes_perm (live_perm hb)
  rw [bytes_cons] at hbytes
  have hparts := hB.parts
  rw [hbytes] at hparts
  simp only [Multiset.disjoint_add_right] at hparts
  have hs := hB.isBlock hb
  have hin : b.1 ∈ (blockOf b).bytes := hs.words_mem.1
  have hsmall : ∀ c', ∀ a ∈ small c', a ≠ b.1 := fun c' a ha he =>
    Multiset.disjoint_left.mp hparts.2.2.1.1 (mem_bytes_small ha) (he ▸ hin)
  have hblock : bytes (smallSpans c [b.1]) = (blockOf b).bytes := by
    simp [smallSpans, blockOf, blockSize_of_class hc]
  refine ⟨?_, hB.free, fun c' => ?_, fun c' a ha => ?_, fun b' hb' => ?_, ?_, hB.nodup, hB.region,
    hB.total_eq, ?_⟩
  · refine hB.large_at.congr fun f hf => ?_
    have hnot : ∀ x ∈ f.bytes, x ≠ b.1 := fun x hx he =>
      Multiset.disjoint_left.mp (disjoint_bytes hparts.2.1.1 hf) hx (he ▸ hin)
    obtain ⟨h1, h2⟩ := (hB.free.block f hf).words_mem
    exact ⟨pushSmall_mem (hnot _ h1), pushSmall_mem (hnot _ h2)⟩
  · change Path (h.pushSmall c b.1).mem ((h.pushSmall c b.1).classes c') _ 0
    rcases eq_or_ne c' c with rfl | hne
    · rw [Function.update_self]
      exact pushSmall_path hs.start_pos.ne' (hB.small_at c') fun ha => hsmall c' _ ha rfl
    · rw [Function.update_of_ne hne, pushSmall_classes hne]
      exact (hB.small_at c').congr fun a ha => pushSmall_mem (hsmall c' a ha)
  · rcases eq_or_ne c' c with rfl | hne
    · rw [Function.update_self] at ha
      rcases List.mem_cons.mp ha with rfl | ha
      · have hunit := hB.live_dvd b hb
        simpa only [unit, hc] using hunit
      · exact hB.small_dvd c' a ha
    · rw [Function.update_of_ne hne] at ha
      exact hB.small_dvd c' a ha
  · exact hB.live_dvd b' (List.mem_of_mem_erase hb')
  · rw [sum_push, ← hB.cover, hbytes, hblock]
    simp only [add_assoc, add_left_comm]
  · change h.used - classSize c = _
    rw [hB.used_eq_add hb, blockSize_of_class hc, Nat.add_sub_cancel_left]

/-- **Blocks are put on a free list**, the last one in front. -/
theorem carve_spec (c : Class) (as : List ℕ) : ∀ {h : Heap} {old : List ℕ},
    Path h.mem (h.classes c) old 0 → (∀ a ∈ as, a ≠ 0 ∧ a ∉ old) → as.Nodup →
    ∃ h', carve c as h = some h' ∧ Path h'.mem (h'.classes c) (as.reverse ++ old) 0 ∧
      (∀ c' ≠ c, h'.classes c' = h.classes c') ∧ (∀ x ∉ as, h'.mem x = h.mem x) ∧
      h' = { h with mem := h'.mem, classes := h'.classes } := by
  induction as with
  | nil => exact fun {h old} hp _ _ => ⟨h, rfl, hp, fun _ _ => rfl, fun _ _ => rfl, rfl⟩
  | cons a as ih =>
    intro h old hp hnew hnodup
    obtain ⟨⟨ha0, ha⟩, has⟩ := List.forall_mem_cons.mp hnew
    obtain ⟨hna, hnodup'⟩ := List.nodup_cons.mp hnodup
    have hnew' : ∀ b ∈ as, b ≠ 0 ∧ b ∉ a :: old := fun b hb => by
      refine ⟨(has b hb).1, fun hc => ?_⟩
      rcases List.mem_cons.mp hc with rfl | hc
      · exact hna hb
      · exact (has b hb).2 hc
    obtain ⟨h', he, hp', hcl, hmem, hrest⟩ := ih (pushSmall_path ha0 hp ha) hnew' hnodup'
    refine ⟨h', ?_, ?_, fun c' hc' => ?_, fun x hx => ?_, hrest⟩
    · rw [carve, if_neg ha0]
      exact he
    · rw [List.reverse_cons, List.append_assoc, List.singleton_append]
      exact hp'
    · exact (hcl c' hc').trans (pushSmall_classes hc')
    · refine (hmem x fun hc => hx (List.mem_cons_of_mem a hc)).trans (pushSmall_mem fun he => hx ?_)
      rw [he]
      exact List.mem_cons_self

theorem bytes_slabBlocks (c : Class) (a : ℕ) :
    bytes (smallSpans c (slabBlocks c a)) = (⟨a, slab⟩ : Span).bytes := by
  have hrow := bytes_row a (classSize c) (slab / classSize c)
  rw [slab_eq] at hrow
  rw [← hrow, smallSpans, slabBlocks, List.map_map]
  rfl

theorem nodup_slabBlocks (c : Class) (a : ℕ) : (slabBlocks c a).Nodup := by
  refine List.Nodup.map (fun i j hij => ?_) List.nodup_range
  have hpos := classSize_pos c
  exact Nat.eq_of_mul_eq_mul_right hpos (Nat.add_left_cancel hij)

theorem slabBlocks_eq_cons (c : Class) (a : ℕ) : ∃ as, slabBlocks c a = a :: as := by
  have hpos : 0 < slab / classSize c := by
    revert c
    decide
  obtain ⟨n, hn⟩ := Nat.exists_eq_succ_of_ne_zero hpos.ne'
  refine ⟨(List.range n).map fun i => a + (i + 1) * classSize c, ?_⟩
  unfold slabBlocks
  rw [hn, List.range_succ_eq_map, List.map_cons, List.map_map, Nat.zero_mul, Nat.add_zero]
  rfl

/-- **A class without a free block gets a slab of them**, or there is none and nothing
changes. -/
theorem refill (hB : Books h regions large small live) (hc : small c = []) :
    (h.refill c = none ∧ PassesTop slab slab large) ∨
      (h.refill c = some (none, h) ∧ ∀ b ∈ large, ¬Holds b slab slab) ∨
      ∃ a as h' large', h.refill c = some (some a, h') ∧ (∃ b ∈ large, Holds b slab slab) ∧
        Books h' regions large' (Function.update small c (a :: as)) live := by
  unfold Heap.refill
  rcases @allocLarge_spec h large slab slab hB.free hB.large_at (by decide) (by decide)
    (by decide) with ⟨hnone, hbig⟩ | ⟨hno, hnot⟩ |
      ⟨a, h1, large', he, hlowest, hl', hf', hbytes, hm⟩
  · exact Or.inl ⟨by rw [hnone]; rfl, hbig⟩
  · exact Or.inr (Or.inl ⟨by rw [hno]; rfl, hnot⟩)
  · refine Or.inr (Or.inr ?_)
    have hdvd : slab ∣ a := hlowest.dvd (by decide)
    obtain ⟨as, has⟩ := slabBlocks_eq_cons c a
    have hin : ∀ x, a ≤ x → x < a + slab → x ∈ bytes large := fun x h1 h2 => by
      rw [hbytes]
      exact Multiset.mem_add.mpr (Or.inl (Span.mem_bytes.mpr ⟨h1, h2⟩))
    have hslab : ∀ b ∈ slabBlocks c a, a ≤ b ∧ b < a + slab ∧ classSize c ∣ b := fun b hb => by
      have hmem : b ∈ bytes (smallSpans c (slabBlocks c a)) :=
        mem_bytes.mpr ⟨⟨b, classSize c⟩, List.mem_map_of_mem hb, le_rfl,
          Nat.lt_add_of_pos_right (classSize_pos c)⟩
      rw [bytes_slabBlocks, Span.mem_bytes] at hmem
      refine ⟨hmem.1, hmem.2, ?_⟩
      obtain ⟨i, -, rfl⟩ := List.mem_map.mp hb
      have hslab : classSize c ∣ slab := ⟨_, (Nat.mul_comm _ _ ▸ slab_eq c).symm⟩
      exact Nat.dvd_add (hslab.trans hdvd) (Nat.dvd_mul_left _ _)
    have hslab0 : 0 < slab := by decide
    have hlow : 0 < a := by
      obtain ⟨r, hr, h1, -⟩ := hB.mem_regions (Or.inl (hin a le_rfl (by omega)))
      exact (hB.region r hr).1.trans_le h1
    have hplus : a + slab < 2 ^ 64 := by
      obtain ⟨r, hr, -, h2⟩ := hB.mem_regions (Or.inl (hin (a + slab - 1) (by omega) (by omega)))
      have := (hB.region r hr).2.1
      omega
    have hsmall := hB.small_moved hm hB.parts.1
    obtain ⟨h2, hcarve, hpath, hcl, hmem, hrest⟩ := @carve_spec c (slabBlocks c a).reverse
      h1 [] (hc ▸ hsmall c)
      (fun b hb => ⟨(hlow.trans_le (hslab b (List.mem_reverse.mp hb)).1).ne', List.not_mem_nil⟩)
      (List.nodup_reverse.mpr (nodup_slabBlocks c a))
    rw [List.reverse_reverse, List.append_nil, has] at hpath
    have hfirst : h2.classes c = a := hpath.1
    refine ⟨a, as, h2, large', ?_, hlowest.exists_holds, ?_⟩
    · simp only [he, Option.bind_eq_bind, Option.bind_some, plus_eq hplus, hcarve, hfirst]
    -- what carving writes lies in the slab, which is in no other block
    have hsame : ∀ x, x ∉ (⟨a, slab⟩ : Span).bytes → h2.mem x = h1.mem x := fun x hx => by
      refine hmem x fun hc => hx ?_
      obtain ⟨h1, h2, -⟩ := hslab x (List.mem_reverse.mp hc)
      exact Span.mem_bytes.mpr ⟨h1, h2⟩
    have hd : Disjoint (⟨a, slab⟩ : Span).bytes (bytes large') :=
      (Multiset.nodup_add.mp (hbytes ▸ hB.free.nodup)).2.2
    have hd' : Disjoint (⟨a, slab⟩ : Span).bytes (∑ c, bytes (smallSpans c (small c))) := by
      have := hB.parts.1
      rw [hbytes, Multiset.disjoint_add_left] at this
      exact this.1
    have hupdate : Function.update small c (a :: as) =
        Function.update small c (slabBlocks c a ++ small c) := by
      rw [has, hc, List.append_nil]
    refine ⟨?_, hf', fun c' => ?_, fun c' b hb => ?_, hB.live_dvd, ?_, hB.nodup,
      fun r hr => ?_, ?_, ?_⟩
    · have hlarge : h2.large = h1.large := by rw [hrest]
      rw [hlarge]
      refine hl'.congr fun f hf => ?_
      have hnot : ∀ x ∈ f.bytes, x ∉ (⟨a, slab⟩ : Span).bytes := fun x hx hx' =>
        Multiset.disjoint_left.mp (disjoint_bytes hd.symm hf) hx hx'
      obtain ⟨hw1, hw2⟩ := (hf'.block f hf).words_mem
      exact ⟨hsame _ (hnot _ hw1), hsame _ (hnot _ hw2)⟩
    · rcases eq_or_ne c' c with rfl | hne
      · rw [Function.update_self]
        exact hpath
      · rw [Function.update_of_ne hne, hcl c' hne]
        refine (hsmall c').congr fun b hb => hsame b fun hx => ?_
        exact Multiset.disjoint_left.mp hd' hx (mem_bytes_small hb)
    · rcases eq_or_ne c' c with rfl | hne
      · rw [Function.update_self, ← has] at hb
        exact (hslab b hb).2.2
      · rw [Function.update_of_ne hne] at hb
        exact hB.small_dvd c' b hb
    · rw [hupdate, sum_push, bytes_slabBlocks, ← hB.cover, hbytes]
      simp only [add_assoc, add_left_comm]
    · have hstart : h2.start = h.start := by rw [hrest, ← hm.start_eq]
      have hstop : h2.stop = h.stop := by rw [hrest, ← hm.stop_eq]
      rw [hstart, hstop]
      exact hB.region r hr
    · rw [← hB.total_eq, ← hm.total_eq, hrest]
    · rw [← hB.used_eq, ← hm.used_eq, hrest]

/-- **The first free block of a class**: it stops dead, there is none and nothing changes, or
it is the first of the class's list. -/
theorem firstSmall (hB : Books h regions large small live) (c : Class) :
    (h.firstSmall c = none ∧ small c = [] ∧ PassesTop slab slab large) ∨
      (h.firstSmall c = some (none, h) ∧ small c = [] ∧ ∀ b ∈ large, ¬Holds b slab slab) ∨
      ∃ a h' large' small' , h.firstSmall c = some (some a, h') ∧ (∃ as, small' c = a :: as) ∧
        (small c ≠ [] ∨ ∃ b ∈ large, Holds b slab slab) ∧ Books h' regions large' small' live := by
  unfold Heap.firstSmall
  have hnil := (hB.small_at c).eq_nil_iff
  by_cases h0 : h.classes c = 0
  · rw [if_neg (not_not.mpr h0)]
    rcases hB.refill (hnil.mp h0) with ⟨hnone, htop⟩ | ⟨hno, hnot⟩ |
      ⟨a, as, h', large', he, hroom, hB'⟩
    · exact Or.inl ⟨hnone, hnil.mp h0, htop⟩
    · exact Or.inr (Or.inl ⟨hno, hnil.mp h0, hnot⟩)
    · refine Or.inr (Or.inr ⟨a, h', large', _, he, ⟨as, Function.update_self _ _ _⟩,
        Or.inr hroom, hB'⟩)
  · rw [if_pos h0]
    rcases hsc : small c with _ | ⟨a, as⟩
    · exact absurd (hnil.mpr hsc) h0
    · have hfirst : h.classes c = a := (hsc ▸ hB.small_at c).1
      refine Or.inr (Or.inr ⟨a, h, large, small, by rw [hfirst], ⟨as, hsc⟩, Or.inl ?_, hB⟩)
      exact List.cons_ne_nil a as

/-- **A small block is handed out**, or there is none and nothing changes. -/
theorem alloc_small (hB : Books h regions large small live) (hc : classOf l = some c) :
    (h.allocSmall c = none ∧ small c = [] ∧ PassesTop slab slab large) ∨
      (h.allocSmall c = some (none, h) ∧ small c = [] ∧ ∀ b ∈ large, ¬Holds b slab slab) ∨
      ∃ a h' large' small', h.allocSmall c = some (some a, h') ∧
        (small c ≠ [] ∨ ∃ b ∈ large, Holds b slab slab) ∧
          Books h' regions large' small' ((a, l) :: live) := by
  unfold allocSmall
  rcases hB.firstSmall c with
    ⟨hnone, hbig⟩ | ⟨hno, hnot⟩ | ⟨a, h1, large', small', he, ⟨as, has⟩, hroom, hB'⟩
  · exact Or.inl ⟨by rw [hnone]; rfl, hbig⟩
  · exact Or.inr (Or.inl ⟨by rw [hno]; rfl, hnot⟩)
  · have hpath := hB'.small_at c
    rw [has] at hpath
    have hpush : small' = Function.update (Function.update small' c as) c
        ([a] ++ Function.update small' c as c) := by
      rw [Function.update_self, Function.update_idem, List.singleton_append, ← has,
        Function.update_eq_self]
    have hsum : ∑ c', bytes (smallSpans c' (small' c')) = (⟨a, classSize c⟩ : Span).bytes +
        ∑ c', bytes (smallSpans c' (Function.update small' c as c')) := by
      have := sum_push (Function.update small' c as) c [a]
      rw [← hpush] at this
      simpa [smallSpans] using this
    have hused : h1.used + classSize c < 2 ^ 64 := by
      have h1 := congrArg Multiset.card hsum
      simp only [Multiset.card_add, Multiset.card_sum, Span.card_bytes, card_bytes,
        size_smallSpans] at h1
      have h2 := hB'.total
      have h3 := hB'.size_lt
      rw [← hB'.total_eq] at h3
      omega
    refine Or.inr (Or.inr ⟨a, { h1 with
      classes := Function.update h1.classes c (h1.mem a), used := h1.used + classSize c }, large',
      Function.update small' c as, ?_, hroom, ?_⟩)
    · simp only [he, Option.bind_eq_bind, Option.bind_some, plus_eq hused]
    · refine ⟨hB'.large_at, hB'.free, fun c' => ?_, fun c' b hb => ?_, ?_, ?_,
        hB'.nodup, hB'.region,
        hB'.total_eq, ?_⟩
      · rcases eq_or_ne c' c with rfl | hne
        · simp only [Function.update_self]
          exact hpath.2.2
        · simp only [Function.update_of_ne hne]
          exact hB'.small_at c'
      · rcases eq_or_ne c' c with rfl | hne
        · rw [Function.update_self] at hb
          exact hB'.small_dvd c' b (has ▸ List.mem_cons_of_mem a hb)
        · rw [Function.update_of_ne hne] at hb
          exact hB'.small_dvd c' b hb
      · refine List.forall_mem_cons.mpr ⟨?_, hB'.live_dvd⟩
        simp only [unit, hc]
        exact hB'.small_dvd c a (has ▸ List.mem_cons_self)
      · rw [← hB'.cover, hsum, List.map_cons, bytes_cons]
        simp only [blockOf, blockSize_of_class hc, add_assoc, add_left_comm]
      · change h1.used + classSize c = _
        rw [hB'.used_eq, List.map_cons, size_cons, Nat.add_comm]
        simp only [blockOf, blockSize_of_class hc]

end Books

end RelayOs.Heap
