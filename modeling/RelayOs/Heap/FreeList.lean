import RelayOs.Lib.Linked
import RelayOs.Lib.Spans
import RelayOs.Heap.Heap

/-!
# The free list of large blocks

The list the heap keeps in memory (`RelayOs.Heap.ListAt`) against the list of ranges it
stands for. `RelayOs.Heap.insertFree` is `RelayOs.Spans.insert`, and
`RelayOs.Heap.allocLarge` takes a range out of the list and leaves the rest of its block
in. Both write to free blocks only, so nothing else in memory changes.
-/

namespace RelayOs.Heap

open Linked Spans

variable {h h' : Heap} {mem mem' : ℕ → ℕ} {l l₁ l₂ : List Span} {s b p : Span} {a x y : ℕ}

/-! ### Arithmetic -/

theorem plus_eq (h : x + y < 2 ^ 64) : plus x y = some (x + y) := if_pos h

theorem plus_eq_some {z : ℕ} (h : plus x y = some z) : z = x + y ∧ x + y < 2 ^ 64 := by
  unfold plus at h
  split at h
  · exact ⟨(Option.some.inj h).symm, by assumption⟩
  · cases h

theorem nextMultipleOf_eq {m : ℕ} (h : nextMultiple x m < 2 ^ 64) :
    nextMultipleOf x m = some (nextMultiple x m) := by
  unfold nextMultiple at *
  unfold nextMultipleOf
  split
  · rfl
  · rw [if_neg (by assumption)] at h
    exact plus_eq h

theorem nextMultipleOf_eq_some {m z : ℕ} (h : nextMultipleOf x m = some z) :
    z = nextMultiple x m := by
  unfold nextMultipleOf at h
  unfold nextMultiple
  split at h
  · rw [if_pos (by assumption)]
    exact (Option.some.inj h).symm
  · rw [if_neg (by assumption)]
    exact (plus_eq_some h).1

theorem le_nextMultiple (x m : ℕ) : x ≤ nextMultiple x m := by
  unfold nextMultiple
  split <;> omega

theorem dvd_nextMultiple {m : ℕ} (hm : 0 < m) (x : ℕ) : m ∣ nextMultiple x m := by
  unfold nextMultiple
  split
  · exact Nat.dvd_of_mod_eq_zero (by assumption)
  · have hlt := Nat.mod_lt x hm
    have hx : x + (m - x % m) = m * (x / m + 1) := by
      have := Nat.div_add_mod x m
      rw [Nat.mul_add, Nat.mul_one]
      omega
    exact ⟨_, hx⟩

theorem nextMultiple_lt {m : ℕ} (hm : 0 < m) (x : ℕ) : nextMultiple x m < x + m := by
  unfold nextMultiple
  split
  · omega
  · have hlt := Nat.mod_lt x hm
    omega

theorem nextMultiple_le {m : ℕ} (hm : 0 < m) (ha : m ∣ a) (hxa : x ≤ a) : nextMultiple x m ≤ a := by
  by_contra hlt
  rw [not_le] at hlt
  have hgap : m ∣ nextMultiple x m - a := Nat.dvd_sub (dvd_nextMultiple hm x) ha
  have hle : m ≤ nextMultiple x m - a := Nat.le_of_dvd (Nat.sub_pos_of_lt hlt) hgap
  have hnear := nextMultiple_lt hm x
  omega

/-! ### Blocks -/

/-- **A range that can be a free block**: not at address 0, below the top of memory, and of
whole minimal blocks. -/
structure IsBlock (s : Span) : Prop where
  start_dvd : 16 ∣ s.start
  size_dvd : 16 ∣ s.size
  size_pos : 0 < s.size
  start_pos : 0 < s.start
  stop_lt : s.stop < 2 ^ 64

namespace IsBlock

theorem size_ge (hs : IsBlock s) : 16 ≤ s.size := Nat.le_of_dvd hs.size_pos hs.size_dvd

/-- The words of a block lie in it. -/
theorem words_mem (hs : IsBlock s) : s.start ∈ s.bytes ∧ s.start + 8 ∈ s.bytes := by
  have := hs.size_ge
  simp only [Span.mem_bytes, Span.stop]
  omega

end IsBlock

/-- **A free list as it should be.** -/
structure IsFree (l : List Span) : Prop where
  spaced : Spaced l
  block : ∀ b ∈ l, IsBlock b

theorem writeBlock_start (h : Heap) (x size next : ℕ) :
    (h.writeBlock x size next).mem x = size := by
  simp [writeBlock, write]

theorem writeBlock_next (h : Heap) (x size next : ℕ) :
    (h.writeBlock x size next).mem (x + 8) = next := by
  simp [writeBlock, write]

/-! ### The list in memory -/

/-- **The free list at `a`**: each block holds its size and the link to the next. -/
structure ListAt (mem : ℕ → ℕ) (a : ℕ) (l : List Span) : Prop where
  path : Path (fun n => mem (n + 8)) a (l.map Span.start) 0
  sizes : ∀ b ∈ l, mem b.start = b.size

/-- A list depends on the words of its blocks only. -/
theorem ListAt.congr (hl : ListAt mem a l)
    (hm : ∀ b ∈ l, mem' b.start = mem b.start ∧ mem' (b.start + 8) = mem (b.start + 8)) :
    ListAt mem' a l := by
  refine ⟨hl.path.congr fun n hn => ?_, fun b hb => (hm b hb).1.trans (hl.sizes b hb)⟩
  obtain ⟨b, hb, rfl⟩ := List.mem_map.mp hn
  exact (hm b hb).2

theorem ListAt.cons (hs : s.start ≠ 0) (hsize : mem s.start = s.size)
    (hl : ListAt mem (mem (s.start + 8)) l) : ListAt mem s.start (s :: l) :=
  ⟨⟨rfl, hs, hl.path⟩, List.forall_mem_cons.mpr ⟨hsize, hl.sizes⟩⟩

theorem ListAt.tail (hl : ListAt mem a (s :: l)) :
    a = s.start ∧ s.start ≠ 0 ∧ mem s.start = s.size ∧ ListAt mem (mem (s.start + 8)) l :=
  ⟨hl.path.1, hl.path.2.1, hl.sizes s List.mem_cons_self, hl.path.2.2,
    fun b hb => hl.sizes b (List.mem_cons_of_mem s hb)⟩

theorem listAt_append : ListAt mem a (l₁ ++ l₂) ↔
    ∃ n, Path (fun n => mem (n + 8)) a (l₁.map Span.start) n ∧ (∀ b ∈ l₁, mem b.start = b.size) ∧
      ListAt mem n l₂ := by
  constructor
  · rintro ⟨hp, hs⟩
    rw [List.map_append] at hp
    obtain ⟨n, h1, h2⟩ := path_append.mp hp
    obtain ⟨hs1, hs2⟩ := List.forall_mem_append.mp hs
    exact ⟨n, h1, hs1, h2, hs2⟩
  · rintro ⟨n, h1, hs1, h2, hs2⟩
    refine ⟨?_, List.forall_mem_append.mpr ⟨hs1, hs2⟩⟩
    rw [List.map_append]
    exact path_append.mpr ⟨n, h1, h2⟩

/-- **Only the free list and the bytes of the ranges listed changed.** -/
structure Moved (l : List Span) (h h' : Heap) : Prop where
  start_eq : h'.start = h.start
  stop_eq : h'.stop = h.stop
  total_eq : h'.total = h.total
  classes_eq : h'.classes = h.classes
  used_eq : h'.used = h.used
  mem_eq : ∀ x, x ∉ bytes l → h'.mem x = h.mem x

namespace Moved

theorem refl (l : List Span) (h : Heap) : Moved l h h := ⟨rfl, rfl, rfl, rfl, rfl, fun _ _ => rfl⟩

theorem trans {h'' : Heap} (h1 : Moved l₁ h h') (h2 : Moved l₂ h' h'')
    (hsub : ∀ x ∈ bytes l₂, x ∈ bytes l₁) : Moved l₁ h h'' where
  start_eq := h2.start_eq.trans h1.start_eq
  stop_eq := h2.stop_eq.trans h1.stop_eq
  total_eq := h2.total_eq.trans h1.total_eq
  classes_eq := h2.classes_eq.trans h1.classes_eq
  used_eq := h2.used_eq.trans h1.used_eq
  mem_eq := fun x hx => (h2.mem_eq x fun hc => hx (hsub x hc)).trans (h1.mem_eq x hx)

theorem mono (hm : Moved l₁ h h') (hsub : ∀ x ∈ bytes l₁, x ∈ bytes l₂) : Moved l₂ h h' :=
  (refl l₂ h).trans hm hsub

theorem writeBlock (hs : IsBlock s) (size next : ℕ) :
    Moved [s] h (h.writeBlock s.start size next) := by
  refine ⟨rfl, rfl, rfl, rfl, rfl, fun x hx => ?_⟩
  rw [bytes_cons, bytes_nil, add_zero] at hx
  have h1 : x ≠ s.start := fun he => hx (he ▸ hs.words_mem.1)
  have h2 : x ≠ s.start + 8 := fun he => hx (he ▸ hs.words_mem.2)
  simp [Heap.writeBlock, write, Function.update_of_ne h1, Function.update_of_ne h2]

theorem write_next (hs : IsBlock s) (next : ℕ) : Moved [s] h (h.write (s.start + 8) next) := by
  refine ⟨rfl, rfl, rfl, rfl, rfl, fun x hx => ?_⟩
  rw [bytes_cons, bytes_nil, add_zero] at hx
  have h2 : x ≠ s.start + 8 := fun he => hx (he ▸ hs.words_mem.2)
  simp [write, Function.update_of_ne h2]

/-- What lies elsewhere keeps its words. -/
theorem words (hm : Moved l h h') (hs : IsBlock s) (hd : ∀ b ∈ l, s.Apart b) :
    h'.mem s.start = h.mem s.start ∧ h'.mem (s.start + 8) = h.mem (s.start + 8) := by
  have hnot : ∀ x ∈ s.bytes, x ∉ bytes l := fun x hx hc => by
    obtain ⟨b, hb, hx'⟩ := mem_bytes.mp hc
    exact Multiset.disjoint_left.mp (hd b hb).disjoint hx (Span.mem_bytes.mpr hx')
  exact ⟨hm.mem_eq _ (hnot _ hs.words_mem.1), hm.mem_eq _ (hnot _ hs.words_mem.2)⟩

theorem listAt (hm : Moved l h h') (hl : ListAt h.mem a l₁) (hb : ∀ b ∈ l₁, IsBlock b)
    (hd : ∀ b ∈ l₁, ∀ c ∈ l, b.Apart c) : ListAt h'.mem a l₁ :=
  hl.congr fun b hb' => hm.words (hb b hb') (hd b hb')

end Moved

/-! ### Inserting a block -/

/-- **Where a block goes**: after the blocks that start before it. -/
theorem place_spec (addr : ℕ) (l : List Span) : ∀ {steps prev a : ℕ},
    Path (fun n => mem (n + 8)) a (l.map Span.start) 0 → l.length < steps →
    ∃ next, place mem addr steps prev a =
        some (((l.takeWhile fun b => b.start < addr).map Span.start).getLastD prev, next) ∧
      Path (fun n => mem (n + 8)) a ((l.takeWhile fun b => b.start < addr).map Span.start) next ∧
      Path (fun n => mem (n + 8))
        next ((l.dropWhile fun b => b.start < addr).map Span.start) 0 := by
  induction l with
  | nil =>
    intro steps prev a hp hlt
    obtain ⟨steps, rfl⟩ := Nat.exists_eq_succ_of_ne_zero (by omega : steps ≠ 0)
    have ha : a = 0 := hp
    exact ⟨0, by simp [place, ha], ha, rfl⟩
  | cons b l ih =>
    intro steps prev a hp hlt
    obtain ⟨steps, rfl⟩ := Nat.exists_eq_succ_of_ne_zero (by simp at hlt; omega : steps ≠ 0)
    obtain ⟨rfl, hne, hp'⟩ := hp
    by_cases hb : b.start < addr
    · obtain ⟨next, hplace, h1, h2⟩ := @ih _ b.start _ hp' (by simpa using hlt)
      refine ⟨next, ?_, ?_, ?_⟩
      · rw [place, if_pos ⟨hne, hb⟩, hplace, List.takeWhile_cons_of_pos (by simpa using hb),
          List.map_cons, List.getLastD_cons]
      · rw [List.takeWhile_cons_of_pos (by simpa using hb)]
        exact ⟨rfl, hne, h1⟩
      · rwa [List.dropWhile_cons_of_pos (by simpa using hb)]
    · refine ⟨b.start, ?_, ?_, ?_⟩
      · rw [place, if_neg fun hc => hb hc.2, List.takeWhile_cons_of_neg (by simpa using hb)]
        rfl
      · rw [List.takeWhile_cons_of_neg (by simpa using hb)]
        rfl
      · rw [List.dropWhile_cons_of_neg (by simpa using hb)]
        exact ⟨rfl, hne, hp'⟩

/-- A block before others is apart from them. -/
theorem apart_of_le (h : s.stop ≤ b.start) : s.Apart b := Or.inl h

theorem take_in (hs : IsBlock s) (hl : ∀ c ∈ l, IsBlock c)
    (hlist : ListAt h.mem b.start (b :: l)) (htouch : s.stop = b.start)
    (hle : ∀ c ∈ l, b.stop ≤ c.start) :
    ListAt (h.writeBlock s.start (s.size + b.size) (h.mem (b.start + 8))).mem s.start
      (s.join b :: l) := by
  obtain ⟨-, -, -, htail⟩ := hlist.tail
  have hpos := hs.start_pos
  refine .cons (s := s.join b) (by simpa [Span.join] using hpos.ne') (writeBlock_start _ _ _ _) ?_
  change ListAt _ ((h.writeBlock s.start _ _).mem (s.start + 8)) l
  rw [writeBlock_next]
  refine (Moved.writeBlock hs _ _).listAt htail hl fun c hc d hd => ?_
  rw [List.mem_singleton.mp hd]
  have : s.stop ≤ c.start := htouch ▸ (start_le_stop b).trans (hle c hc)
  exact (apart_of_le this).symm

theorem joinNext_spec (hs : IsBlock s) (hf : IsFree l) (hlist : ListAt h.mem s.start (s :: l))
    (hle : ∀ b ∈ l, s.stop ≤ b.start) :
    ∃ h', h.joinNext s.start s.size (h.mem (s.start + 8)) = some h' ∧
      ListAt h'.mem s.start (settle s l) ∧ h'.large = h.large ∧ Moved [s] h h' := by
  obtain ⟨-, hne, hsize, htail⟩ := hlist.tail
  unfold joinNext
  cases l with
  | nil =>
    have hnext : h.mem (s.start + 8) = 0 := htail.path
    rw [if_pos hnext]
    exact ⟨h, rfl, hlist, rfl, .refl _ _⟩
  | cons n ns =>
    obtain ⟨hnext, hn0, hnsize, -⟩ := htail.tail
    obtain ⟨hn, hns⟩ := List.forall_mem_cons.mp hf.block
    rw [hnext, if_neg hn0, plus_eq hs.stop_lt]
    change ∃ h', (if s.stop = n.start then _ else _) = some h' ∧ _
    by_cases htouch : s.stop = n.start
    · rw [if_pos htouch, hsize, hnsize,
        plus_eq ((Span.size_add_le htouch).trans_lt hn.stop_lt)]
      refine ⟨_, rfl, ?_, rfl, .writeBlock hs _ _⟩
      rw [settle, if_pos htouch]
      refine take_in hs hns (hnext ▸ htail) htouch fun c hc => ?_
      exact ((List.pairwise_cons.mp hf.spaced).1 c hc).le
    · rw [if_neg htouch, settle, if_neg htouch]
      exact ⟨h, rfl, hlist, rfl, .refl _ _⟩

theorem joinPrev_spec (hp : IsBlock p) (hsize : h.mem p.start = p.size) (hf : IsFree (b :: l))
    (hlist : ListAt h.mem b.start (b :: l)) (hle : ∀ c ∈ b :: l, p.stop ≤ c.start) :
    ∃ h', h.joinPrev b.start p.start = some h' ∧
      ListAt h'.mem p.start (settle p (b :: l)) ∧ h'.large = h.large ∧ Moved [p] h h' := by
  obtain ⟨hb, hl⟩ := List.forall_mem_cons.mp hf.block
  have hp0 : p.start ≠ 0 := hp.start_pos.ne'
  unfold joinPrev
  rw [if_neg hp0, hsize, plus_eq hp.stop_lt]
  change ∃ h', (if p.stop = b.start then _ else _) = some h' ∧ _
  by_cases htouch : p.stop = b.start
  · rw [if_pos htouch, hlist.tail.2.2.1, plus_eq ((Span.size_add_le htouch).trans_lt hb.stop_lt),
      settle, if_pos htouch]
    refine ⟨_, rfl, take_in hp hl hlist htouch fun c hc => ?_, rfl, .writeBlock hp _ _⟩
    exact ((List.pairwise_cons.mp hf.spaced).1 c hc).le
  · rw [if_neg htouch, settle, if_neg htouch]
    refine ⟨_, rfl, ?_, rfl, .write_next hp _⟩
    have hnext : (h.write (p.start + 8) b.start).mem (p.start + 8) = b.start := by simp [write]
    refine .cons hp0 ?_ ?_
    · rw [← hsize]
      simp [write]
    · rw [hnext]
      refine (Moved.write_next hp _).listAt hlist hf.block fun c hc d hd => ?_
      rw [List.mem_singleton.mp hd]
      exact (apart_of_le (hle c hc)).symm

theorem IsBlock.join (hs : IsBlock s) (hb : IsBlock b) (htouch : s.stop = b.start) :
    IsBlock (s.join b) where
  start_dvd := hs.start_dvd
  size_dvd := Nat.dvd_add hs.size_dvd hb.size_dvd
  size_pos := Nat.add_pos_left hs.size_pos _
  start_pos := hs.start_pos
  stop_lt := by
    rw [Span.stop_join htouch]
    exact hb.stop_lt

theorem IsFree.settle (hs : IsBlock s) (hf : IsFree l) (hle : ∀ b ∈ l, s.stop ≤ b.start) :
    IsFree (settle s l) :=
  ⟨spaced_settle hf.spaced hle,
    forall_settle (fun _ _ htouch h1 h2 => h1.join h2 htouch) hs hf.block⟩

theorem IsFree.insert (hs : IsBlock s) (hf : IsFree l) (hapart : ∀ b ∈ l, s.Apart b) :
    IsFree (Spans.insert s l) :=
  ⟨spaced_insert hapart hf.spaced fun b hb => (hf.block b hb).size_pos,
    forall_insert (fun _ _ htouch h1 h2 => h1.join h2 htouch) hs hf.block⟩

theorem IsFree.of_sublist (hf : IsFree l) (hsub : l₁.Sublist l) : IsFree l₁ :=
  ⟨hf.spaced.sublist hsub, fun b hb => hf.block b (hsub.subset hb)⟩

theorem settle_eq_cons (s : Span) (l : List Span) :
    ∃ b l', settle s l = b :: l' ∧ b.start = s.start := by
  rcases settle_cases s l with ⟨he, -⟩ | ⟨n, ns, -, -, he⟩
  · exact ⟨s, l, he, rfl⟩
  · exact ⟨s.join n, ns, he, rfl⟩

theorem add_length_le (hf : IsFree l) (ha : a ≤ 2 ^ 64) (hge : ∀ b ∈ l, a ≤ b.start) :
    a + l.length ≤ 2 ^ 64 := by
  induction l generalizing a with
  | nil => exact ha
  | cons b l ih =>
    obtain ⟨hb, -⟩ := List.forall_mem_cons.mp hf.block
    obtain ⟨hlt, -⟩ := List.pairwise_cons.mp hf.spaced
    have hab : a + 1 ≤ b.stop := Nat.add_le_add (hge b List.mem_cons_self) hb.size_pos
    have := ih (a := a + 1) (hf.of_sublist (List.sublist_cons_self b l))
      (hab.trans hb.stop_lt.le) fun c hc => hab.trans (hlt c hc).le
    rw [List.length_cons]
    omega

/-- **A walk along a free list has steps enough.** -/
theorem IsFree.length_lt (hf : IsFree l) : l.length < walkMax := by
  have := add_length_le (a := 1) hf (by decide) fun b hb => (hf.block b hb).start_pos
  unfold walkMax
  omega

/-- **The list in memory after `insertFree`** is the list of ranges after `insert`. -/
theorem insertFree_spec (hf : IsFree l) (hlist : ListAt h.mem h.large l) (hs : IsBlock s)
    (hapart : ∀ b ∈ l, s.Apart b) :
    ∃ h', h.insertFree s.start s.size = some h' ∧ ListAt h'.mem h'.large (Spans.insert s l) ∧
      Moved (s :: l) h h' := by
  have hpos : ∀ b ∈ l, 0 < b.size := fun b hb => (hf.block b hb).size_pos
  have hbefore := stop_le_of_mem_takeWhile hapart
  have hafter := stop_le_of_mem_dropWhile hapart hf.spaced hpos
  have hsub1 : (l.takeWhile fun b => b.start < s.start).Sublist l := List.takeWhile_sublist _
  have hsub2 : (l.dropWhile fun b => b.start < s.start).Sublist l := List.dropWhile_sublist _
  obtain ⟨next, hplace, hpath1, hpath2⟩ := @place_spec _ s.start l _ 0 _ hlist.path hf.length_lt
  unfold insertFree Spans.insert
  rw [hplace]
  generalize l.takeWhile (fun b => b.start < s.start) = before at *
  generalize l.dropWhile (fun b => b.start < s.start) = after at *
  -- the new block stands in front of the blocks after it
  have hm1 : Moved [s] h (h.writeBlock s.start s.size next) := .writeBlock hs _ _
  have hl1 : ListAt (h.writeBlock s.start s.size next).mem s.start (s :: after) := by
    refine .cons hs.start_pos.ne' (writeBlock_start _ _ _ _) ?_
    rw [writeBlock_next]
    refine hm1.listAt ⟨hpath2, fun b hb => hlist.sizes b (hsub2.subset hb)⟩
      (fun b hb => hf.block b (hsub2.subset hb)) fun b hb c hc => ?_
    rw [List.mem_singleton.mp hc]
    exact (hapart b (hsub2.subset hb)).symm
  obtain ⟨h2, hjoin, hl2, hlarge2, hm2⟩ := joinNext_spec hs (hf.of_sublist hsub2) hl1 hafter
  rw [writeBlock_next] at hjoin
  have hm12 : Moved (s :: l) h h2 := (hm1.trans hm2 fun _ => id).mono fun x hx => by
    rw [bytes_cons, bytes_nil, add_zero] at hx
    exact Multiset.mem_add.mpr (Or.inl hx)
  simp only [Option.bind_eq_bind, Option.bind_some, if_neg hs.start_pos.ne', hjoin]
  rcases List.eq_nil_or_concat before with rfl | ⟨bs, p, rfl⟩
  · refine ⟨{ h2 with large := s.start }, if_pos rfl, hl2, ?_⟩
    exact ⟨hm12.start_eq, hm12.stop_eq, hm12.total_eq, hm12.classes_eq, hm12.used_eq, hm12.mem_eq⟩
  · rw [List.concat_eq_append] at *
    have hpl : p ∈ l := hsub1.subset (by simp)
    have hbs : ∀ b ∈ bs, b ∈ l := fun b hb => hsub1.subset (by simp [hb])
    have hp : IsBlock p := hf.block p hpl
    -- the blocks before it, up to the last one, which may take it in
    rw [List.map_append] at hpath1
    obtain ⟨n, hpath_bs, hpath_p⟩ := path_append.mp hpath1
    obtain ⟨rfl, -, -⟩ : n = p.start ∧ _ := hpath_p
    obtain ⟨b, l', hset, hbstart⟩ := settle_eq_cons s after
    have hfs : IsFree (b :: l') := hset ▸ (hf.of_sublist hsub2).settle hs hafter
    have hge : ∀ c ∈ b :: l', s.start ≤ c.start := hset ▸ start_le_settle fun c hc =>
      (start_le_stop s).trans (hafter c hc)
    have hword : ∀ c ∈ l, h2.mem c.start = h.mem c.start ∧
        h2.mem (c.start + 8) = h.mem (c.start + 8) :=
      fun c hc => (hm1.trans hm2 fun _ => id).words (hf.block c hc) fun d hd => by
        rw [List.mem_singleton.mp hd]
        exact (hapart c hc).symm
    obtain ⟨h3, hprev, hl3, hlarge3, hm3⟩ := joinPrev_spec hp
      ((hword p hpl).1.trans (hlist.sizes p hpl)) hfs (hbstart ▸ hset ▸ hl2)
      fun c hc => (hbefore p (by simp)).trans (hge c hc)
    have hgap : ∀ c ∈ bs, c.Apart p := fun c hc => by
      have := (List.pairwise_append.mp (hf.of_sublist hsub1).spaced).2.2 c hc p (by simp)
      exact apart_of_le this.le
    have hword3 : ∀ c ∈ bs, h3.mem c.start = h.mem c.start ∧
        h3.mem (c.start + 8) = h.mem (c.start + 8) :=
      fun c hc => by
        have := hm3.words (hf.block c (hbs c hc)) fun d hd => by
          rw [List.mem_singleton.mp hd]
          exact hgap c hc
        exact ⟨this.1.trans (hword c (hbs c hc)).1, this.2.trans (hword c (hbs c hc)).2⟩
    refine ⟨h3, ?_, ?_, ?_⟩
    · rw [← hprev, hbstart, List.map_append, List.map_singleton, List.getLastD_concat]
    · rw [joinLast_append, hlarge3, hlarge2, hset]
      refine listAt_append.mpr ⟨p.start, hpath_bs.congr fun n hn => ?_, fun c hc => ?_, hl3⟩
      · obtain ⟨c, hc, rfl⟩ := List.mem_map.mp hn
        exact (hword3 c hc).2
      · exact (hword3 c hc).1.trans (hlist.sizes c (hbs c hc))
    · refine hm12.trans hm3 fun x hx => ?_
      rw [bytes_cons, bytes_nil, add_zero] at hx
      exact Multiset.mem_add.mpr (Or.inr (mem_bytes.mpr ⟨p, hpl, Span.mem_bytes.mp hx⟩))

/-! ### Taking a block -/

/-- **The block holds `size` bytes at a multiple of `align`**: from the first one in it on. -/
def Holds (b : Span) (size align : ℕ) : Prop := nextMultiple b.start align + size ≤ b.stop

instance (b : Span) (size align : ℕ) : Decidable (Holds b size align) :=
  inferInstanceAs (Decidable (_ ≤ _))

theorem holds_iff {size align : ℕ} (hpos : 0 < align) :
    Holds b size align ↔ ∃ a, align ∣ a ∧ b.start ≤ a ∧ a + size ≤ b.stop := by
  constructor
  · intro hb
    exact ⟨_, dvd_nextMultiple hpos _, le_nextMultiple _ _, hb⟩
  · rintro ⟨a, hdvd, hstart, hstop⟩
    have hle := nextMultiple_le hpos hdvd hstart
    exact (Nat.add_le_add_right hle size).trans hstop

/-- The lowest block that holds `size` bytes at a multiple of `align` has them at `a`. -/
def LowestAt (l : List Span) (size align a : ℕ) : Prop :=
  ∃ l₁ b l₂, l = l₁ ++ b :: l₂ ∧ (∀ c ∈ l₁, ¬Holds c size align) ∧ Holds b size align ∧
    a = nextMultiple b.start align

namespace LowestAt

variable {size align : ℕ}

theorem dvd (hl : LowestAt l size align a) (hpos : 0 < align) : align ∣ a := by
  obtain ⟨-, -, -, -, -, -, rfl⟩ := hl
  exact dvd_nextMultiple hpos _

theorem exists_holds (hl : LowestAt l size align a) : ∃ b ∈ l, Holds b size align := by
  obtain ⟨l₁, b, l₂, rfl, -, hb, -⟩ := hl
  exact ⟨b, by simp, hb⟩

end LowestAt

/-- **The walk passes the top of memory**: at a block, before which none holds `size` bytes at a
multiple of `align`, they would end where there is no address any more. -/
def PassesTop (size align : ℕ) : List Span → Prop
  | [] => False
  | b :: l => 2 ^ 64 ≤ nextMultiple b.start align + size ∨
      (¬Holds b size align ∧ PassesTop size align l)

theorem PassesTop.exists_mem {size align : ℕ} (h : PassesTop size align l) :
    ∃ b ∈ l, 2 ^ 64 ≤ nextMultiple b.start align + size := by
  induction l with
  | nil => exact h.elim
  | cons b l ih =>
    rcases h with hbig | ⟨-, hrest⟩
    · exact ⟨b, List.mem_cons_self, hbig⟩
    · obtain ⟨c, hc, hbig⟩ := ih hrest
      exact ⟨c, List.mem_cons_of_mem b hc, hbig⟩

/-- One turn of the walk, at a block of the list. -/
theorem firstFit_cons {size align steps prev : ℕ} (hl : ListAt mem a (b :: l)) (hb : IsBlock b) :
    firstFit mem size align (steps + 1) prev a =
      if 2 ^ 64 ≤ nextMultiple b.start align + size then none
      else if Holds b size align then
        some (some ⟨prev, b.start, b.size, mem (b.start + 8), nextMultiple b.start align⟩)
      else firstFit mem size align steps b.start (mem (b.start + 8)) := by
  obtain ⟨rfl, hne, hsize, -⟩ := hl.tail
  have hlimit : plus b.start b.size = some b.stop := plus_eq hb.stop_lt
  rw [firstFit, if_neg hne]
  split
  · next hover =>
    rcases hm : nextMultipleOf b.start align with _ | z
    · rfl
    · rw [nextMultipleOf_eq_some hm, Option.bind_eq_bind, Option.bind_some, plus,
        if_neg (not_lt.mpr hover)]
      rfl
  · next hover =>
    have hlt := not_le.mp hover
    simp only [nextMultipleOf_eq ((Nat.le_add_right _ _).trans_lt hlt), hsize, hlimit, plus_eq hlt,
      Option.bind_eq_bind, Option.bind_some]
    rfl

theorem firstFit_eq_none {size align : ℕ} : ∀ {steps prev a : ℕ}, ListAt mem a l →
    (∀ b ∈ l, IsBlock b) → l.length < steps → PassesTop size align l →
    firstFit mem size align steps prev a = none := by
  induction l with
  | nil => exact fun _ _ _ h => h.elim
  | cons b l ih =>
    intro steps prev a hl hblock hlt htop
    obtain ⟨steps, rfl⟩ := Nat.exists_eq_succ_of_ne_zero (by simp at hlt; omega : steps ≠ 0)
    obtain ⟨hb, hrest⟩ := List.forall_mem_cons.mp hblock
    rw [firstFit_cons hl hb]
    split
    · rfl
    · next hover =>
      obtain ⟨hnot, htop⟩ := htop.resolve_left hover
      rw [if_neg hnot]
      exact ih hl.tail.2.2.2 hrest (by simpa using hlt) htop

/-- **First fit**: the walk stops dead where an address overflows, finds no block, or finds
the lowest one that holds `size` bytes at a multiple of `align`. -/
theorem firstFit_spec (size align : ℕ) (l : List Span) : ∀ {steps prev a : ℕ},
    ListAt mem a l → (∀ b ∈ l, IsBlock b) → l.length < steps →
    (firstFit mem size align steps prev a = none ∧ PassesTop size align l) ∨
      (firstFit mem size align steps prev a = some none ∧ ∀ b ∈ l, ¬Holds b size align) ∨
      ∃ l₁ b l₂, l = l₁ ++ b :: l₂ ∧ (∀ c ∈ l₁, ¬Holds c size align) ∧ Holds b size align ∧
        firstFit mem size align steps prev a = some (some ⟨(l₁.map Span.start).getLastD prev,
          b.start, b.size, mem (b.start + 8), nextMultiple b.start align⟩) := by
  induction l with
  | nil =>
    intro steps prev a hl _ hlt
    obtain ⟨steps, rfl⟩ := Nat.exists_eq_succ_of_ne_zero (by omega : steps ≠ 0)
    have ha : a = 0 := hl.path
    exact Or.inr (Or.inl ⟨by simp [firstFit, ha], nofun⟩)
  | cons b l ih =>
    intro steps prev a hl hblock hlt
    obtain ⟨steps, rfl⟩ := Nat.exists_eq_succ_of_ne_zero (by simp at hlt; omega : steps ≠ 0)
    obtain ⟨hb, hrest⟩ := List.forall_mem_cons.mp hblock
    rw [firstFit_cons hl hb]
    split
    · next hover => exact Or.inl ⟨rfl, Or.inl hover⟩
    · split
      · next hfit => exact Or.inr (Or.inr ⟨[], b, l, rfl, nofun, hfit, rfl⟩)
      · next hfit =>
        rcases @ih _ b.start _ hl.tail.2.2.2 hrest (by simpa using hlt) with
          ⟨hnone, htop⟩ | ⟨hno, hrest⟩ | ⟨l₁, c, l₂, rfl, hbefore, hfits, he⟩
        · exact Or.inl ⟨hnone, Or.inr ⟨hfit, htop⟩⟩
        · exact Or.inr (Or.inl ⟨hno, List.forall_mem_cons.mpr ⟨hfit, hrest⟩⟩)
        · refine Or.inr (Or.inr ⟨b :: l₁, c, l₂, rfl, ?_, hfits, ?_⟩)
          · exact List.forall_mem_cons.mpr ⟨hfit, hbefore⟩
          · rw [he, List.map_cons, List.getLastD_cons]

theorem unlink_spec (hf : IsFree (l₁ ++ b :: l₂)) (hlist : ListAt h.mem h.large (l₁ ++ b :: l₂)) :
    ListAt (h.unlink ((l₁.map Span.start).getLastD 0) (h.mem (b.start + 8))).mem
        (h.unlink ((l₁.map Span.start).getLastD 0) (h.mem (b.start + 8))).large (l₁ ++ l₂) ∧
      Moved (l₁ ++ b :: l₂) h (h.unlink ((l₁.map Span.start).getLastD 0)
        (h.mem (b.start + 8))) := by
  obtain ⟨n, hpath, hsizes, hrest⟩ := listAt_append.mp hlist
  obtain ⟨rfl, -, -, htail⟩ := hrest.tail
  rcases List.eq_nil_or_concat l₁ with rfl | ⟨bs, p, rfl⟩
  · exact ⟨htail, rfl, rfl, rfl, rfl, rfl, fun _ _ => rfl⟩
  · rw [List.concat_eq_append] at *
    have hlast : ((bs ++ [p]).map Span.start).getLastD 0 = p.start := by
      rw [List.map_append, List.map_singleton, List.getLastD_concat]
    obtain ⟨hblocks, hblocks2⟩ := List.forall_mem_append.mp hf.block
    have hp : IsBlock p := hblocks p (by simp)
    have hpair := List.pairwise_append.mp hf.spaced
    have hm : Moved [p] h (h.write (p.start + 8) (h.mem (b.start + 8))) := .write_next hp _
    rw [hlast, unlink, if_neg hp.start_pos.ne']
    -- the block before points to what follows the block
    have htail' : ListAt (h.write (p.start + 8) (h.mem (b.start + 8))).mem p.start (p :: l₂) := by
      have hnext : (h.write (p.start + 8) (h.mem (b.start + 8))).mem (p.start + 8) =
          h.mem (b.start + 8) := by simp [write]
      refine .cons hp.start_pos.ne' ?_ ?_
      · rw [← hsizes p (by simp)]
        simp [write]
      · rw [hnext]
        refine hm.listAt htail (fun c hc => hblocks2 c (List.mem_cons_of_mem b hc))
          fun c hc d hd => ?_
        rw [List.mem_singleton.mp hd]
        exact (apart_of_le (hpair.2.2 p (by simp) c (List.mem_cons_of_mem b hc)).le).symm
    have hword : ∀ c ∈ bs, (h.write (p.start + 8) (h.mem (b.start + 8))).mem c.start =
        h.mem c.start ∧
        (h.write (p.start + 8) (h.mem (b.start + 8))).mem (c.start + 8) = h.mem (c.start + 8) := by
      intro c hc
      refine hm.words (hblocks c (by simp [hc])) fun d hd => ?_
      rw [List.mem_singleton.mp hd]
      exact apart_of_le ((List.pairwise_append.mp hpair.1).2.2 c hc p (by simp)).le
    constructor
    · rw [List.append_assoc, List.singleton_append]
      rw [List.map_append] at hpath
      obtain ⟨n, hpath_bs, hpath_p⟩ := path_append.mp hpath
      obtain ⟨rfl, -, -⟩ : n = p.start ∧ _ := hpath_p
      refine listAt_append.mpr ⟨p.start, hpath_bs.congr fun n hn => ?_, fun c hc => ?_, htail'⟩
      · obtain ⟨c, hc, rfl⟩ := List.mem_map.mp hn
        exact (hword c hc).2
      · exact (hword c hc).1.trans (hsizes c (by simp [hc]))
    · refine hm.mono fun x hx => ?_
      rw [bytes_cons, bytes_nil, add_zero] at hx
      exact mem_bytes.mpr ⟨p, by simp, Span.mem_bytes.mp hx⟩

/-- **Giving a range back**, if there is anything to give. -/
theorem giveBack_spec (hf : IsFree l) (hlist : ListAt h.mem h.large l)
    (hs : 0 < s.size → IsBlock s) (hd : Disjoint s.bytes (bytes l)) :
    ∃ h' l', h.giveBack s.start s.size = some h' ∧ ListAt h'.mem h'.large l' ∧ IsFree l' ∧
      bytes l' = s.bytes + bytes l ∧ Moved (s :: l) h h' := by
  unfold giveBack
  by_cases hpos : 0 < s.size
  · have hapart : ∀ b ∈ l, s.Apart b := fun b hb =>
      Span.apart_of_disjoint hpos (hf.block b hb).size_pos (disjoint_bytes hd.symm hb).symm
    obtain ⟨h', he, hl', hm⟩ := insertFree_spec hf hlist (hs hpos) hapart
    rw [if_pos hpos]
    exact ⟨h', Spans.insert s l, he, hl', .insert (hs hpos) hf hapart, bytes_insert s l, hm⟩
  · have hzero : s.bytes = 0 := Multiset.card_eq_zero.mp (by rw [Span.card_bytes]; omega)
    rw [if_neg hpos]
    exact ⟨h, l, rfl, hlist, hf, by rw [hzero, zero_add], .refl _ _⟩

theorem IsFree.nodup (hf : IsFree l) : (bytes l).Nodup := nodup_bytes_of_spaced hf.spaced

/-- **The rest of a block goes back**: what is left of `b` before and after the bytes taken. -/
theorem giveBack_rest {addr size : ℕ} (hf : IsFree l) (hlist : ListAt h.mem h.large l)
    (hb : IsBlock b)
    (hd : Disjoint b.bytes (bytes l)) (haddr : 16 ∣ addr) (hsize : 16 ∣ size) (hle : b.start ≤ addr)
    (hfit : addr + size ≤ b.stop) :
    ∃ h1 h' l', h.giveBack b.start (addr - b.start) = some h1 ∧
      h1.giveBack (addr + size) (b.stop - (addr + size)) = some h' ∧
      ListAt h'.mem h'.large l' ∧ IsFree l' ∧
      b.bytes + bytes l = (⟨addr, size⟩ : Span).bytes + bytes l' ∧ Moved (b :: l) h h' := by
  have hcut := Span.bytes_cut hle hfit
  have hnodup : b.bytes.Nodup := Multiset.nodup_Ico
  have hstart := hb.start_pos
  have hstop := hb.stop_lt
  have h16 := hb.start_dvd
  have h16' : 16 ∣ b.stop := Nat.dvd_add hb.start_dvd hb.size_dvd
  have hhead : 0 < addr - b.start → IsBlock ⟨b.start, addr - b.start⟩ := fun hlt =>
    ⟨h16, by simp only; omega, hlt, hb.start_pos, by unfold Span.stop; simp only; omega⟩
  have htail : 0 < b.stop - (addr + size) →
      IsBlock ⟨addr + size, b.stop - (addr + size)⟩ := fun hlt =>
    ⟨by simp only; omega, by simp only; omega, hlt, by simp only; omega,
      by unfold Span.stop at *; simp only; omega⟩
  rw [hcut] at hnodup hd
  simp only [Multiset.nodup_add, Multiset.disjoint_add_left] at hnodup hd
  obtain ⟨h1, l₁, he1, hlist1, hf1, hbytes1, hm1⟩ := giveBack_spec hf hlist hhead hd.1.1
  obtain ⟨h2, l₂, he2, hlist2, hf2, hbytes2, hm2⟩ := giveBack_spec hf1 hlist1 htail (by
    rw [hbytes1, Multiset.disjoint_add_right]
    exact ⟨hnodup.2.2.1.symm, hd.2⟩)
  refine ⟨h1, h2, l₂, he1, he2, hlist2, hf2, ?_, ?_⟩
  · rw [hcut, hbytes2, hbytes1]
    simp only [add_assoc, add_left_comm]
  · refine (hm1.mono fun x hx => ?_).trans hm2 fun x hx => ?_
    · rw [bytes_cons, Multiset.mem_add] at hx
      rw [bytes_cons, hcut]
      simp only [Multiset.mem_add]
      tauto
    · rw [bytes_cons, hbytes1] at hx
      rw [bytes_cons, hcut]
      simp only [Multiset.mem_add] at hx ⊢
      tauto

theorem allocLarge_eq_none {size align : ℕ} (hf : IsFree l) (hlist : ListAt h.mem h.large l)
    (htop : PassesTop size align l) : h.allocLarge size align = none := by
  rw [allocLarge, firstFit_eq_none hlist hf.block hf.length_lt htop]
  rfl

/-- **Taking `size` bytes from the free list**: it stops dead where an address overflows, no
block holds them and nothing changes, or they come out of the lowest block that does and all
others stay in the list. -/
theorem allocLarge_spec {size align : ℕ} (hf : IsFree l) (hlist : ListAt h.mem h.large l)
    (hsize : 16 ∣ size) (halign : 16 ∣ align) (hpos : 0 < align) :
    (h.allocLarge size align = none ∧ PassesTop size align l) ∨
      (h.allocLarge size align = some (none, h) ∧ ∀ b ∈ l, ¬Holds b size align) ∨
      ∃ addr h' l', h.allocLarge size align = some (some addr, h') ∧ LowestAt l size align addr ∧
        ListAt h'.mem h'.large l' ∧ IsFree l' ∧
        bytes l = (⟨addr, size⟩ : Span).bytes + bytes l' ∧ Moved l h h' := by
  unfold allocLarge
  rcases @firstFit_spec _ size align l _ 0 _ hlist hf.block hf.length_lt with
    ⟨hnone, hbig⟩ | ⟨hno, hnot⟩ | ⟨l₁, b, l₂, rfl, hbefore, hfit, he⟩
  · exact Or.inl ⟨by rw [hnone]; rfl, hbig⟩
  · exact Or.inr (Or.inl ⟨by rw [hno]; rfl, hnot⟩)
  · refine Or.inr (Or.inr ?_)
    have hdvd : align ∣ nextMultiple b.start align := dvd_nextMultiple hpos _
    obtain ⟨hlist1, hm1⟩ := unlink_spec hf hlist
    have hf1 : IsFree (l₁ ++ l₂) := hf.of_sublist ((List.sublist_cons_self b l₂).append_left l₁)
    have hbytes : bytes (l₁ ++ b :: l₂) = b.bytes + bytes (l₁ ++ l₂) := by
      rw [bytes_append, bytes_cons, bytes_append]
      exact add_left_comm _ _ _
    have hd : Disjoint b.bytes (bytes (l₁ ++ l₂)) :=
      (Multiset.nodup_add.mp (hbytes ▸ hf.nodup)).2.2
    obtain ⟨h2, h', l', he2, he', hlist', hf', hbytes', hm'⟩ := giveBack_rest hf1 hlist1
      (hf.block b (by simp)) hd (halign.trans hdvd) hsize (le_nextMultiple _ _) hfit
    refine ⟨nextMultiple b.start align, h', l', ?_,
      ⟨l₁, b, l₂, rfl, hbefore, hfit, rfl⟩, hlist', hf',
      hbytes.trans hbytes', hm1.trans hm' fun x hx => ?_⟩
    · simp only [he, Option.bind_eq_bind, Option.bind_some, he2]
      unfold Span.stop at he'
      rw [he', Option.bind_some]
    · rwa [hbytes]

end RelayOs.Heap
