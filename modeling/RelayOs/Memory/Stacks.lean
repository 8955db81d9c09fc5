import RelayOs.Memory.Pages

/-!
# Kernel stacks

The stacks the kernel runs on while it serves a program: 64 slots in an area that has entry
509 of the kernel's PML4 to itself, each with sixteen pages above an unmapped guard page.
-/

namespace RelayOs.Mm

open Prog Vfs

/-! ### The code -/

namespace KernelStack

/-- The area's first address: PML4 entry 509. -/
def area : ℕ := 0xFFFFFE8000000000

/-- Slots, one for each entry of the process table. -/
def slots : ℕ := 64

/-- Bytes of stack in each slot. -/
def size : ℕ := 64 * 1024

/-- Each slot: the guard page, then the stack; the rest stays unmapped. -/
def slotSize : ℕ := 128 * 1024

/-- The lowest address of the stack in a slot; the page below is the guard. -/
def bottom (slot : ℕ) : ℕ := area + slot * slotSize + page

/-- The address of page `i` of the stack. -/
def pageAt (slot i : ℕ) : ℕ := bottom slot + i * page

/-- The pages of a stack. -/
def pages : ℕ := size / page

end KernelStack

open KernelStack

/-- Why there is no kernel stack. -/
inductive StackError
  | noSlot
  | noMemory
  deriving DecidableEq, Repr

/-- The error a program is told. -/
def StackError.errno : StackError → Errno
  | noSlot => .EAGAIN
  | noMemory => .ENOMEM

/-- Which slots are in use. -/
structure KernelStacks where
  used : BitVec 64
  deriving DecidableEq, Repr

/-- A page that could not be mapped is given back; whether it was mapped. -/
def keepPage (frame : ℕ) : Except MapError Unit → Prog physMem Bool
  | .ok () => return true
  | .error _ => do
    freeFrame frame
    return false

/-- Maps a fresh page at `virt`, if there is memory for it. -/
def mapStackPage (pml4 virt : ℕ) : Prog physMem Bool :=
  allocTable.bind fun
    | none => .ret false
    | some frame => (map pml4 virt frame page .writeBack).run.bind (keepPage frame)

/-- Unmaps and frees the first `n` pages of the stack. -/
def release (pml4 slot n : ℕ) : Prog physMem Unit :=
  Prog.upTo (fun i => AddressSpace.unmapPage pml4 (pageAt slot i)) n

/-- The rounds of `alloc`: `left` more pages, after `n`. -/
def mapStack (pml4 slot : ℕ) : ℕ → ℕ → Prog physMem Bool
  | 0, _ => return true
  | left + 1, n => do
    if ← mapStackPage pml4 (pageAt slot n) then mapStack pml4 slot left (n + 1)
    else do
      release pml4 slot n
      return false

namespace KernelStacks

/-- The first slot that is free. -/
def firstFree (k : KernelStacks) : Option ℕ := (List.range slots).find? fun i => !k.used.getLsbD i

/-- Marks a slot as used. -/
def take (k : KernelStacks) (slot : ℕ) : KernelStacks := ⟨k.used ||| (1#64 <<< slot)⟩

/-- Marks a slot as free. -/
def giveBack (k : KernelStacks) (slot : ℕ) : KernelStacks := ⟨k.used &&& ~~~(1#64 <<< slot)⟩

/-- **Maps a stack in a free slot.** -/
def alloc (k : KernelStacks) (pml4 : ℕ) : Prog physMem (Except StackError ℕ × KernelStacks) :=
  match k.firstFree with
  | none => return (.error .noSlot, k)
  | some slot => do
    if ← mapStack pml4 slot pages 0 then return (.ok slot, k.take slot)
    else return (.error .noMemory, k)

/-- **Gives back the stack's frames and its slot.** -/
def free (k : KernelStacks) (pml4 slot : ℕ) : Prog physMem KernelStacks := do
  release pml4 slot pages
  return k.giveBack slot

end KernelStacks

/-! ### Mapping a page of the kernel's -/

section Map

variable {P : Part} {D : Set ℕ} {root : ℕ} {t : Tree} {s : Mem} {virt phys : ℕ}

/-- What becomes of the tree when the page at `virt` is mapped. -/
def PageMapped (P : Part) (D : Set ℕ) (root : ℕ) (t : Tree) (virt phys : ℕ)
    (r : Except MapError Unit) (s' : Mem) :
    Prop :=
  ∃ t', Holds P D root t' s' ∧ t.tables ⊆ t'.tables ∧
    match r with
    | .ok () => t.node 0 (pos virt 0) = none ∧
        t'.node 0 = Function.update (t.node 0) (pos virt 0) (some (phys, .readWrite))
    | .error _ => t'.node 0 = t.node 0

theorem kernelFlags_eq (hP : P.forUser = false) :
    kernelFlags .writeBack = P.flags 0 .readWrite := by
  unfold Part.flags Part.userBit
  rw [hP]
  decide

section

variable (hs : Holds P D root t s) (hv : P.Has virt) (hP : P.forUser = false) (hf : IsFrame phys)

include hs hv hP hf

theorem wp_setLeaf {pt : ℕ} {b : Perm} (hpt : t.node 1 (pos virt 1) = some (pt, b))
    (hne : ∀ a, t.node 0 (pos virt 0) ≠ some (phys, a)) :
    wp (spec D) (setLeaf pt virt phys .writeBack).run (PageMapped P D root t virt phys) s := by
  have hreads := hs.reads_at hv (by norm_num) hpt
  unfold setLeaf
  simp only [wp_except_bind, wp_lift, wp_word]
  refine ⟨⟨hs.usable (Holds.mem_tables hpt), index_lt virt 0⟩, ?_⟩
  cases hnode : t.node 0 (pos virt 0) with
  | none =>
    rw [hnode] at hreads
    rw [if_pos hreads.present_eq, kernelFlags_eq hP]
    have hset := hs.setPage (x := some (phys, .readWrite)) hpt (index_lt virt 0) (Reads.of_or hf)
        (Reads.or_lt hf)
    rw [pos_eq (by norm_num)] at hset
    have hlt : phys ||| P.flags 0 .readWrite < 2 ^ 64 := Reads.or_lt hf
    refine wp_lift _ |>.2 (wp_setWord.2 ⟨⟨hs.usable (Holds.mem_tables hpt), index_lt virt 0, hlt⟩,
      _, hset, ?_, hnode, ?_⟩)
    · rw [t.tables_set_zero]
    · rw [t.node_zero_set_zero]
  | some x =>
    obtain ⟨f, perm⟩ := x
    rw [hnode] at hreads
    rw [if_neg hreads.present_ne]
    split
    · next hsame =>
      have haddr := and_of_same hsame (m := addrMask) (by decide)
      have hwant : Reads P 0 (phys ||| P.flags 0 .readWrite) (some (phys, .readWrite)) :=
        Reads.of_or hf
      rw [kernelFlags_eq hP, hwant.1, hreads.1] at haddr
      exact absurd hnode (haddr ▸ hne perm)
    · exact ⟨t, hs, Set.Subset.rfl, rfl⟩

theorem wp_map4k
    (hne : ∀ a, t.node 0 (pos virt 0) ≠ some (phys, a)) :
    wp (spec D) (map4k root virt phys .writeBack).run (PageMapped P D root t virt phys) s := by
  unfold map4k
  refine Found.bind (wp_pdSlot hs hv) (fun t' s' hs' hp _ => ⟨t', hs', hp.tables, hp.pages⟩)
    fun t1 s1 pd a hs1 hp1 hpd => ?_
  have hreads := hs1.reads_at hv (by norm_num) hpd
  simp only [wp_except_bind, wp_lift, wp_word]
  refine ⟨⟨hs1.usable (Holds.mem_tables hpd), index_lt virt 1⟩, ?_⟩
  have hsmall : ¬(s1.word pd (index virt 1) &&& present ≠ 0 ∧
      s1.word pd (index virt 1) &&& hugePage ≠ 0) := by
    rintro ⟨hpresent, hhuge⟩
    cases hnode : t1.node 1 (pos virt 1) with
    | none =>
      rw [hnode] at hreads
      exact hpresent hreads.present_eq
    | some x =>
      rw [hnode] at hreads
      exact hhuge hreads.huge_eq
  rw [if_neg hsmall]
  refine Found.bind (wp_child hs1 hv (by norm_num) hpd)
    (fun t' s' hs' hp _ => ⟨t', hs', (hp1.trans hp).tables, (hp1.trans hp).pages⟩)
    fun t2 s2 pt b hs2 hp2 hpt => ?_
  have hgrown := hp1.trans hp2
  refine wp_mono (wp_setLeaf hs2 hv hP hf hpt (hgrown.pages ▸ hne)) fun r s' => ?_
  rintro ⟨t', hs', htables, hr⟩
  rw [hgrown.pages] at hr
  exact ⟨t', hs', hgrown.tables.trans htables, hr⟩

/-- **A page of the kernel's is mapped**, if it was not. -/
theorem wp_map
    (halign : virt % page = 0) (hne : ∀ a, t.node 0 (pos virt 0) ≠ some (phys, a)) :
    wp (spec D) (map root virt phys page .writeBack).run (PageMapped P D root t virt phys) s := by
  unfold map
  rw [wp_except_bind, wp_refuse]
  refine ⟨fun hc => ?_, fun _ => ?_⟩
  · have hpage : page % page = 0 := Nat.mod_self page
    rw [or_mod_eq hpage, or_mod_eq hf.mod_eq] at hc
    exact absurd halign hc
  · have hone : page / page = 1 := by decide
    have hhuge : ¬((virt + 0 ||| phys + 0) % huge = 0 ∧ huge ≤ page - 0) :=
      fun hc => absurd hc.2 (by decide)
    rw [hone, mapFrom, if_neg (by decide)]
    simp only [wp_except_bind, tryHuge, if_neg hhuge, wp_except_pure]
    rw [if_neg Bool.false_ne_true, wp_except_bind]
    refine wp_mono (wp_map4k hs hv hP hf hne) fun r s' hr => ?_
    cases r with
    | error e => exact hr
    | ok _ => exact hr

end

end Map

/-! ### The pages of a stack -/

/-- The entry of the kernel's PML4 that the stacks have. -/
def stackArea : Part := ⟨509, 510, false, by norm_num⟩

/-- The position of the first page of the stack in a slot. -/
def base (slot : ℕ) : ℕ := pos (bottom slot) 0

theorem pos_pageAt (slot : ℕ) {i : ℕ} (hi : i < pages) : pos (pageAt slot i) 0 = base slot + i := by
  have hpages : pages = 16 := by decide
  rw [hpages] at hi
  unfold base pos pageAt bottom area slotSize page
  rw [pow_zero, Nat.div_one, Nat.div_one]
  omega

theorem stackArea_has {slot i : ℕ} (hslot : slot < slots) (hi : i < pages) :
    stackArea.Has (pageAt slot i) := by
  have hpages : pages = 16 := by decide
  rw [hpages] at hi
  unfold slots at hslot
  refine ⟨?_, iff_of_false ?_ Bool.false_ne_true⟩
  · unfold Part.Covers stackArea pos pageAt bottom area slotSize page
    norm_num only
    omega
  · unfold pageAt bottom area slotSize page lowerHalfEnd
    omega

theorem pageAt_mod (slot i : ℕ) : pageAt slot i % page = 0 := by
  unfold pageAt bottom area slotSize page
  omega

/-- The pages `m`, and those of a stack from the `i`-th on. -/
def stackOn (m : Pages) (slot i : ℕ) (new : List ℕ) : Pages := fun p =>
  if base slot + i ≤ p ∧ p < base slot + new.length then (new[p - base slot]?).map fun f =>
    (f, .readWrite) else m p

theorem stackOn_length (m : Pages) (slot : ℕ) (new : List ℕ) : stackOn m slot new.length new = m :=
  funext fun _ => if_neg (by omega)

theorem stackOn_append (m : Pages) (slot : ℕ) (new : List ℕ) (f : ℕ) :
    stackOn m slot 0 (new ++ [f]) =
      Function.update (stackOn m slot 0 new) (base slot + new.length) (some (f, .readWrite)) := by
  funext p
  unfold stackOn
  rw [List.length_append, List.length_singleton]
  rcases eq_or_ne p (base slot + new.length) with rfl | hne
  · rw [Function.update_self, if_pos (by omega), Nat.add_sub_cancel_left,
      List.getElem?_concat_length, Option.map_some]
  · rw [Function.update_of_ne hne]
    refine ite_congr (propext (by omega)) (fun hp => ?_) fun _ => rfl
    rw [List.getElem?_append_left (by omega)]

theorem stackOn_succ {m : Pages} {slot i : ℕ} {new : List ℕ} (hm : m (base slot + i) = none) :
    stackOn m slot (i + 1) new = Function.update (stackOn m slot i new) (base slot + i) none := by
  funext p
  unfold stackOn
  rcases eq_or_ne p (base slot + i) with rfl | hne
  · rw [Function.update_self, if_neg (by omega), hm]
  · rw [Function.update_of_ne hne]
    exact if_congr (by omega) rfl rfl

/-- **How far a stack has got**: its frames are those of `new` from the `i`-th on; `m` are the
pages of the other stacks, and `D` the frames that are none of this one's. -/
structure Stacked (D : Set ℕ) (root slot : ℕ) (m : Pages) (i : ℕ) (new : List ℕ) (t : Tree)
    (s : Mem) : Prop where
  holds : Holds stackArea (D ∪ {f | f ∈ new.drop i}) root t s
  pages_eq : t.node 0 = stackOn m slot i new
  nodup : new.Nodup
  fresh : ∀ f ∈ new, f ∉ D
  empty : ∀ j < new.length, m (base slot + j) = none
  length_le : new.length ≤ pages

section Stacked

variable {D : Set ℕ} {root slot i : ℕ} {m : Pages} {new : List ℕ} {t : Tree} {s : Mem}

theorem Stacked.start (h : Holds stackArea D root t s) :
    Stacked D root slot (t.node 0) 0 [] t s where
  holds := by
    have hnone : {f | f ∈ ([] : List ℕ).drop 0} = (∅ : Set ℕ) :=
      Set.eq_empty_of_forall_notMem fun _ hf => absurd hf List.not_mem_nil
    rw [hnone, Set.union_empty]
    exact h
  pages_eq := (stackOn_length (t.node 0) slot []).symm
  nodup := List.nodup_nil
  fresh := fun _ hf => absurd hf List.not_mem_nil
  empty := fun _ hj => absurd hj (Nat.not_lt_zero _)
  length_le := Nat.zero_le _

/-- All of it has been given back. -/
theorem Stacked.done (h : Stacked D root slot m new.length new t s) :
    Holds stackArea D root t s ∧ t.node 0 = m := by
  have hnone : {f | f ∈ new.drop new.length} = (∅ : Set ℕ) := by
    rw [List.drop_length]
    exact Set.eq_empty_of_forall_notMem fun _ hf => absurd hf List.not_mem_nil
  refine ⟨?_, h.pages_eq.trans (stackOn_length m slot new)⟩
  have hholds := h.holds
  rwa [hnone, Set.union_empty] at hholds

theorem Stacked.mem_of_page (h : Stacked D root slot m 0 new t s) (hm : frames m ⊆ D)
    {p f : ℕ} {a : Perm}
    (hp : t.node 0 p = some (f, a)) : f ∈ s.taken := by
  refine h.holds.subset ?_
  rw [h.pages_eq] at hp
  unfold stackOn at hp
  split at hp
  · obtain ⟨g, hg, he⟩ := Option.map_eq_some_iff.1 hp
    rw [Prod.mk.injEq] at he
    exact Or.inr (he.1 ▸ List.mem_of_getElem? hg)
  · exact Or.inl (hm (mem_frames hp))

theorem wp_mapStackPage (h : Stacked D root slot m 0 new t s) (hm : frames m ⊆ D)
    (hslot : slot < slots)
    (hlen : new.length < pages) :
    wp (spec D) (mapStackPage root (pageAt slot new.length)) (fun r s' => ∃ t',
      t.tables ⊆ t'.tables ∧
      match r with
      | true => ∃ f, Stacked D root slot m 0 (new ++ [f]) t' s'
      | false => Stacked D root slot m 0 new t' s') s := by
  unfold mapStackPage
  rw [wp_bind, wp_allocTable]
  refine ⟨fun _ => ⟨t, Set.Subset.rfl, h⟩, fun f hf hfr => ?_⟩
  have hpos := pos_pageAt slot hlen
  have hnew : ∀ a, t.node 0 (pos (pageAt slot new.length) 0) ≠ some (f, a) :=
    fun a hc => hf (h.mem_of_page hm hc)
  have hD : f ∉ D := fun hc => hf (h.holds.subset (Or.inl hc))
  have hnot : f ∉ new := fun hc => hf (h.holds.subset (Or.inr hc))
  dsimp only
  rw [wp_bind]
  refine wp_anti ?_ (wp_mono
    (wp_map (h.holds.take hf) (stackArea_has hslot hlen) rfl hfr (pageAt_mod _ _) hnew)
    fun r s' => ?_)
  · exact fun g hg => Or.inr (Or.inl hg)
  · rintro ⟨t', hs', htables, hr⟩
    cases r with
    | ok _ =>
      obtain ⟨hnone, hpages⟩ := hr
      rw [hpos] at hnone hpages
      have hset : insert f (D ∪ {g | g ∈ new.drop 0}) = D ∪ {g | g ∈ (new ++ [f]).drop 0} := by
        ext g
        simp only [List.drop_zero, Set.mem_insert_iff, Set.mem_union, Set.mem_ofPred_eq,
          List.mem_append,
          List.mem_singleton]
        tauto
      refine ⟨t', htables, f, hset ▸ hs', ?_, ?_, ?_, ?_, ?_⟩
      · rw [hpages, h.pages_eq, stackOn_append]
      · exact List.nodup_append.2 ⟨h.nodup, List.nodup_singleton f, fun a ha b hb he => by
          rw [List.mem_singleton.1 hb] at he
          exact hnot (he ▸ ha)⟩
      · exact List.forall_mem_append.2 ⟨h.fresh, List.forall_mem_singleton.2 hD⟩
      · intro j hj
        rw [List.length_append, List.length_singleton] at hj
        rcases Nat.lt_or_eq_of_le (Nat.le_of_lt_succ hj) with hlt | rfl
        · exact h.empty j hlt
        · rw [h.pages_eq, stackOn, if_neg (by omega)] at hnone
          exact hnone
      · rw [List.length_append, List.length_singleton]
        exact hlen
    | error e =>
      have hnone : f ∉ D ∪ {g | g ∈ new.drop 0} := fun hc => hf (h.holds.subset hc)
      simp only [keepPage, bind_eq, wp_bind, wp_freeFrame]
      refine ⟨⟨hs'.subset (Or.inl rfl), hD⟩, fun s'' htaken hcontent _ => ⟨t', htables, ?_⟩⟩
      exact ⟨hs'.free hnone htaken hcontent, hr.trans h.pages_eq, h.nodup, h.fresh,
        h.empty, h.length_le⟩

theorem wp_unmapStackPage (h : Stacked D root slot m i new t s) (hslot : slot < slots)
    (hi : i < new.length) :
    wp (spec D) (AddressSpace.unmapPage root (pageAt slot i)) (fun _ s' => ∃ t',
      t'.tables = t.tables ∧
      Stacked D root slot m (i + 1) new t' s') s := by
  have hpages : i < pages := hi.trans_le h.length_le
  have hpos := pos_pageAt slot hpages
  have hdrop : new.drop i = new[i] :: new.drop (i + 1) := List.drop_eq_getElem_cons hi
  have hnode : t.node 0 (base slot + i) = some (new[i], .readWrite) := by
    rw [h.pages_eq, stackOn, if_pos (by omega), Nat.add_sub_cancel_left,
      List.getElem?_eq_getElem hi, Option.map_some]
  have hnot : new[i] ∉ D ∪ {g | g ∈ new.drop (i + 1)} := by
    rintro (hc | hc)
    · exact h.fresh _ (List.getElem_mem hi) hc
    · have hnodup := h.nodup.sublist (List.drop_sublist i new)
      rw [hdrop] at hnodup
      exact (List.nodup_cons.1 hnodup).1 hc
  have hset : D ∪ {g | g ∈ new.drop i} = insert new[i] (D ∪ {g | g ∈ new.drop (i + 1)}) := by
    ext g
    rw [hdrop]
    simp only [Set.mem_insert_iff, Set.mem_union, Set.mem_ofPred_eq, List.mem_cons]
    tauto
  unfold AddressSpace.unmapPage
  rw [bind_eq, wp_bind]
  refine wp_anti Set.subset_union_left
    (wp_mono (wp_unmap h.holds (stackArea_has hslot hpages)) fun r s' => ?_)
  rintro ⟨rfl, hs'⟩
  rw [hpos, hset] at hs'
  rw [hpos, hnode]
  change wp (spec D) (freeFrame new[i]) _ s'
  rw [wp_freeFrame]
  refine ⟨⟨hs'.subset (Or.inl rfl), fun hc => hnot (Or.inl hc)⟩, fun s'' htaken hcontent _ =>
    ⟨_, t.tables_set_zero _ _, hs'.free hnot htaken hcontent, ?_, h.nodup, h.fresh,
      h.empty, h.length_le⟩⟩
  rw [t.node_zero_set_zero, h.pages_eq, stackOn_succ (h.empty i hi)]

/-- **The stack is given back**: its frames are free, and the page tables stay. -/
theorem wp_release (h : Stacked D root slot m 0 new t s) (hslot : slot < slots) :
    wp (spec D) (release root slot new.length) (fun _ s' => ∃ t', t'.tables = t.tables ∧
      Holds stackArea D root t' s' ∧
      t'.node 0 = m) s := by
  refine wp_mono (wp_upTo (I := fun i s' => ∃ t', t'.tables = t.tables ∧
    Stacked D root slot m i new t' s')
    (fun i hi s' => ?_) ⟨t, rfl, h⟩) fun _ s' => ?_
  · rintro ⟨t', htables, h'⟩
    refine wp_mono (wp_unmapStackPage h' hslot hi) fun _ s'' => ?_
    rintro ⟨t'', htables', h''⟩
    exact ⟨t'', htables'.trans htables, h''⟩
  · rintro ⟨t', htables, h'⟩
    exact ⟨t', htables, h'.done⟩

theorem wp_mapStack {left : ℕ} (h : Stacked D root slot m 0 new t s) (hm : frames m ⊆ D)
    (hslot : slot < slots)
    (hleft : new.length + left = pages) :
    wp (spec D) (mapStack root slot left new.length) (fun r s' => ∃ t', t.tables ⊆ t'.tables ∧
      match r with
      | true => ∃ new', new'.length = pages ∧ Stacked D root slot m 0 new' t' s'
      | false => Holds stackArea D root t' s' ∧ t'.node 0 = m) s := by
  induction left generalizing new t s with
  | zero => exact ⟨t, Set.Subset.rfl, new, hleft, h⟩
  | succ left ih =>
    rw [mapStack, bind_eq, wp_bind]
    refine wp_mono (wp_mapStackPage h hm hslot (by omega)) fun r s1 => ?_
    rintro ⟨t1, htables, hr⟩
    cases r with
    | true =>
      obtain ⟨f, h1⟩ := hr
      have hlen : (new ++ [f]).length = new.length + 1 := by
        rw [List.length_append, List.length_singleton]
      have hrest := ih h1 (by omega)
      rw [hlen] at hrest
      refine wp_mono hrest fun r s2 => ?_
      rintro ⟨t2, htables2, hr2⟩
      exact ⟨t2, htables.trans htables2, hr2⟩
    | false =>
      simp only [Bool.false_eq_true, if_false, bind_eq, wp_bind]
      refine wp_mono (wp_release hr hslot) fun _ s2 => ?_
      rintro ⟨t2, htables2, h2⟩
      exact ⟨t2, htables2 ▸ htables, h2⟩

end Stacked

/-! ### Slots -/

namespace KernelStacks

variable {D : Set ℕ} {root : ℕ} {t : Tree} {s : Mem}

theorem firstFree_lt {k : KernelStacks} {slot : ℕ} (h : k.firstFree = some slot) :
    slot < slots ∧ k.used.getLsbD slot = false := by
  have hmem := List.mem_of_find?_eq_some h
  have hfree := List.find?_some h
  exact ⟨List.mem_range.1 hmem, by simpa using hfree⟩

/-- **A kernel stack**, or none: then its frames are free again and every slot is as it was. -/
theorem wp_alloc (k : KernelStacks) (h : Holds stackArea D root t s) (hm : frames (t.node 0) ⊆ D) :
    wp (spec D) (k.alloc root) (fun r s' => ∃ t', t.tables ⊆ t'.tables ∧
      match r.1 with
      | .ok slot => slot < slots ∧ k.used.getLsbD slot = false ∧ r.2 = k.take slot ∧
          ∃ new, new.length = pages ∧ Stacked D root slot (t.node 0) 0 new t' s'
      | .error _ => r.2 = k ∧ Holds stackArea D root t' s' ∧ t'.node 0 = t.node 0) s := by
  unfold alloc
  split
  · exact ⟨t, Set.Subset.rfl, rfl, h, rfl⟩
  · next slot hslot =>
    obtain ⟨hlt, hfree⟩ := firstFree_lt hslot
    rw [bind_eq, wp_bind]
    refine wp_mono (wp_mapStack (Stacked.start h) hm hlt (Nat.zero_add _)) fun r s' => ?_
    rintro ⟨t', htables, hr⟩
    cases r with
    | true => exact ⟨t', htables, hlt, hfree, rfl, hr⟩
    | false => exact ⟨t', htables, rfl, hr⟩

theorem wp_free {k : KernelStacks} {slot : ℕ} {m : Pages} {new : List ℕ}
    (h : Stacked D root slot m 0 new t s)
    (hlen : new.length = pages) (hslot : slot < slots) :
    wp (spec D) (k.free root slot) (fun r s' => r = k.giveBack slot ∧ ∃ t', t'.tables = t.tables ∧
      Holds stackArea D root t' s' ∧ t'.node 0 = m) s := by
  unfold free
  rw [bind_eq, wp_bind, ← hlen]
  exact wp_mono (wp_release h hslot) fun _ s' hs' => ⟨rfl, hs'⟩

end KernelStacks

end RelayOs.Mm
