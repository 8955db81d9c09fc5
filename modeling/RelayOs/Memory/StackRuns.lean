import RelayOs.Memory.Stacks
import RelayOs.Memory.Translate

/-!
# Kernel stacks over whole runs

Stacks are made and given back in any order, with an allocator that may run out at any frame and at
any page table. `RelayOs.Mm.Standing` says how matters stand between two calls: the pages mapped in
the area are those of the stacks in use, sixteen for each and no frame twice, and the frames handed
out are those, the tables and what belongs to others.
-/

namespace RelayOs.Mm

open Prog KernelStack

/-! ### Counting frames -/

/-- Memory, the frames handed out so far and the frames given back. -/
structure Counted where
  mem : Mem
  handed : Multiset ℕ
  back : Multiset ℕ

/-- What a request and its reply add to the counts. -/
def Counted.tally (c : Counted) : (r : Request) → r.Reply → Multiset ℕ × Multiset ℕ
  | .alloc, some f => (f ::ₘ c.handed, c.back)
  | .free f, _ => (c.handed, f ::ₘ c.back)
  | _, _ => (c.handed, c.back)

/-- **The store with counts.** -/
def counted (D : Set ℕ) : Spec physMem Counted where
  pre r c := (spec D).pre r c.mem
  post r c x c' := (spec D).post r c.mem x c'.mem ∧ (c'.handed, c'.back) = c.tally r x

/-- One for a frame of the set, nothing for another. -/
noncomputable def ones (frames : Set ℕ) : ℕ → ℕ := frames.indicator 1

theorem ones_of_mem {frames : Set ℕ} {f : ℕ} (h : f ∈ frames) : ones frames f = 1 :=
  Set.indicator_of_mem h _

theorem ones_of_notMem {frames : Set ℕ} {f : ℕ} (h : f ∉ frames) : ones frames f = 0 :=
  Set.indicator_of_notMem h _

theorem ones_congr {A B : Set ℕ} {f : ℕ} (h : f ∈ A ↔ f ∈ B) : ones A f = ones B f := by
  by_cases hB : f ∈ B
  · rw [ones_of_mem hB, ones_of_mem (h.mpr hB)]
  · rw [ones_of_notMem hB, ones_of_notMem fun hA => hB (h.mp hA)]

/-- **The balance**: a frame was given back as often as it was handed out, unless it is taken now.
-/
def Balanced (s : Mem) (c : Counted) : Prop :=
  ∀ f, ones s.taken f + c.handed.count f = ones c.mem.taken f + c.back.count f

theorem Balanced.start (s : Mem) : Balanced s ⟨s, 0, 0⟩ := fun _ => rfl

/-- A request keeps the balance. -/
theorem Balanced.step {D : Set ℕ} {s0 : Mem} {c c' : Counted} {r : Request} {x : r.Reply}
    (h : Balanced s0 c)
    (hpre : (spec D).pre r c.mem) (hpost : (spec D).post r c.mem x c'.mem)
    (htally : (c'.handed, c'.back) = c.tally r x) :
    Balanced s0 c' := by
  intro f
  have hf := h f
  have hsame : c'.mem.taken = c.mem.taken → (c'.handed, c'.back) = (c.handed, c.back) →
      ones s0.taken f + c'.handed.count f = ones c'.mem.taken f + c'.back.count f := by
    intro htaken hcounts
    obtain ⟨h1, h2⟩ := Prod.mk.inj hcounts
    rw [h1, h2, htaken]
    exact hf
  cases r with
  | alloc =>
    rcases hpost with ⟨rfl, -, hmem⟩ | ⟨g, rfl, hg, -, hmem⟩
    · exact hsame (congrArg Mem.taken hmem) htally
    · obtain ⟨h1, h2⟩ := Prod.mk.inj htally
      have htaken : c'.mem.taken = insert g c.mem.taken := congrArg Mem.taken hmem
      rw [h1, h2, htaken, Multiset.count_cons]
      by_cases he : f = g
      · subst he
        rw [ones_of_notMem hg] at hf
        rw [if_pos rfl, ones_of_mem (Set.mem_insert f _)]
        omega
      · have hin : f ∈ insert g c.mem.taken ↔ f ∈ c.mem.taken := by
          rw [Set.mem_insert_iff, or_iff_right he]
        rw [if_neg he, ones_congr hin]
        exact hf
  | free g =>
    obtain ⟨htaken, -, -⟩ := hpost
    obtain ⟨h1, h2⟩ := Prod.mk.inj htally
    rw [h1, h2, htaken, Multiset.count_cons]
    by_cases he : f = g
    · subst he
      rw [ones_of_mem hpre.1] at hf
      have hout : f ∉ c.mem.taken \ {f} := fun hin => hin.2 rfl
      rw [if_pos rfl, ones_of_notMem hout]
      omega
    · have hin : f ∈ c.mem.taken \ {g} ↔ f ∈ c.mem.taken := ⟨fun hin => hin.1, fun hin => ⟨hin, he⟩⟩
      rw [if_neg he, ones_congr hin]
      exact hf
  | word g i => exact hsame (congrArg Mem.taken hpost.2) htally
  | setWord g i v =>
    have hmem : c'.mem = c.mem.setWord g i v := hpost
    have htaken : c'.mem.taken = (c.mem.setWord g i v).taken := congrArg Mem.taken hmem
    exact hsame htaken htally
  | bytes g i n => exact hsame (congrArg Mem.taken hpost.2) htally
  | setBytes g i data =>
    have hmem : c'.mem = c.mem.setBytes g i data := hpost
    have htaken : c'.mem.taken = (c.mem.setBytes g i data).taken := congrArg Mem.taken hmem
    exact hsame htaken htally

/-- **Every program keeps the balance**, whatever it is proved to do. -/
theorem wp_counted {D : Set ℕ} {α : Type} {p : Prog physMem α} {Q : α → Mem → Prop} {s : Mem}
    (h : wp (spec D) p Q s) :
    wp (counted D) p (fun a c => Q a c.mem ∧ Balanced s c) ⟨s, 0, 0⟩ := by
  have hr : (counted D).Refines (spec D) fun s' c => s' = c.mem ∧ Balanced s c := by
    rintro r _ c ⟨rfl, hbal⟩ hpre
    refine ⟨hpre, fun x c' hpost => ⟨c'.mem, hpost.1, rfl, hbal.step hpre hpost.1 hpost.2⟩⟩
  refine wp_mono (wp_refine hr ⟨rfl, Balanced.start s⟩ h) fun a c => ?_
  rintro ⟨_, ⟨rfl, hbal⟩, hq⟩
  exact ⟨hq, hbal⟩

/-! ### What the tree translates to -/

section Translate

variable {P : Part} {D : Set ℕ} {root : ℕ} {t : Tree} {s : Mem} {virt : ℕ}

theorem Holds.translateFrom_fst (hs : Holds P D root t s) (hv : P.Has virt) {k g : ℕ}
    {a : Perm} (hk : k ≤ 3)
    (hg : t.node (k + 1) (pos virt (k + 1)) = some (g, a)) :
    (s.translateFrom virt (k + 1) g).map Prod.fst = (t.node 0 (pos virt 0)).map fun x =>
      x.1 + virt % page := by
  induction k generalizing g a with
  | zero =>
    have hreads := hs.reads_at hv hk hg
    rw [Mem.translateFrom]
    cases hnode : t.node 0 (pos virt 0) with
    | none =>
      rw [hnode] at hreads
      rw [if_pos hreads.present_eq]
      rfl
    | some x =>
      obtain ⟨f, perm⟩ := x
      rw [hnode] at hreads
      have hframe : IsFrame f := by
        rw [← hreads.1]
        exact (Nat.and_assoc _ _ _).trans (by rw [Nat.and_self])
      have hsize : 2 ^ (12 + 9 * 0) = page := rfl
      rw [if_neg hreads.present_ne, if_pos (Or.inl rfl), Option.map_some, Option.map_some, pageOf]
      simp only [hreads.1, hsize, hframe.mod_eq, Nat.sub_zero]
  | succ k ih =>
    have hreads := hs.reads_at hv hk hg
    rw [Mem.translateFrom]
    cases hnode : t.node (k + 1) (pos virt (k + 1)) with
    | none =>
      rw [hnode] at hreads
      rw [if_pos hreads.present_eq, hs.none_at hnode (by omega) (Nat.zero_le _)]
      rfl
    | some x =>
      obtain ⟨f, perm⟩ := x
      rw [hnode] at hreads
      have hnot : ¬(k + 1 = 0 ∨ s.word g (index virt (k + 1)) &&& hugePage ≠ 0) :=
        not_or.mpr ⟨Nat.succ_ne_zero k, not_not.mpr hreads.huge_eq⟩
      rw [if_neg hreads.present_ne, if_neg hnot, hreads.1]
      exact ih (by omega) hnode

/-- **An address translates to its place in the page of the tree**, if there is one. -/
theorem Holds.translate_fst (hs : Holds P D root t s) (hv : P.Has virt) :
    (s.translate root virt).map Prod.fst = (t.node 0 (pos virt 0)).map fun x => x.1 + virt % page :=
  hs.translateFrom_fst hv le_rfl (pos_four virt ▸ hs.root_eq)

end Translate

/-! ### Sequences of calls -/

/-- A call on the kernel's stacks. A stack is given back by whoever holds it, so only one that is
live can be. -/
inductive StackCall
  | alloc
  | free (slot : ℕ)

/-- The slots, and the stacks that were made and not given back. -/
structure StackUse where
  kstacks : KernelStacks
  live : List ℕ

/-- What a call of `alloc` leaves. -/
def StackUse.made (live : List ℕ) : Except StackError ℕ × KernelStacks → StackUse
  | (.ok slot, k) => ⟨k, slot :: live⟩
  | (.error _, k) => ⟨k, live⟩

/-- One call, with the stacks in use after it. -/
def StackUse.step (u : StackUse) (root : ℕ) : StackCall → Prog physMem StackUse
  | .alloc => do
    let r ← u.kstacks.alloc root
    return StackUse.made u.live r
  | .free slot =>
    if slot ∈ u.live then do
      let k ← u.kstacks.free root slot
      return ⟨k, u.live.erase slot⟩
    else return u

/-- The calls one after the other. -/
def StackUse.run (root : ℕ) : List StackCall → StackUse → Prog physMem StackUse
  | [], u => return u
  | call :: calls, u => do
    let u' ← u.step root call
    StackUse.run root calls u'

/-- No stack was made yet. -/
def StackUse.none : StackUse := ⟨⟨0⟩, []⟩

/-! ### How matters stand between calls -/

/-- **How matters stand**: `frames slot` are the frames of the stack in a slot, and `B` those of
others. -/
structure Standing (B : Set ℕ) (root : ℕ) (u : StackUse) (frames : ℕ → List ℕ) (t : Tree)
    (s : Mem) : Prop where
  live_iff : ∀ slot, slot ∈ u.live ↔ slot < slots ∧ u.kstacks.used.getLsbD slot = true
  live_nodup : u.live.Nodup
  length_eq : ∀ slot ∈ u.live, (frames slot).length = pages
  frames_nodup : (u.live.flatMap frames).Nodup
  apart : ∀ f ∈ u.live.flatMap frames, f ∉ B
  holds : Holds stackArea (B ∪ {f | f ∈ u.live.flatMap frames}) root t s
  pages_iff : ∀ p f a, t.node 0 p = some (f, a) ↔
    a = .readWrite ∧ ∃ slot ∈ u.live, ∃ i, (frames slot)[i]? = some f ∧ p = base slot + i

/-- What the byte at an offset in a slot is: one of the stack's, if the slot is in use and the
offset is above the guard page and below the top of the stack. -/
def stackByte (live : List ℕ) (frames : ℕ → List ℕ) (slot offset : ℕ) : Option ℕ :=
  if slot ∈ live ∧ page ≤ offset ∧ offset < page + size then
    ((frames slot)[(offset - page) / page]?).map fun f => f + offset % page
  else none

theorem base_eq {slot : ℕ} (h : slot < slots) : base slot = base 0 + 32 * slot := by
  unfold slots at h
  unfold base pos bottom area slotSize page
  rw [pow_zero, Nat.div_one, Nat.div_one]
  omega

theorem stackOn_eq_some {m : Pages} {slot p f : ℕ} {new : List ℕ} {a : Perm} :
    stackOn m slot 0 new p = some (f, a) ↔
      (a = .readWrite ∧ ∃ i, new[i]? = some f ∧ p = base slot + i) ∨
      ((p < base slot ∨ base slot + new.length ≤ p) ∧ m p = some (f, a)) := by
  rw [stackOn, Nat.add_zero]
  split
  · next hin =>
    obtain ⟨i, rfl⟩ := Nat.exists_eq_add_of_le hin.1
    rw [Nat.add_sub_cancel_left]
    constructor
    · intro h
      obtain ⟨g, hg, he⟩ := Option.map_eq_some_iff.mp h
      obtain ⟨rfl, rfl⟩ := Prod.mk.inj he
      exact Or.inl ⟨rfl, i, hg, rfl⟩
    · rintro (⟨rfl, j, hj, he⟩ | ⟨hout, -⟩)
      · rw [Nat.add_left_cancel he, hj, Option.map_some]
      · omega
  · next hout =>
    constructor
    · intro h
      exact Or.inr ⟨by omega, h⟩
    · rintro (⟨rfl, j, hj, rfl⟩ | ⟨-, h⟩)
      · have hlt := (List.getElem?_eq_some_iff.mp hj).1
        omega
      · exact h

namespace KernelStacks

theorem getLsbD_take {k : KernelStacks} {slot x : ℕ} (h : slot < slots) :
    (k.take slot).used.getLsbD x = (k.used.getLsbD x || decide (x = slot)) := by
  unfold slots at h
  change (k.used ||| (1#64 <<< slot)).getLsbD x = _
  rw [← BitVec.twoPow_eq, BitVec.getLsbD_or, BitVec.getLsbD_twoPow]
  by_cases hx : x = slot
  · subst hx
    simp [h]
  · simp [hx, Ne.symm hx]

theorem getLsbD_giveBack {k : KernelStacks} {slot x : ℕ} (h : slot < slots) :
    (k.giveBack slot).used.getLsbD x = (k.used.getLsbD x && (x != slot)) := by
  unfold slots at h
  change (k.used &&& ~~~(1#64 <<< slot)).getLsbD x = _
  rw [← BitVec.twoPow_eq, BitVec.getLsbD_and, BitVec.getLsbD_not, BitVec.getLsbD_twoPow]
  by_cases hx : x < 64
  · by_cases he : x = slot
    · subst he
      simp [h]
    · simp [hx, he, Ne.symm he]
  · rw [BitVec.getLsbD_of_ge _ _ (by omega), Bool.false_and, Bool.false_and]

end KernelStacks

namespace Standing

variable {B : Set ℕ} {root : ℕ} {u : StackUse} {frames : ℕ → List ℕ} {t : Tree} {s : Mem}

theorem start (hs : Holds stackArea B root t s) (hempty : ∀ p, t.node 0 p = none)
    (frames : ℕ → List ℕ) :
    Standing B root StackUse.none frames t s where
  live_iff slot := iff_of_false List.not_mem_nil fun h => by simp [StackUse.none] at h
  live_nodup := List.nodup_nil
  length_eq := fun _ h => absurd h List.not_mem_nil
  frames_nodup := List.nodup_nil
  apart := fun _ h => absurd h List.not_mem_nil
  holds := by
    have hnone : {f | f ∈ StackUse.none.live.flatMap frames} = (∅ : Set ℕ) :=
      Set.eq_empty_of_forall_notMem fun _ hf => absurd hf List.not_mem_nil
    rw [hnone, Set.union_empty]
    exact hs
  pages_iff p f a := by
    rw [hempty p]
    refine iff_of_false nofun ?_
    rintro ⟨-, slot, hslot, -⟩
    exact absurd hslot List.not_mem_nil

variable {slot : ℕ} {t' : Tree}

section

variable (h : Standing B root u frames t s)

include h

theorem page_eq {i : ℕ} (hslot : slot ∈ u.live) (hi : i < pages) :
    t.node 0 (base slot + i) = ((frames slot)[i]?).map fun f => (f, .readWrite) := by
  have hlen : i < (frames slot).length := by rw [h.length_eq slot hslot]; exact hi
  rw [List.getElem?_eq_getElem hlen, Option.map_some]
  exact (h.pages_iff _ _ _).mpr ⟨rfl, slot, hslot, i, List.getElem?_eq_getElem hlen, rfl⟩

theorem page_none {p : ℕ}
    (hp : ∀ slot ∈ u.live, ∀ i < pages, p ≠ base slot + i) : t.node 0 p = none := by
  rw [Option.eq_none_iff_forall_not_mem]
  rintro ⟨f, a⟩ hx
  obtain ⟨-, slot, hslot, i, hi, he⟩ := (h.pages_iff p f a).mp hx
  have hlt : i < pages := h.length_eq slot hslot ▸ (List.getElem?_eq_some_iff.mp hi).1
  exact hp slot hslot i hlt he

/-- **Every address of every slot** translates to the byte of its stack, or to nothing. -/
theorem translate_eq {offset : ℕ} (hslot : slot < slots)
    (hoff : offset < slotSize) : (s.translate root (area + slot * slotSize + offset)).map Prod.fst =
      stackByte u.live frames slot offset := by
  have hbase := base_eq hslot
  have hpages : pages = 16 := by decide
  have hhas : stackArea.Has (area + slot * slotSize + offset) := by
    unfold slots at hslot
    unfold slotSize at hoff
    refine ⟨?_, iff_of_false ?_ Bool.false_ne_true⟩
    · unfold Part.Covers stackArea pos area slotSize page
      norm_num only
      omega
    · unfold area slotSize lowerHalfEnd
      omega
  have hpos : pos (area + slot * slotSize + offset) 0 + 1 = base slot + offset / page := by
    unfold slots at hslot
    unfold slotSize at hoff
    unfold base pos bottom area slotSize page
    rw [pow_zero, Nat.div_one, Nat.div_one]
    omega
  have hmod : (area + slot * slotSize + offset) % page = offset % page := by
    unfold area slotSize page
    omega
  rw [h.holds.translate_fst hhas, hmod, stackByte]
  unfold slotSize at hoff
  split
  · next hin =>
    obtain ⟨hlive, hle, hlt⟩ := hin
    unfold size at hlt
    have hi : (offset - page) / page < pages := by
      rw [hpages]
      unfold page at *
      omega
    have hp : pos (area + slot * slotSize + offset) 0 = base slot + (offset - page) / page := by
      unfold page at *
      omega
    rw [hp, h.page_eq hlive hi, Option.map_map]
    rfl
  · next hout =>
    rw [h.page_none, Option.map_none]
    intro slot' hslot' i hi he
    have hlt' := ((h.live_iff slot').mp hslot').1
    rw [base_eq hlt'] at he
    rw [hpages] at hi
    have hsame : slot' = slot := by
      unfold page at *
      omega
    subst hsame
    refine hout ⟨hslot', ?_⟩
    unfold size
    unfold page at *
    omega

theorem ones_taken (f : ℕ) :
    ones s.taken f = ones B f + (u.live.flatMap frames).count f + ones t.tables f := by
  have htaken := h.holds.taken
  have hsep := h.holds.apart f
  by_cases htable : f ∈ t.tables
  · have hnot := hsep htable
    have hin : f ∈ s.taken := by rw [htaken]; exact Or.inr htable
    have hB : f ∉ B := fun hc => hnot (Or.inl hc)
    have hframes : f ∉ u.live.flatMap frames := fun hc => hnot (Or.inr hc)
    rw [ones_of_mem hin, ones_of_mem htable, ones_of_notMem hB,
      List.count_eq_zero_of_not_mem hframes]
  · rw [ones_of_notMem htable, Nat.add_zero]
    by_cases hframes : f ∈ u.live.flatMap frames
    · have hin : f ∈ s.taken := by rw [htaken]; exact Or.inl (Or.inr hframes)
      rw [ones_of_mem hin, ones_of_notMem (h.apart f hframes),
        List.count_eq_one_of_mem h.frames_nodup hframes]
    · have hsame : f ∈ s.taken ↔ f ∈ B := by
        rw [htaken]
        exact ⟨fun hc => hc.elim (fun hc => hc.resolve_right hframes) fun hc => absurd hc htable,
          fun hc => Or.inl (Or.inl hc)⟩
      rw [ones_congr hsame, List.count_eq_zero_of_not_mem hframes, Nat.add_zero]

end

/-! ### The calls -/

section

variable (h : Standing B root u frames t s)

include h

theorem frames_subset :
    Mm.frames (t.node 0) ⊆ B ∪ {f | f ∈ u.live.flatMap frames} := by
  rintro f ⟨p, a, hp⟩
  obtain ⟨-, slot, hslot, i, hi, -⟩ := (h.pages_iff p f a).mp hp
  exact Or.inr (List.mem_flatMap.mpr ⟨slot, hslot, List.mem_of_getElem? hi⟩)

/-- A page of a stack is in no other slot. -/
theorem outside {x i f : ℕ} (hx : x ∈ u.live) (hi : (frames x)[i]? = some f)
    (hslot : slot < slots) (hne : x ≠ slot) :
    base x + i < base slot ∨ base slot + pages ≤ base x + i := by
  have hlt := (List.getElem?_eq_some_iff.mp hi).1
  have hpages : pages = 16 := by decide
  rw [h.length_eq x hx, hpages] at hlt
  rw [base_eq ((h.live_iff x).mp hx).1, base_eq hslot, hpages]
  omega

/-- A stack was made. -/
theorem made {new : List ℕ} {s' : Mem} (hslot : slot < slots)
    (hfree : u.kstacks.used.getLsbD slot = false) (hlen : new.length = pages)
    (hnew : Stacked (B ∪ {f | f ∈ u.live.flatMap frames}) root slot (t.node 0) 0 new t' s') :
    Standing B root ⟨u.kstacks.take slot, slot :: u.live⟩
      (Function.update frames slot new) t' s' := by
  have hout : slot ∉ u.live := fun hin => by
    rw [((h.live_iff slot).mp hin).2] at hfree
    cases hfree
  have hkept : ∀ x ∈ u.live, Function.update frames slot new x = frames x := fun x hx =>
    Function.update_of_ne (fun he : x = slot => hout (he ▸ hx)) _ _
  have hmap : (slot :: u.live).flatMap (Function.update frames slot new) =
      new ++ u.live.flatMap frames := by
    rw [List.flatMap_cons, Function.update_self, List.flatMap_congr hkept]
  constructor
  · intro x
    rw [List.mem_cons, h.live_iff x, KernelStacks.getLsbD_take hslot, Bool.or_eq_true,
      decide_eq_true_iff]
    constructor
    · rintro (rfl | ⟨hlt, hused⟩)
      · exact ⟨hslot, Or.inr rfl⟩
      · exact ⟨hlt, Or.inl hused⟩
    · rintro ⟨hlt, hused | rfl⟩
      · exact Or.inr ⟨hlt, hused⟩
      · exact Or.inl rfl
  · exact List.nodup_cons.mpr ⟨hout, h.live_nodup⟩
  · refine List.forall_mem_cons.mpr ⟨by rw [Function.update_self, hlen], fun x hx => ?_⟩
    rw [hkept x hx, h.length_eq x hx]
  · rw [hmap]
    refine List.nodup_append'.mpr ⟨hnew.nodup, h.frames_nodup, fun f hf hc => ?_⟩
    exact hnew.fresh f hf (Or.inr hc)
  · rw [hmap]
    exact List.forall_mem_append.mpr ⟨fun f hf hB => hnew.fresh f hf (Or.inl hB), h.apart⟩
  · have hset : B ∪ {f | f ∈ u.live.flatMap frames} ∪ {f | f ∈ new.drop 0} =
        B ∪ {f | f ∈ new ++ u.live.flatMap frames} := by
      ext f
      simp only [List.drop_zero, Set.mem_union, Set.mem_ofPred_eq, List.mem_append]
      tauto
    rw [hmap, ← hset]
    exact hnew.holds
  · intro p f a
    rw [hnew.pages_eq, stackOn_eq_some, h.pages_iff]
    constructor
    · rintro (⟨rfl, i, hi, hp⟩ | ⟨-, rfl, x, hx, i, hi, hp⟩)
      · exact ⟨rfl, slot, List.mem_cons_self, i, by rw [Function.update_self]; exact hi, hp⟩
      · exact ⟨rfl, x, List.mem_cons_of_mem _ hx, i, by rw [hkept x hx]; exact hi, hp⟩
    · rintro ⟨rfl, x, hx, i, hi, hp⟩
      rcases List.mem_cons.mp hx with rfl | hx
      · rw [Function.update_self] at hi
        exact Or.inl ⟨rfl, i, hi, hp⟩
      · rw [hkept x hx] at hi
        refine Or.inr ⟨?_, rfl, x, hx, i, hi, hp⟩
        rw [hlen, hp]
        exact h.outside hx hi hslot fun he => hout (he ▸ hx)

/-- **A stack is made, or all is as it was** but for page tables. -/
theorem wp_alloc :
    wp (spec B) (u.step root .alloc) (fun u' s' => ∃ frames' t', t.tables ⊆ t'.tables ∧
      Standing B root u' frames' t' s' ∧ ((u' = u ∧ frames' = frames) ∨
        ∃ slot, u'.live = slot :: u.live ∧ ∀ x ∈ u.live, frames' x = frames x)) s := by
  rw [StackUse.step, bind_eq, wp_bind]
  refine wp_anti Set.subset_union_left
    (wp_mono (u.kstacks.wp_alloc h.holds h.frames_subset) fun r s' => ?_)
  rintro ⟨t', htables, hr⟩
  obtain ⟨r, k⟩ := r
  cases r with
  | ok slot =>
    obtain ⟨hslot, hfree, rfl, new, hlen, hnew⟩ := hr
    have hout : slot ∉ u.live := fun hin => by
      rw [((h.live_iff slot).mp hin).2] at hfree
      cases hfree
    refine ⟨_, t', htables, h.made hslot hfree hlen hnew, Or.inr ⟨slot, rfl, fun x hx => ?_⟩⟩
    exact Function.update_of_ne (fun he : x = slot => hout (he ▸ hx)) _ _
  | error e =>
    obtain ⟨rfl, hholds, hpages⟩ := hr
    exact ⟨frames, t', htables,
      ⟨h.live_iff, h.live_nodup, h.length_eq, h.frames_nodup, h.apart, hholds,
        hpages ▸ h.pages_iff⟩, Or.inl ⟨rfl, rfl⟩⟩

theorem stacked (hslot : slot ∈ u.live) :
    Stacked (B ∪ {f | f ∈ (u.live.erase slot).flatMap frames}) root slot
      (fun p => if base slot ≤ p ∧ p < base slot + pages then none else t.node 0 p) 0
        (frames slot) t s := by
  have hperm : List.Perm (u.live.flatMap frames)
      (frames slot ++ (u.live.erase slot).flatMap frames) :=
    (List.perm_cons_erase hslot).flatMap_right frames
  have hlen := h.length_eq slot hslot
  have hnodup := List.nodup_append'.mp (hperm.nodup_iff.mp h.frames_nodup)
  constructor
  · have hset : B ∪ {f | f ∈ (u.live.erase slot).flatMap frames} ∪ {f | f ∈ (frames slot).drop 0} =
        B ∪ {f | f ∈ u.live.flatMap frames} := by
      ext f
      have hmem : f ∈ u.live.flatMap frames ↔ _ := hperm.mem_iff
      simp only [List.drop_zero, Set.mem_union, Set.mem_ofPred_eq, hmem, List.mem_append]
      tauto
    rw [hset]
    exact h.holds
  · funext p
    rw [stackOn, hlen, Nat.add_zero]
    split
    · next hin =>
      obtain ⟨i, rfl⟩ := Nat.exists_eq_add_of_le hin.1
      rw [h.page_eq hslot (by omega), Nat.add_sub_cancel_left]
    · rfl
  · exact hnodup.1
  · rintro f hf (hB | hc)
    · exact h.apart f (hperm.mem_iff.mpr (List.mem_append_left _ hf)) hB
    · exact hnodup.2.2 hf hc
  · intro j hj
    exact if_pos (by omega)
  · exact hlen.le

/-- A stack was given back. -/
theorem gone {s' : Mem} (hslot : slot ∈ u.live)
    (hs' : Holds stackArea (B ∪ {f | f ∈ (u.live.erase slot).flatMap frames}) root t' s')
    (hpages : t'.node 0 = fun p => if base slot ≤ p ∧ p < base slot + pages then none
      else t.node 0 p) :
    Standing B root ⟨u.kstacks.giveBack slot, u.live.erase slot⟩ frames t' s' := by
  have hsub : (u.live.erase slot).flatMap frames ⊆ u.live.flatMap frames := fun f hf => by
    obtain ⟨x, hx, hf⟩ := List.mem_flatMap.mp hf
    exact List.mem_flatMap.mpr ⟨x, List.mem_of_mem_erase hx, hf⟩
  have hlt := ((h.live_iff slot).mp hslot).1
  constructor
  · intro x
    rw [h.live_nodup.mem_erase_iff, h.live_iff x, KernelStacks.getLsbD_giveBack hlt,
      Bool.and_eq_true, bne_iff_ne]
    tauto
  · exact h.live_nodup.erase slot
  · exact fun x hx => h.length_eq x (List.mem_of_mem_erase hx)
  · have hperm : List.Perm (u.live.flatMap frames)
        (frames slot ++ (u.live.erase slot).flatMap frames) :=
      (List.perm_cons_erase hslot).flatMap_right frames
    exact (List.nodup_append'.mp (hperm.nodup_iff.mp h.frames_nodup)).2.1
  · exact fun f hf => h.apart f (hsub hf)
  · exact hs'
  · intro p f a
    rw [hpages]
    constructor
    · intro hp
      dsimp only at hp
      split at hp
      · cases hp
      · next hout =>
        obtain ⟨rfl, x, hx, i, hi, rfl⟩ := (h.pages_iff p f a).mp hp
        refine ⟨rfl, x, h.live_nodup.mem_erase_iff.mpr ⟨?_, hx⟩, i, hi, rfl⟩
        rintro rfl
        have hi' := (List.getElem?_eq_some_iff.mp hi).1
        rw [h.length_eq x hx] at hi'
        omega
    · rintro ⟨rfl, x, hx, i, hi, rfl⟩
      obtain ⟨hne, hx⟩ := h.live_nodup.mem_erase_iff.mp hx
      have hoff := h.outside hx hi hlt hne
      dsimp only
      rw [if_neg (by omega)]
      exact (h.pages_iff _ _ _).mpr ⟨rfl, x, hx, i, hi, rfl⟩

/-- **A stack is given back**, and the tables stay. -/
theorem wp_free (hslot : slot ∈ u.live) :
    wp (spec B) (u.step root (.free slot)) (fun u' s' => ∃ t', t'.tables = t.tables ∧
      u'.live = u.live.erase slot ∧
      Standing B root u' frames t' s') s := by
  rw [StackUse.step, if_pos hslot, bind_eq, wp_bind]
  refine wp_anti Set.subset_union_left
    (wp_mono (KernelStacks.wp_free (h.stacked hslot) (h.length_eq slot hslot)
    ((h.live_iff slot).mp hslot).1) fun k s' => ?_)
  rintro ⟨rfl, t', htables, hholds, hpages⟩
  exact ⟨t', htables, rfl, h.gone hslot hholds hpages⟩

theorem wp_step (call : StackCall) :
    wp (spec B) (u.step root call) (fun u' s' => ∃ frames' t',
      Standing B root u' frames' t' s') s := by
  cases call with
  | alloc =>
    refine wp_mono h.wp_alloc fun u' s' => ?_
    rintro ⟨frames', t', -, h', -⟩
    exact ⟨frames', t', h'⟩
  | free slot =>
    by_cases hslot : slot ∈ u.live
    · refine wp_mono (h.wp_free hslot) fun u' s' => ?_
      rintro ⟨t', -, -, h'⟩
      exact ⟨frames, t', h'⟩
    · rw [StackUse.step, if_neg hslot]
      exact ⟨frames, t, h⟩

/-- **So does any sequence of calls.** -/
theorem wp_run (calls : List StackCall) :
    wp (spec B) (StackUse.run root calls u) (fun u' s' => ∃ frames' t',
      Standing B root u' frames' t' s') s := by
  induction calls generalizing u frames t s with
  | nil => exact ⟨frames, t, h⟩
  | cons call calls ih =>
    rw [StackUse.run, bind_eq, wp_bind]
    refine wp_mono (h.wp_step call) fun u' s' => ?_
    rintro ⟨frames', t', h'⟩
    exact ih h'

/-- **The frames balance**: those of stacks and tables before a call and those it was handed are
those of stacks and tables after it and those it gave back. -/
theorem settled {u' : StackUse} {frames' : ℕ → List ℕ} {c : Counted}
    (h' : Standing B root u' frames' t' c.mem) (hbal : Balanced s c) (f : ℕ) :
    (u.live.flatMap frames).count f + ones t.tables f + c.handed.count f =
      (u'.live.flatMap frames').count f + ones t'.tables f + c.back.count f := by
  have hf := hbal f
  rw [h.ones_taken f, h'.ones_taken f] at hf
  omega

end

end Standing

/-! ### Whole runs -/

/-- **What a call gives back**: an `alloc` that makes no stack keeps of the frames it was handed
only the new page tables, and `free` gives back each frame of its stack once. -/
def Returned (u : StackUse) (frames : ℕ → List ℕ) (tables : Set ℕ) (call : StackCall)
    (u' : StackUse) (after : Set ℕ)
    (c : Counted) : Prop :=
  match call with
  | .alloc => u' = u → ∀ f, c.handed.count f = c.back.count f + ones (after \ tables) f
  | .free slot => slot ∈ u.live → ∀ f, c.back.count f = c.handed.count f + (frames slot).count f

section Returned

variable {B : Set ℕ} {root : ℕ} {u : StackUse} {frames : ℕ → List ℕ} {t : Tree} {s : Mem}

theorem ones_diff {A B : Set ℕ} (h : A ⊆ B) (f : ℕ) : ones B f = ones A f + ones (B \ A) f := by
  by_cases hA : f ∈ A
  · have hout : f ∉ B \ A := fun hc => hc.2 hA
    rw [ones_of_mem hA, ones_of_mem (h hA), ones_of_notMem hout]
  · have hsame : f ∈ B ↔ f ∈ B \ A := ⟨fun hB => ⟨hB, hA⟩, fun hB => hB.1⟩
    rw [ones_of_notMem hA, ones_congr hsame, Nat.zero_add]

theorem Standing.wp_returned (h : Standing B root u frames t s) (call : StackCall) :
    wp (counted B) (u.step root call) (fun u' c => ∃ frames' t',
      Standing B root u' frames' t' c.mem ∧
      Returned u frames t.tables call u' t'.tables c) ⟨s, 0, 0⟩ := by
  cases call with
  | alloc =>
    refine wp_mono (wp_counted h.wp_alloc) fun u' c => ?_
    rintro ⟨⟨frames', t', htables, h', hkind⟩, hbal⟩
    refine ⟨frames', t', h', ?_⟩
    rintro rfl f
    have hf := h.settled h' hbal f
    have hsame : frames' = frames := by
      rcases hkind with ⟨-, hframes⟩ | ⟨slot, hlive, -⟩
      · exact hframes
      · exact absurd (congrArg List.length hlive) (by rw [List.length_cons]; omega)
    rw [hsame, ones_diff htables f] at hf
    omega
  | free slot =>
    by_cases hslot : slot ∈ u.live
    · refine wp_mono (wp_counted (h.wp_free hslot)) fun u' c => ?_
      rintro ⟨⟨t', htables, hlive, h'⟩, hbal⟩
      refine ⟨frames, t', h', fun _ f => ?_⟩
      have hf := h.settled h' hbal f
      have hperm : List.Perm (u.live.flatMap frames)
          (frames slot ++ (u.live.erase slot).flatMap frames) :=
        (List.perm_cons_erase hslot).flatMap_right frames
      rw [htables, hlive, hperm.count_eq, List.count_append] at hf
      omega
    · rw [StackUse.step, if_neg hslot]
      exact ⟨frames, t, h, fun hin => absurd hin hslot⟩

end Returned

/-- **Kernel stacks stay apart** over every sequence of calls, whatever memory runs out: each live
stack has a slot of its own and its pages mapped to sixteen frames that nothing else has; no other
address of the area is mapped, so neither the guard pages nor the slots not in use are; and the next
call gives back the frames of a stack it does not make, or of the one it frees, once each. -/
theorem stacks_stay_apart (B : Set ℕ) (root : ℕ) (t : Tree) (s : Mem)
    (hs : Holds stackArea B root t s)
    (hempty : ∀ p, t.node 0 p = none) (calls : List StackCall) :
    wp (spec B) (StackUse.run root calls StackUse.none) (fun u s' => ∃ frames t',
      Standing B root u frames t' s' ∧
      (∀ slot < slots, ∀ offset < slotSize,
        (s'.translate root (area + slot * slotSize + offset)).map Prod.fst =
          stackByte u.live frames slot offset) ∧
      ∀ call, wp (counted B) (u.step root call) (fun u' c => ∃ frames' t'',
        Standing B root u' frames' t'' c.mem ∧
        Returned u frames t'.tables call u' t''.tables c) ⟨s', 0, 0⟩) s := by
  refine wp_mono ((Standing.start hs hempty fun _ => []).wp_run calls) fun u s' => ?_
  rintro ⟨frames, t', h⟩
  exact ⟨frames, t', h, fun slot hslot offset hoff => h.translate_eq hslot hoff,
    fun call => h.wp_returned call⟩

/-- Memory in which one frame is taken, a PML4 without entries. -/
def bareMem : Mem := ⟨{4096}, fun _ => Mem.zeros, True⟩

theorem stacks_stay_apart_bareMem :
    Holds stackArea ∅ 4096 (Tree.empty 4096) bareMem ∧
      wp (spec ∅) (StackUse.run 4096 [.alloc, .alloc, .free 0] StackUse.none) (fun u s' => ∃ frames,
        ∀ slot < slots, ∀ offset < slotSize,
          (s'.translate 4096 (area + slot * slotSize + offset)).map Prod.fst =
            stackByte u.live frames slot offset)
        bareMem := by
  have hs : Holds stackArea ∅ 4096 (Tree.empty 4096) bareMem :=
    holds_empty (Set.notMem_empty _) (insert_empty_eq _).symm fun _ _ => u64At_replicate _ _
  refine ⟨hs, wp_mono (stacks_stay_apart ∅ 4096 _ _ hs (fun p => Tree.empty_none (by omega)) _)
    fun u s' => ?_⟩
  rintro ⟨frames, -, -, htranslate, -⟩
  exact ⟨frames, htranslate⟩

end RelayOs.Mm
