import RelayOs.Memory.Paging

/-!
# The tree that page tables stand for

A set of page tables in memory stands for a tree: at level 4 the PML4, at level 3 the
PDPTs, down to the page tables at level 1, and at level 0 the pages. A node of the tree is
named by its level and its position in that level, so that its parent is one level up at
position `p / 512`, under entry `p % 512`. `RelayOs.Mm.Holds` says that the tables found in
memory from a PML4 on are those of a tree, for the part of the PML4 that is looked at: the
lower half, which a program owns, or a part of the kernel's.
-/

namespace RelayOs.Mm

open Prog

/-! ### Positions -/

/-- The position of `virt`'s node in `level`. -/
def pos (virt level : ℕ) : ℕ := virt / page % 2 ^ 36 / 512 ^ level

theorem pos_succ (virt level : ℕ) : pos virt (level + 1) = pos virt level / 512 := by
  rw [pos, pos, Nat.div_div_eq_div_mul, pow_succ 512]

theorem pos_four (virt : ℕ) : pos virt 4 = 0 :=
  Nat.div_eq_of_lt (Nat.mod_lt _ (by norm_num))

theorem pos_three_lt (virt : ℕ) : pos virt 3 < 512 := by
  unfold pos
  omega

theorem index_eq {virt level : ℕ} (h : level ≤ 3) : index virt level = pos virt level % 512 := by
  have hmask : ∀ x, x &&& 0x1FF = x % 512 := fun x => Nat.and_two_pow_sub_one_eq_mod x 9
  rw [index, hmask, Nat.shiftRight_eq_div_pow, pos, page]
  interval_cases level <;> norm_num <;> omega

theorem index_lt (virt level : ℕ) : index virt level < 512 := by
  have hmask : index virt level = _ % 512 := Nat.and_two_pow_sub_one_eq_mod _ 9
  rw [hmask]
  exact Nat.mod_lt _ (by norm_num)

/-- A node's position from its parent's and its index. -/
theorem pos_eq {virt level : ℕ} (h : level ≤ 3) :
    512 * pos virt (level + 1) + index virt level = pos virt level := by
  rw [pos_succ, index_eq h]
  exact Nat.div_add_mod _ _

theorem pos_zero {virt : ℕ} (h : virt < lowerHalfEnd) : pos virt 0 = virt / page := by
  unfold lowerHalfEnd at h
  unfold pos page
  omega

/-! ### Entries -/

/-- **A part of the PML4**: its entries from `first` up to `last`, for programs or for the
kernel. -/
structure Part where
  first : ℕ
  last : ℕ
  forUser : Bool
  last_le : last ≤ 512

namespace Part

variable (P : Part)

/-- The entry is one of the part's. -/
def Covers (i : ℕ) : Prop := P.first ≤ i ∧ i < P.last

/-- The bit that lets programs use the part. -/
def userBit : ℕ := if P.forUser then user else 0

/-- The flags of an entry that names a node of level `k`. -/
def flags (k : ℕ) (perm : Perm) : ℕ :=
  if k = 0 then present ||| P.userBit ||| perm.bits else present ||| writable ||| P.userBit

/-- The address lies in the part. -/
structure Has (virt : ℕ) : Prop where
  covers : P.Covers (pos virt 3)
  half : virt < lowerHalfEnd ↔ P.forUser

variable {P} {virt : ℕ}

theorem Has.covers_index (hv : P.Has virt) {k : ℕ} (hk : k = 3) : P.Covers (index virt k) := by
  rw [hk, index_eq le_rfl, Nat.mod_eq_of_lt (pos_three_lt virt)]
  exact hv.covers

theorem Has.tableFlags_eq (hv : P.Has virt) (k : ℕ) (perm : Perm) :
    tableFlags virt = P.flags (k + 1) perm := by
  simp only [tableFlags, flags, if_neg (Nat.succ_ne_zero k), userBit, hv.half]
  cases P.forUser <;> rfl

end Part

/-- The half of the address space that belongs to the program. -/
def lowerHalf : Part := ⟨0, 256, true, by norm_num⟩

theorem lowerHalf_has {virt : ℕ} (h : virt < lowerHalfEnd) : lowerHalf.Has virt := by
  refine ⟨⟨Nat.zero_le _, ?_⟩, iff_of_true h rfl⟩
  change pos virt 3 < 256
  unfold lowerHalfEnd at h
  unfold pos page
  omega

/-- The flags the code looks at; the others are the CPU's and the cache's. -/
def flagMask : ℕ := present ||| writable ||| user ||| hugePage ||| noExecute

/-- The word `w` **reads as** an entry for a node of level `k`: nothing, or a frame and – for
a page – its permission. -/
def Reads (P : Part) (k w : ℕ) : Option (ℕ × Perm) → Prop
  | none => w &&& present = 0
  | some (f, perm) => w &&& addrMask = f ∧ w &&& flagMask = P.flags k perm

namespace Reads

variable {P : Part} {k w f : ℕ} {perm : Perm}

theorem zero (P : Part) (k : ℕ) : Reads P k 0 none := Nat.zero_and _

/-- A frame's address with flags reads as an entry for the frame. -/
theorem of_or (hf : IsFrame f) : Reads P k (f ||| P.flags k perm) (some (f, perm)) := by
  have hfl : P.flags k perm &&& addrMask = 0 ∧ P.flags k perm &&& flagMask = P.flags k perm := by
    unfold Part.flags Part.userBit
    split <;> cases P.forUser <;> cases perm <;> decide
  refine ⟨?_, ?_⟩
  · rw [Nat.and_or_distrib_right, hf, hfl.1, Nat.or_zero]
  · rw [Nat.and_or_distrib_right, hf.and_eq_zero (by decide), hfl.2, Nat.zero_or]

theorem or_lt (hf : IsFrame f) : f ||| P.flags k perm < 2 ^ 64 := by
  refine Nat.or_lt_two_pow (lt_of_le_of_lt (hf ▸ Nat.and_le_right) (by decide)) ?_
  unfold Part.flags Part.userBit
  split <;> cases P.forUser <;> cases perm <;> decide

theorem present_eq (h : Reads P k w none) : w &&& present = 0 := h

theorem user_ne (h : Reads P k w none) : w &&& (present ||| user) ≠ present ||| user := by
  intro he
  have hone : w &&& (present ||| user) &&& present = present := by
    rw [he]
    decide
  rw [Nat.and_assoc, show (present ||| user) &&& present = present by decide, h.present_eq] at hone
  exact absurd hone (by decide)

/-- What one of the flags, or several, are in an entry. -/
theorem and_eq (h : Reads P k w (some (f, perm))) {m : ℕ} (hm : flagMask &&& m = m) :
    w &&& m = P.flags k perm &&& m := by
  rw [← h.2, Nat.and_assoc, hm]

theorem present_ne (h : Reads P k w (some (f, perm))) : w &&& present ≠ 0 := by
  rw [h.and_eq (by decide)]
  unfold Part.flags Part.userBit
  split <;> cases P.forUser <;> cases perm <;> decide

theorem huge_eq (h : Reads P k w (some (f, perm))) : w &&& hugePage = 0 := by
  rw [h.and_eq (by decide)]
  unfold Part.flags Part.userBit
  split <;> cases P.forUser <;> cases perm <;> decide

theorem and_tableFlags (h : Reads P (k + 1) w (some (f, perm))) {virt : ℕ} (hv : P.Has virt) :
    w &&& tableFlags virt = tableFlags virt := by
  rw [hv.tableFlags_eq k perm, h.and_eq]
  · exact Nat.and_self _
  · rw [Part.flags, if_neg (Nat.succ_ne_zero k), Part.userBit]
    cases P.forUser <;> decide

theorem user_eq (h : Reads lowerHalf k w (some (f, perm))) :
    w &&& (present ||| user) = present ||| user := by
  rw [h.and_eq (by decide)]
  unfold Part.flags
  split <;> cases perm <;> decide

theorem noExecute_ne (h : Reads P 0 w (some (f, perm))) (hw : w &&& writable ≠ 0) :
    w &&& noExecute ≠ 0 := by
  rw [h.and_eq (by decide)] at hw ⊢
  revert hw
  unfold Part.flags Part.userBit
  cases P.forUser <;> cases perm <;> decide

theorem ofEntry_eq (h : Reads P 0 w (some (f, perm))) : Perm.ofEntry w = perm := by
  unfold Perm.ofEntry
  rw [h.and_eq (by decide), h.and_eq (by decide)]
  unfold Part.flags Part.userBit
  cases P.forUser <;> cases perm <;> decide

end Reads

/-! ### Trees -/

/-- **A tree of page tables**: the frame of the node at a level and a position, with the
permission of a page. -/
structure Tree where
  node : ℕ → ℕ → Option (ℕ × Perm)

namespace Tree

variable (t : Tree)

/-- The frames of the tables. -/
def tables : Set ℕ := {f | ∃ k p a, t.node (k + 1) p = some (f, a)}

/-- The tree with another node at level `k`, position `p`. -/
def set (k p : ℕ) (x : Option (ℕ × Perm)) : Tree :=
  ⟨fun j q => if j = k ∧ q = p then x else t.node j q⟩

theorem set_self (k p : ℕ) (x : Option (ℕ × Perm)) : (t.set k p x).node k p = x := if_pos ⟨rfl, rfl⟩

theorem set_of_ne {j k p q : ℕ} {x : Option (ℕ × Perm)} (h : ¬(j = k ∧ q = p)) :
    (t.set k p x).node j q = t.node j q := if_neg h

theorem set_eq_self {k p : ℕ} {x : Option (ℕ × Perm)} (h : t.node k p = x) : t.set k p x = t := by
  unfold set
  congr 1
  funext j q
  split
  · next hjq => rw [hjq.1, hjq.2, h]
  · rfl

theorem node_zero_set_succ (k p : ℕ) (x : Option (ℕ × Perm)) :
    (t.set (k + 1) p x).node 0 = t.node 0 := by
  funext q
  exact t.set_of_ne fun h => absurd h.1 (Nat.succ_ne_zero k).symm

theorem node_zero_set_zero (p : ℕ) (x : Option (ℕ × Perm)) :
    (t.set 0 p x).node 0 = Function.update (t.node 0) p x := by
  funext q
  simp only [set, true_and, Function.update_apply]

theorem tables_set_zero (p : ℕ) (x : Option (ℕ × Perm)) : (t.set 0 p x).tables = t.tables := by
  ext f
  refine exists_congr fun k => exists_congr fun q => exists_congr fun a => ?_
  rw [t.set_of_ne fun h => absurd h.1 (Nat.succ_ne_zero k)]

variable {t} {j k p q f g : ℕ} {a b : Perm}

theorem set_of_some (h : t.node k p = none) {x : ℕ × Perm} (hx : t.node j q = some x)
    (y : Option (ℕ × Perm)) : (t.set k p y).node j q = some x := by
  rw [t.set_of_ne, hx]
  rintro ⟨rfl, rfl⟩
  rw [h] at hx
  cases hx

/-- A node of the changed tree is the new one or one there was. -/
theorem some_of_set (h : (t.set k p (some (f, a))).node j q = some (g, b)) :
    (j = k ∧ q = p ∧ g = f) ∨ t.node j q = some (g, b) := by
  by_cases hjq : j = k ∧ q = p
  · rw [hjq.1, hjq.2, t.set_self, Option.some.injEq, Prod.mk.injEq] at h
    exact Or.inl ⟨hjq.1, hjq.2, h.1.symm⟩
  · exact Or.inr ((t.set_of_ne hjq).symm.trans h)

theorem tables_set_succ (h : t.node (k + 1) p = none) :
    (t.set (k + 1) p (some (f, a))).tables = insert f t.tables := by
  ext g
  constructor
  · rintro ⟨j, q, b, hj⟩
    rcases some_of_set hj with ⟨-, -, rfl⟩ | hj
    · exact Or.inl rfl
    · exact Or.inr ⟨j, q, b, hj⟩
  · rintro (rfl | ⟨j, q, b, hj⟩)
    · exact ⟨k, p, a, t.set_self ..⟩
    · exact ⟨j, q, b, set_of_some h hj _⟩

end Tree

/-- **The tables in memory are those of the tree**, and together with the frames out of
bounds they are all that is handed out. -/
structure Holds (P : Part) (D : Set ℕ) (root : ℕ) (t : Tree) (s : Mem) : Prop where
  root_eq : t.node 4 0 = some (root, .readWrite)
  level : ∀ k p, 4 < k → t.node k p = none
  only_root : ∀ p, p ≠ 0 → t.node 4 p = none
  covered : ∀ p x, t.node 3 p = some x → P.Covers p
  parent : ∀ k p, k < 4 → t.node (k + 1) (p / 512) = none → t.node k p = none
  reads : ∀ k q g a i, k < 4 → t.node (k + 1) q = some (g, a) → i < 512 → (k = 3 → P.Covers i) →
    Reads P k (s.word g i) (t.node k (512 * q + i))
  inj : ∀ k p a j q b f, t.node (k + 1) p = some (f, a) →
    t.node (j + 1) q = some (f, b) → k = j ∧ p = q
  taken : s.taken = D ∪ t.tables
  apart : ∀ f ∈ t.tables, f ∉ D

namespace Holds

variable {P : Part} {D D' : Set ℕ} {root : ℕ} {t : Tree} {s s' : Mem}

theorem mem_tables {k p f : ℕ} {a : Perm} (h : t.node (k + 1) p = some (f, a)) : f ∈ t.tables :=
  ⟨k, p, a, h⟩

/-- A table may be looked at and changed. -/
theorem usable (hs : Holds P D root t s) {f : ℕ} (hf : f ∈ t.tables) : Usable D s f :=
  ⟨hs.taken ▸ Or.inr hf, hs.apart f hf⟩

theorem subset (hs : Holds P D root t s) : D ⊆ s.taken := hs.taken ▸ Set.subset_union_left

section At

variable {virt k j : ℕ}

/-- What the code finds in a table on its way to `virt`. -/
theorem reads_at (hs : Holds P D root t s) (hv : P.Has virt) (hk : k ≤ 3) {g : ℕ} {a : Perm}
    (hg : t.node (k + 1) (pos virt (k + 1)) = some (g, a)) :
    Reads P k (s.word g (index virt k)) (t.node k (pos virt k)) := by
  rw [← pos_eq hk]
  exact hs.reads k _ g a _ (Nat.lt_succ_of_le hk) hg (index_lt virt k) hv.covers_index

theorem none_at (hs : Holds P D root t s) (h : t.node k (pos virt k) = none) (hk : k ≤ 4)
    (hj : j ≤ k) :
    t.node j (pos virt j) = none := by
  induction k with
  | zero => exact (Nat.le_zero.1 hj) ▸ h
  | succ k ih =>
    rcases Nat.lt_or_eq_of_le hj with hlt | rfl
    · refine ih (hs.parent k _ (by omega) ?_) (by omega) (by omega)
      rw [← pos_succ]
      exact h
    · exact h

end At

/-- Only what the tables hold matters. -/
theorem congr (hs : Holds P D root t s) (hcontent : ∀ g ∈ t.tables, s'.content g = s.content g)
    (htaken : s'.taken = D' ∪ t.tables) (hapart : ∀ f ∈ t.tables, f ∉ D') :
    Holds P D' root t s' where
  root_eq := hs.root_eq
  level := hs.level
  only_root := hs.only_root
  covered := hs.covered
  parent := hs.parent
  reads k q g a i hk hg hi hc := by
    rw [Mem.word_congr (hcontent g (mem_tables hg))]
    exact hs.reads k q g a i hk hg hi hc
  inj := hs.inj
  taken := htaken
  apart := hapart

/-- A frame is handed out. -/
theorem take (hs : Holds P D root t s) {f : ℕ} (hf : f ∉ s.taken) :
    Holds P (insert f D) root t (s.take f) := by
  have hne : ∀ g ∈ t.tables, g ≠ f := fun g hg he => hf (hs.taken ▸ Or.inr (he ▸ hg))
  refine hs.congr (fun g hg => Mem.content_take_of_ne (hne g hg)) ?_ fun g hg => ?_
  · rw [Mem.take, hs.taken, Set.insert_union]
  · rintro (he | hD)
    · exact hne g hg he
    · exact hs.apart g hg hD

/-- A frame is given back. -/
theorem free (hs : Holds P (insert f D) root t s) (hf : f ∉ D) (htaken : s'.taken = s.taken \ {f})
    (hcontent : ∀ g ≠ f, s'.content g = s.content g) : Holds P D root t s' := by
  have hne : ∀ g ∈ t.tables, g ≠ f := fun g hg he => hs.apart g hg (Or.inl he)
  refine hs.congr (fun g hg => hcontent g (hne g hg)) ?_ fun g hg hD => hs.apart g hg (Or.inr hD)
  rw [htaken, hs.taken, Set.insert_union]
  refine Set.insert_sdiff_self_of_notMem ?_
  rintro (hD | ht)
  · exact hf hD
  · exact hne f ht rfl

/-- An entry of a page table is changed. -/
theorem setPage (hs : Holds P D root t s) {q g i w : ℕ} {a : Perm} {x : Option (ℕ × Perm)}
    (hg : t.node 1 q = some (g, a)) (hi : i < 512) (hw : Reads P 0 w x) (hlt : w < 2 ^ 64) :
    Holds P D root (t.set 0 (512 * q + i) x) (s.setWord g i w) := by
  have hnode : ∀ k p, (t.set 0 (512 * q + i) x).node (k + 1) p = t.node (k + 1) p :=
    fun k p => t.set_of_ne fun h => absurd h.1 (Nat.succ_ne_zero k)
  refine ⟨(hnode 3 0).trans hs.root_eq, fun k p hk => ?_,
    fun p hp => (hnode 3 p).trans (hs.only_root p hp),
    fun p y hy => hs.covered p y ((hnode 2 p) ▸ hy), fun k p hk hp => ?_,
    fun k q' g' a' i' hk hg' hi' hc => ?_,
    fun k p a1 j q1 b f h1 h2 => hs.inj k p a1 j q1 b f (hnode k p ▸ h1) (hnode j q1 ▸ h2), ?_, ?_⟩
  · obtain ⟨k, rfl⟩ := Nat.exists_eq_add_of_lt hk
    exact (hnode _ p).trans (hs.level _ p hk)
  · rw [hnode] at hp
    cases k with
    | succ k => exact (hnode k p).trans (hs.parent (k + 1) p hk hp)
    | zero =>
      rcases eq_or_ne p (512 * q + i) with rfl | hne
      · rw [show (512 * q + i) / 512 = q by omega, hg] at hp
        cases hp
      · exact (t.set_of_ne fun h => hne h.2).trans (hs.parent 0 p hk hp)
  · rw [hnode] at hg'
    by_cases hsame : g' = g ∧ i' = i
    · obtain ⟨rfl, rfl⟩ := hsame
      obtain ⟨rfl, rfl⟩ := hs.inj k q' a' 0 q a g' hg' hg
      rw [Mem.word_setWord_self hi hlt, t.set_self]
      exact hw
    · rw [Mem.word_setWord_of_ne hsame, t.set_of_ne]
      · exact hs.reads k q' g' a' i' hk hg' hi' hc
      · rintro ⟨rfl, hpos⟩
        obtain ⟨rfl, rfl⟩ : q' = q ∧ i' = i := by omega
        rw [hg, Option.some.injEq, Prod.mk.injEq] at hg'
        exact hsame ⟨hg'.1.symm, rfl⟩
  · rw [t.tables_set_zero]
    exact hs.taken
  · rw [t.tables_set_zero]
    exact hs.apart

theorem setTable (hs : Holds P (insert f D) root t s) (hf : f ∉ D) (hfr : IsFrame f)
    (hz : ∀ i, s.word f i = 0) {k q g i : ℕ} {a b : Perm} (hk : k + 1 < 4)
    (hg : t.node (k + 2) q = some (g, a))
    (hi : i < 512) (hc : k + 1 = 3 → P.Covers i) (hnone : t.node (k + 1) (512 * q + i) = none) :
    Holds P D root (t.set (k + 1) (512 * q + i) (some (f, b)))
      (s.setWord g i (f ||| P.flags (k + 1) b)) := by
  have hft : f ∉ t.tables := fun h => hs.apart f h (Set.mem_insert f D)
  refine ⟨Tree.set_of_some hnone hs.root_eq _, fun j p hj => ?_, fun p hp => ?_, fun p x hx => ?_,
    fun j p hj hp => ?_, fun j q' g' a' i' hj hg' hi' hc' =>
      ?_, fun j p a1 j' q1 b1 f1 h1 h2 => ?_, ?_, ?_⟩
  · exact (t.set_of_ne (by omega)).trans (hs.level j p hj)
  · exact (t.set_of_ne (by omega)).trans (hs.only_root p hp)
  · rcases Tree.some_of_set hx with ⟨hk3, rfl, -⟩ | hx
    · have hq : q = 0 := by
        by_contra hne
        rw [show k + 2 = 4 by omega, hs.only_root q hne] at hg
        cases hg
      rw [hq, Nat.mul_zero, Nat.zero_add]
      exact hc hk3.symm
    · exact hs.covered p x hx
  · have hjp : ¬(j = k + 1 ∧ p = 512 * q + i) := by
      rintro ⟨rfl, rfl⟩
      rw [show (512 * q + i) / 512 = q by omega, Tree.set_of_some hnone hg] at hp
      cases hp
    rw [t.set_of_ne hjp]
    refine hs.parent j p hj (Option.eq_none_iff_forall_ne_some.2 fun x hx => ?_)
    rw [Tree.set_of_some hnone hx] at hp
    cases hp
  · rcases Tree.some_of_set hg' with ⟨hjk, rfl, rfl⟩ | hold
    · -- the new table is empty, and the tree has nothing below it
      obtain rfl : j = k := by omega
      have hne : ¬(g' = g ∧ i' = i) := fun h => hft (mem_tables (h.1 ▸ hg))
      rw [Mem.word_setWord_of_ne hne, hz, t.set_of_ne (by omega), hs.parent j _ hj]
      · exact Reads.zero P j
      · rw [show (512 * (512 * q + i) + i') / 512 = 512 * q + i by omega]
        exact hnone
    · by_cases hsame : g' = g ∧ i' = i
      · obtain ⟨rfl, rfl⟩ := hsame
        obtain ⟨rfl, rfl⟩ := hs.inj j q' a' (k + 1) q a g' hold hg
        rw [Mem.word_setWord_self hi (Reads.or_lt hfr), t.set_self]
        exact Reads.of_or hfr
      · rw [Mem.word_setWord_of_ne hsame, t.set_of_ne]
        · exact hs.reads j q' g' a' i' hj hold hi' hc'
        · rintro ⟨rfl, hpos⟩
          obtain ⟨rfl, rfl⟩ : q' = q ∧ i' = i := by omega
          rw [hg, Option.some.injEq, Prod.mk.injEq] at hold
          exact hsame ⟨hold.1.symm, rfl⟩
  · rcases Tree.some_of_set h1 with ⟨hj, rfl, rfl⟩ | hold1 <;>
      rcases Tree.some_of_set h2 with ⟨hj', rfl, he⟩ | hold2
    · exact ⟨by omega, rfl⟩
    · exact absurd (mem_tables hold2) hft
    · exact absurd (mem_tables (he ▸ hold1)) hft
    · exact hs.inj j p a1 j' q1 b1 f1 hold1 hold2
  · rw [Tree.tables_set_succ hnone]
    change s.taken = _
    rw [hs.taken, Set.insert_union, Set.union_insert]
  · rw [Tree.tables_set_succ hnone]
    rintro f' (rfl | hf')
    · exact hf
    · exact fun hD => hs.apart f' hf' (Or.inr hD)

end Holds

end RelayOs.Mm
