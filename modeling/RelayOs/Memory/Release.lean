import RelayOs.Memory.Walk

/-!
# Giving a whole tree back

A program's tables and pages are freed from the top: an entry of the PML4 is emptied, and
what it led to is freed table by table, pages first. While that goes on the tables that
are still there hold what they held at the start, so every frame of the tree is met once, on
the way down. What has been given back after a part of the walk is a set of frames
(`RelayOs.Mm.Freed`), and one statement says what each step adds to it.
-/

namespace RelayOs.Mm

open Prog

/-- The frames of the pages `m`. -/
def frames (m : Pages) : Set ℕ := {f | ∃ p a, m p = some (f, a)}

/-- **The tree is the program's own**: its tables are in memory, and its pages are nobody
else's (`B`) and none of them is mapped twice. -/
structure Owns (B : Set ℕ) (root : ℕ) (t : Tree) (s : Mem) : Prop where
  holds : Holds lowerHalf (B ∪ frames (t.node 0)) root t s
  apart : ∀ f ∈ frames (t.node 0), f ∉ B
  pages_inj : ∀ p q f a b, t.node 0 p = some (f, a) → t.node 0 q = some (f, b) → p = q

namespace Owns

variable {B : Set ℕ} {root : ℕ} {t : Tree} {s : Mem}

theorem usable (h : Owns B root t s) {k p f : ℕ} {a : Perm} (hf : t.node k p = some (f, a)) :
    Usable B s f := by
  cases k with
  | zero => exact ⟨h.holds.subset (Or.inr ⟨p, a, hf⟩), h.apart f ⟨p, a, hf⟩⟩
  | succ k =>
    have := h.holds.usable (Holds.mem_tables hf)
    exact ⟨this.1, fun hB => this.2 (Or.inl hB)⟩

/-- No frame is two nodes of the tree. -/
theorem inj (h : Owns B root t s) {k p j q f : ℕ} {a b : Perm} (h1 : t.node k p = some (f, a))
    (h2 : t.node j q = some (f, b)) : k = j ∧ p = q := by
  have htable : ∀ {i q' p' c d}, t.node (i + 1) p' = some (f, c) →
      t.node 0 q' = some (f, d) → False :=
    fun {i q' p' c d} h1 h2 => h.holds.apart f (Holds.mem_tables h1) (Or.inr ⟨q', d, h2⟩)
  cases k with
  | zero =>
    cases j with
    | zero => exact ⟨rfl, h.pages_inj p q f a b h1 h2⟩
    | succ j => exact (htable h2 h1).elim
  | succ k =>
    cases j with
    | zero => exact (htable h1 h2).elim
    | succ j =>
      obtain ⟨rfl, rfl⟩ := h.holds.inj k p a j q b f h1 h2
      exact ⟨rfl, rfl⟩

/-- The nodes over a node are there. -/
theorem ancestor (h : Owns B root t s) {j q i : ℕ} {x : ℕ × Perm} (hx : t.node j q = some x)
    (hi : j + i ≤ 4) :
    ∃ y, t.node (j + i) (q / 512 ^ i) = some y := by
  induction i with
  | zero => exact ⟨x, by rw [pow_zero, Nat.div_one]; exact hx⟩
  | succ i ih =>
    obtain ⟨y, hy⟩ := ih (by omega)
    cases hz : t.node (j + (i + 1)) (q / 512 ^ (i + 1)) with
    | some z => exact ⟨z, rfl⟩
    | none =>
      rw [pow_succ, ← Nat.div_div_eq_div_mul] at hz
      rw [h.holds.parent (j + i) _ (by omega) hz] at hy
      cases hy

end Owns

/-! ### What is below a node -/

namespace Tree

variable (t : Tree)

/-- The frames of the node at level `k`, position `p`, and of all below it. -/
def below (k p : ℕ) : Set ℕ :=
  {f | ∃ i j q a, t.node j q = some (f, a) ∧ j + i = k ∧ q / 512 ^ i = p}

/-- The frames below the first `n` entries of the node one level up at position `p`. -/
def belowFirst (k p n : ℕ) : Set ℕ := {f | ∃ i < n, f ∈ t.below k (512 * p + i)}

theorem belowFirst_zero (k p : ℕ) : t.belowFirst k p 0 = ∅ :=
  Set.eq_empty_of_forall_notMem fun _ ⟨_, hi, _⟩ => Nat.not_lt_zero _ hi

theorem belowFirst_succ (k p n : ℕ) :
    t.belowFirst k p (n + 1) = t.belowFirst k p n ∪ t.below k (512 * p + n) := by
  ext f
  constructor
  · rintro ⟨i, hi, hf⟩
    rcases Nat.lt_succ_iff_lt_or_eq.1 hi with hlt | rfl
    · exact Or.inl ⟨i, hlt, hf⟩
    · exact Or.inr hf
  · rintro (⟨i, hi, hf⟩ | hf)
    · exact ⟨i, Nat.lt_succ_of_lt hi, hf⟩
    · exact ⟨n, Nat.lt_succ_self n, hf⟩

variable {t} {k p f : ℕ}

theorem mem_below_self {a : Perm} (h : t.node k p = some (f, a)) : f ∈ t.below k p :=
  ⟨0, k, p, a, h, rfl, by rw [pow_zero, Nat.div_one]⟩

theorem below_zero {a : Perm} (h : t.node 0 p = some (f, a)) : t.below 0 p = {f} := by
  ext g
  constructor
  · rintro ⟨i, j, q, b, hq, hj, hp⟩
    obtain ⟨rfl, rfl⟩ : j = 0 ∧ i = 0 := by omega
    rw [pow_zero, Nat.div_one] at hp
    rw [hp, h, Option.some.injEq, Prod.mk.injEq] at hq
    exact hq.1.symm
  · rintro rfl
    exact mem_below_self h

theorem below_succ {a : Perm} (h : t.node (k + 1) p = some (f, a)) :
    t.below (k + 1) p = insert f (t.belowFirst k p 512) := by
  ext g
  constructor
  · rintro ⟨i, j, q, b, hq, hj, hp⟩
    cases i with
    | zero =>
      rw [pow_zero, Nat.div_one] at hp
      rw [Nat.add_zero] at hj
      rw [hj, hp, h, Option.some.injEq, Prod.mk.injEq] at hq
      exact Or.inl hq.1.symm
    | succ i =>
      rw [pow_succ, ← Nat.div_div_eq_div_mul] at hp
      exact Or.inr ⟨q / 512 ^ i % 512, Nat.mod_lt _ (by norm_num), i, j, q, b,
        hq, by omega, by omega⟩
  · rintro (rfl | ⟨n, hn, i, j, q, b, hq, hj, hp⟩)
    · exact mem_below_self h
    · refine ⟨i + 1, j, q, b, hq, by omega, ?_⟩
      rw [pow_succ, ← Nat.div_div_eq_div_mul, hp]
      omega

end Tree

namespace Owns

variable {B : Set ℕ} {root : ℕ} {t : Tree} {s : Mem} {k p q f : ℕ}

section

variable (h : Owns B root t s)

include h

theorem below_eq_empty (hk : k ≤ 4) (hnone : t.node k p = none) : t.below k p = ∅ := by
  refine Set.eq_empty_of_forall_notMem fun f => ?_
  rintro ⟨i, j, q, a, hq, rfl, rfl⟩
  obtain ⟨y, hy⟩ := h.ancestor hq hk
  rw [hnone] at hy
  cases hy

theorem below_disjoint (hpq : p ≠ q) : Disjoint (t.below k p) (t.below k q) := by
  refine Set.disjoint_left.2 fun f => ?_
  rintro ⟨i, j, p', a, hp', hj, rfl⟩ ⟨i', j', q', b, hq', hj', rfl⟩
  obtain ⟨rfl, rfl⟩ := h.inj hp' hq'
  obtain rfl : i = i' := by omega
  exact hpq rfl

theorem belowFirst_disjoint (n : ℕ) :
    Disjoint (t.belowFirst k p n) (t.below k (512 * p + n)) := by
  refine Set.disjoint_left.2 fun f => ?_
  rintro ⟨i, hi, hf⟩
  exact Set.disjoint_left.1 (h.below_disjoint (by omega)) hf

theorem notMem_below (hf : f ∈ t.below k p) : f ∉ B := by
  obtain ⟨i, j, q, a, hq, -⟩ := hf
  exact (h.usable hq).2

theorem notMem_belowFirst {a : Perm} (hf : t.node (k + 1) p = some (f, a)) (n : ℕ) :
    f ∉ t.belowFirst k q n := by
  rintro ⟨i, -, i', j, q', b, hq', hj, -⟩
  have := (h.inj hf hq').1
  omega

theorem mem_belowFirst {a : Perm} (hk : k < 4) (hf : t.node k p = some (f, a)) :
    f ∈ t.belowFirst 3 0 256 := by
  obtain ⟨y, hy⟩ := h.ancestor (i := 3 - k) hf (by omega)
  rw [show k + (3 - k) = 3 by omega] at hy
  have hcovers := h.holds.covered _ y hy
  exact ⟨p / 512 ^ (3 - k), hcovers.2, 3 - k, k, p, a, hf, by omega, by omega⟩

theorem taken_diff : s.taken \ t.belowFirst 3 0 256 = insert root B := by
  ext g
  constructor
  · rintro ⟨hg, hnot⟩
    rw [h.holds.taken] at hg
    rcases hg with (hB | ⟨p, a, hp⟩) | ⟨k, p, a, hp⟩
    · exact Or.inr hB
    · exact absurd (h.mem_belowFirst (by norm_num) hp) hnot
    · rcases Nat.lt_trichotomy (k + 1) 4 with hlt | heq | hgt
      · exact absurd (h.mem_belowFirst hlt hp) hnot
      · rw [heq] at hp
        by_cases hp0 : p = 0
        · rw [hp0, h.holds.root_eq, Option.some.injEq, Prod.mk.injEq] at hp
          exact Or.inl hp.1.symm
        · rw [h.holds.only_root p hp0] at hp
          cases hp
      · rw [h.holds.level _ p hgt] at hp
        cases hp
  · rintro (rfl | hg)
    · exact ⟨(h.usable h.holds.root_eq).1, h.notMem_belowFirst h.holds.root_eq 256⟩
    · exact ⟨h.holds.subset (Or.inl hg), fun ⟨_, _, hf⟩ => h.notMem_below hf hg⟩

end

end Owns

/-! ### The walk -/

/-- **The frames `F` have been given back** since `s`, and nothing else has changed but the
PML4. -/
structure Freed (root : ℕ) (s : Mem) (F : Set ℕ) (s' : Mem) : Prop where
  taken : s'.taken = s.taken \ F
  content : ∀ g, g ∉ F → g ≠ root → s'.content g = s.content g

section Walk

variable {B F : Set ℕ} {root : ℕ} {t : Tree} {s s' : Mem} {k p f : ℕ} {a : Perm}

theorem Freed.usable (hF : Freed root s F s') (h : Owns B root t s) (hf : t.node k p = some (f, a))
    (hfF : f ∉ F) : Usable B s' f :=
  ⟨hF.taken ▸ ⟨(h.usable hf).1, hfF⟩, (h.usable hf).2⟩

theorem Owns.ne_root (h : Owns B root t s) (hk : k < 4) (hf : t.node k p = some (f, a)) :
    f ≠ root := by
  rintro rfl
  have := (h.inj hf h.holds.root_eq).1
  omega

theorem Freed.usable_below (hF : Freed root s F s') (h : Owns B root t s) (hk : k < 4)
    (hf : t.node k p = some (f, a)) (hfF : f ∉ F) : Usable (insert root B) s' f :=
  ⟨(hF.usable h hf hfF).1, not_or.2 ⟨h.ne_root hk hf, (h.usable hf).2⟩⟩

theorem wp_freeFrame_freed (h : Owns B root t s) (hk : k < 4) (hf : t.node k p = some (f, a))
    (hF : Freed root s F s') (hfF : f ∉ F) :
    wp (spec (insert root B)) (freeFrame f) (fun _ s'' => Freed root s (insert f F) s'') s' := by
  rw [wp_freeFrame]
  refine ⟨hF.usable_below h hk hf hfF, fun s'' htaken hcontent _ => ⟨?_, fun g hg hne => ?_⟩⟩
  · rw [htaken, hF.taken, Set.sdiff_sdiff, Set.union_singleton]
  · obtain ⟨hgf, hgF⟩ := not_or.1 hg
    rw [hcontent g hgf, hF.content g hgF hne]

theorem wp_freeEntries {g : ℕ} {free : ℕ → Prog physMem Unit} (h : Owns B root t s) (hk : k < 3)
    (hg : t.node (k + 1) p = some (g, a))
    (hfree : ∀ q c b F s', t.node k q = some (c, b) → Freed root s F s' → Disjoint F (t.below k q) →
      wp (spec (insert root B)) (free c) (fun _ s'' => Freed root s (F ∪ t.below k q) s'') s')
    (hF : Freed root s F s') (hd : Disjoint F (t.below (k + 1) p)) :
    wp (spec (insert root B)) (upTo (freeEntry g free) 512)
      (fun _ s'' => Freed root s (F ∪ t.belowFirst k p 512) s'') s' := by
  have hgF : g ∉ F := fun hgF => Set.disjoint_left.1 hd hgF (Tree.mem_below_self hg)
  refine wp_upTo (I := fun i s'' => Freed root s (F ∪ t.belowFirst k p i) s'')
    (fun i hi s'' hs'' => ?_) ?_
  · have hnot : g ∉ F ∪ t.belowFirst k p i := not_or.2 ⟨hgF, h.notMem_belowFirst hg i⟩
    have hreads := h.holds.reads k p g a i (by omega) hg hi (by omega)
    rw [← Mem.word_congr (hs''.content g hnot (h.ne_root (by omega) hg))] at hreads
    unfold freeEntry
    rw [bind_eq, wp_bind, wp_word, t.belowFirst_succ, ← Set.union_assoc]
    refine ⟨⟨hs''.usable_below h (by omega) hg hnot, hi⟩, ?_⟩
    cases hnode : t.node k (512 * p + i) with
    | none =>
      rw [hnode] at hreads
      rw [if_pos hreads.present_eq, h.below_eq_empty (by omega) hnode, Set.union_empty]
      exact hs''
    | some x =>
      obtain ⟨c, b⟩ := x
      rw [hnode] at hreads
      rw [if_neg hreads.present_ne, hreads.1]
      refine hfree _ c b _ s'' hnode hs''
        (Set.disjoint_union_left.2 ⟨hd.mono_right ?_, h.belowFirst_disjoint i⟩)
      rw [Tree.below_succ hg]
      exact fun f hf => Or.inr ⟨i, hi, hf⟩
  · rw [t.belowFirst_zero, Set.union_empty]
    exact hF

theorem wp_freeFrame_last {c : ℕ} (h : Owns B root t s) (hk : k < 3)
    (hc : t.node (k + 1) p = some (c, a))
    (hd : Disjoint F (t.below (k + 1) p)) (hF : Freed root s (F ∪ t.belowFirst k p 512) s') :
    wp (spec (insert root B)) (freeFrame c)
      (fun _ s'' => Freed root s (F ∪ t.below (k + 1) p) s'') s' := by
  rw [Tree.below_succ hc, Set.union_insert]
  refine wp_freeFrame_freed h (by omega) hc hF
    (not_or.2 ⟨fun hcF => ?_, h.notMem_belowFirst hc 512⟩)
  exact Set.disjoint_left.1 hd hcF (Tree.mem_below_self hc)

/-- **Freeing a table** gives back it and all below it. -/
theorem wp_freeTable {level c : ℕ} (h : Owns B root t s) (hl : level < 3)
    (hc : t.node (level + 1) p = some (c, a)) (hF : Freed root s F s')
    (hd : Disjoint F (t.below (level + 1) p)) :
    wp (spec (insert root B)) (freeTable level c)
      (fun _ s'' => Freed root s (F ∪ t.below (level + 1) p) s'') s' := by
  induction level generalizing p c a F s' with
  | zero =>
    unfold freeTable
    rw [bind_eq, wp_bind]
    refine wp_mono (wp_freeEntries h hl hc (fun q c' b F' s1 hq hF' hd' => ?_) hF hd)
      fun _ s'' hs'' =>
      wp_freeFrame_last h hl hc hd hs''
    rw [Tree.below_zero hq] at hd' ⊢
    rw [Set.union_singleton]
    exact wp_freeFrame_freed h (by norm_num) hq hF' (Set.disjoint_singleton_right.1 hd')
  | succ level ih =>
    unfold freeTable
    rw [bind_eq, wp_bind]
    refine wp_mono (wp_freeEntries h hl hc (fun q c' b F' s1 hq hF' hd' => ?_) hF hd)
      fun _ s'' hs'' =>
      wp_freeFrame_last h hl hc hd hs''
    exact ih (by omega) hq hF' hd'

/-- What is left of the walk over the PML4: the entries from `i` on are as they were. -/
structure FreedTop (root : ℕ) (t : Tree) (s : Mem) (i : ℕ) (s' : Mem) : Prop where
  freed : Freed root s (t.belowFirst 3 0 i) s'
  rest : ∀ j, i ≤ j → s'.word root j = s.word root j

theorem wp_freeTop {i : ℕ} (h : Owns B root t s) (hi : i < 256) (hF : FreedTop root t s i s') :
    wp (spec B) (freeTop root i) (fun _ s'' => FreedTop root t s (i + 1) s'') s' := by
  have hroot := h.holds.root_eq
  have hnot : root ∉ t.belowFirst 3 0 i := h.notMem_belowFirst hroot i
  have hreads := h.holds.reads 3 0 root .readWrite i (by norm_num) hroot (by omega) fun _ =>
    ⟨Nat.zero_le i, hi⟩
  have husable := hF.freed.usable h hroot hnot
  rw [← hF.rest i le_rfl] at hreads
  unfold freeTop freeEntry
  rw [bind_eq, wp_bind, wp_word]
  refine ⟨⟨husable, by omega⟩, ?_⟩
  cases hnode : t.node 3 (512 * 0 + i) with
  | none =>
    rw [hnode] at hreads
    rw [if_pos hreads.present_eq]
    refine ⟨?_, fun j hj => hF.rest j (by omega)⟩
    rw [t.belowFirst_succ, h.below_eq_empty (by norm_num) hnode, Set.union_empty]
    exact hF.freed
  | some x =>
    obtain ⟨c, b⟩ := x
    rw [hnode] at hreads
    have hemptied : Freed root s (t.belowFirst 3 0 i) (s'.setWord root i 0) :=
      ⟨hF.freed.taken, fun g hg hne => (Mem.content_setWord_of_ne hne).trans
        (hF.freed.content g hg hne)⟩
    have hfreed := wp_freeTable h (by norm_num) hnode hemptied (h.belowFirst_disjoint i)
    have hsub : insert root B ⊆ (s'.setWord root i 0).taken := by
      rintro g (rfl | hg)
      · exact husable.1
      · exact hF.freed.taken ▸ ⟨h.holds.subset (Or.inl hg),
          fun hgF => h.notMem_below (hgF.choose_spec.2) hg⟩
    rw [if_neg hreads.present_ne, hreads.1]
    simp only [bind_eq, wp_bind, wp_setWord]
    refine ⟨⟨husable, by omega, by norm_num⟩, ?_⟩
    -- the PML4 is out of bounds for the walk below it, so what is left of it stays
    refine wp_anti (Set.subset_insert root B)
      (wp_mono (wp_untouched hsub hfreed) fun _ s'' hs'' => ?_)
    refine ⟨t.belowFirst_succ 3 0 i ▸ hs''.1, fun j hj => ?_⟩
    rw [Mem.word_congr (hs''.2.2 root (Set.mem_insert root B)), Mem.word_setWord_of_ne (by omega)]
    exact hF.rest j (by omega)

/-- **Emptying the lower half** gives back every table and page below the PML4. -/
theorem wp_freeLowerHalf (h : Owns B root t s) :
    wp (spec B) (freeLowerHalf root) (fun _ s' => s'.taken = insert root B) s := by
  refine wp_mono (wp_upTo (I := FreedTop root t s) (fun i hi s' hs' => wp_freeTop h hi hs') ?_)
    fun _ s' hs' => ?_
  · refine ⟨⟨?_, fun g _ _ => rfl⟩, fun j _ => rfl⟩
    rw [t.belowFirst_zero, Set.sdiff_empty]
  · rw [hs'.freed.taken]
    exact h.taken_diff

end Walk

end RelayOs.Mm
