import RelayOs.Memory.Release
import RelayOs.Memory.Space

/-!
# A program's pages

What matters of a program's tables is which pages they map, to which frames and with which
permissions: a map `m` from page numbers. `RelayOs.Mm.Has` says that a PML4 in memory maps
the pages `m` and that they and the tables are the program's own. Mapping and unmapping are
stated as what they do to `m` and to what the pages hold; the tables are not seen any more.
-/

namespace RelayOs.Mm

open Prog AddressSpace

/-- **The PML4 maps the pages `m`**, and they and the tables are the program's own. -/
def Has (B : Set ℕ) (root : ℕ) (m : Pages) (s : Mem) : Prop := ∃ t, Owns B root t s ∧ t.node 0 = m

variable {B : Set ℕ} {root : ℕ} {m m' : Pages} {s s' : Mem} {p f v : ℕ} {perm : Perm}

theorem mem_frames (h : m p = some (f, perm)) : f ∈ frames m := ⟨p, perm, h⟩

theorem some_of_update {q g : ℕ} {a : Perm}
    (h : Function.update m p (some (f, perm)) q = some (g, a)) :
    (q = p ∧ g = f) ∨ m q = some (g, a) := by
  rcases eq_or_ne q p with rfl | hne
  · rw [Function.update_self, Option.some.injEq, Prod.mk.injEq] at h
    exact Or.inl ⟨rfl, h.1.symm⟩
  · exact Or.inr ((Function.update_of_ne hne ..).symm.trans h)

theorem frames_update (h : m p = none) :
    frames (Function.update m p (some (f, perm))) = insert f (frames m) := by
  ext g
  constructor
  · rintro ⟨q, a, hq⟩
    rcases some_of_update hq with ⟨-, rfl⟩ | hq
    · exact Or.inl rfl
    · exact Or.inr ⟨q, a, hq⟩
  · rintro (rfl | ⟨q, a, hq⟩)
    · exact ⟨p, perm, Function.update_self ..⟩
    · refine ⟨q, a, (Function.update_of_ne ?_ ..).trans hq⟩
      rintro rfl
      rw [h] at hq
      cases hq

/-- What the pages hold may change. -/
theorem Owns.setBytes {t : Tree} (h : Owns B root t s) (hf : f ∈ frames (t.node 0)) (i : ℕ)
    (data : Bytes) :
    Owns B root t (s.setBytes f i data) := by
  refine ⟨h.holds.congr (fun g hg => Mem.content_setBytes_of_ne ?_) h.holds.taken h.holds.apart,
    h.apart, h.pages_inj⟩
  rintro rfl
  exact h.holds.apart g hg (Or.inr hf)

namespace Has

/-- No frame is mapped twice. -/
theorem inj (h : Has B root m s) {q : ℕ} {a b : Perm} (h1 : m p = some (f, a))
    (h2 : m q = some (f, b)) :
    p = q := by
  obtain ⟨t, ht, rfl⟩ := h
  exact ht.pages_inj p q f a b h1 h2

/-- A page is the program's. -/
theorem usable (h : Has B root m s) (hf : f ∈ frames m) : Usable B s f := by
  obtain ⟨t, ht, rfl⟩ := h
  obtain ⟨p, a, hp⟩ := hf
  exact ht.usable hp

theorem subset (h : Has B root m s) : B ⊆ s.taken := by
  obtain ⟨t, ht, rfl⟩ := h
  exact Set.subset_union_left.trans ht.holds.subset

/-- What the pages hold may change. -/
theorem setBytes (h : Has B root m s) (hf : f ∈ frames m) (i : ℕ) (data : Bytes) :
    Has B root m (s.setBytes f i data) := by
  obtain ⟨t, ht, rfl⟩ := h
  exact ⟨t, ht.setBytes hf i data, rfl⟩

end Has

/-- A frame that was nobody's is a page of the program's. -/
theorem Owns.add {t t' : Tree} (h : Owns B root t s) (hf : f ∉ s.taken) (hp : t.node 0 p = none)
    (ht' : Holds lowerHalf (insert f (B ∪ frames (t.node 0))) root t' s')
    (hpages : t'.node 0 = Function.update (t.node 0) p (some (f, perm))) : Owns B root t' s' := by
  have hfm : f ∉ frames (t.node 0) := fun hc => hf (h.holds.subset (Or.inr hc))
  have hframes : frames (t'.node 0) = insert f (frames (t.node 0)) := hpages ▸ frames_update hp
  refine ⟨?_, ?_, fun q1 q2 g a b h1 h2 => ?_⟩
  · rw [hframes, Set.union_insert]
    exact ht'
  · rw [hframes]
    rintro g (rfl | hg)
    · exact fun hB => hf (h.holds.subset (Or.inl hB))
    · exact h.apart g hg
  · rw [hpages] at h1 h2
    rcases some_of_update h1 with ⟨rfl, rfl⟩ | h1' <;> rcases some_of_update h2 with ⟨rfl, hg⟩ | h2'
    · rfl
    · exact absurd (mem_frames h2') hfm
    · exact absurd (mem_frames (hg ▸ h1')) hfm
    · exact h.pages_inj q1 q2 g a b h1' h2'

/-! ### Mapping fresh pages -/

/-- **Fresh pages `V` have been added** to the pages `m`: they were not there, and they are
filled with zeros; the others are as they were, and hold what they held. -/
structure Added (m : Pages) (s : Mem) (V : Set ℕ) (perm : Perm) (m' : Pages) (s' : Mem) : Prop where
  old : ∀ p, p ∉ V → m' p = m p
  new : ∀ p ∈ V, m p = none ∧ ∃ f, m' p = some (f, perm) ∧ s'.content f = Mem.zeros
  content : ∀ f ∈ frames m, s'.content f = s.content f

namespace Added

variable {V W : Set ℕ} {m1 : Pages} {s1 : Mem}

theorem eq_of_empty (h : Added m s ∅ perm m' s') : m' = m :=
  funext fun p => h.old p (Set.notMem_empty p)

theorem none (h : ∀ f ∈ frames m, s'.content f = s.content f) : Added m s ∅ perm m s' :=
  ⟨fun _ _ => rfl, fun _ hp => absurd hp (Set.notMem_empty _), h⟩

theorem frames_subset (h : Added m s V perm m' s') : frames m ⊆ frames m' := by
  rintro f ⟨p, a, hp⟩
  refine ⟨p, a, (h.old p fun hV => ?_).trans hp⟩
  rw [(h.new p hV).1] at hp
  cases hp

theorem trans (h : Added m s V perm m1 s1) (h' : Added m1 s1 W perm m' s') :
    Added m s (V ∪ W) perm m' s' := by
  have hVW : ∀ p ∈ V, p ∉ W := fun p hV hW => by
    obtain ⟨-, f, hf, -⟩ := h.new p hV
    rw [(h'.new p hW).1] at hf
    cases hf
  refine ⟨fun p hp => ?_, fun p hp => ?_, fun f hf => ?_⟩
  · obtain ⟨hV, hW⟩ := not_or.1 hp
    rw [h'.old p hW, h.old p hV]
  · rcases hp with hV | hW
    · obtain ⟨hnone, f, hf, hzero⟩ := h.new p hV
      exact ⟨hnone, f, (h'.old p (hVW p hV)).trans hf, (h'.content f (mem_frames hf)).trans hzero⟩
    · refine ⟨?_, (h'.new p hW).2⟩
      rw [← h.old p fun hV => hVW p hV hW]
      exact (h'.new p hW).1
  · exact (h'.content f (h.frames_subset hf)).trans (h.content f hf)

end Added

theorem wp_mapFresh (h : Has B root m s) :
    wp (spec B) (mapFresh root v perm).run (fun r s' => ∃ m', Has B root m' s' ∧
      match r with
      | .ok () => (v % page = 0 ∧ v < lowerHalfEnd) ∧ Added m s {v / page} perm m' s'
      | .error e => Added m s ∅ perm m' s' ∧ Refused m v s' e) s := by
  obtain ⟨t, ht, rfl⟩ := h
  unfold mapFresh
  rw [wp_except_bind, wp_newFrame]
  refine ⟨fun hshort => ⟨_, ⟨t, ht, rfl⟩, Added.none fun _ _ => rfl, Or.inl ⟨rfl, hshort⟩⟩,
    fun f hf hfr => ?_⟩
  have hfD : f ∉ B ∪ frames (t.node 0) := fun hc => hf (ht.holds.subset hc)
  have htake := ht.holds.take hf
  have hcontent : ∀ g ∈ frames (t.node 0), (s.take f).content g = s.content g := fun g hg =>
    Mem.content_take_of_ne fun he => hfD (Or.inr (he ▸ hg))
  have hmap := wp_untouched htake.subset (wp_mapUser htake hfr v perm)
  change wp (spec B) (((mapUser root v f perm).run).bind (keepOrFree f)) _ _
  rw [wp_bind]
  refine wp_anti (fun g hg => Or.inr (Or.inl hg)) (wp_mono hmap fun r s' => ?_)
  rintro ⟨⟨t', ht', hmapped⟩, -, hsame⟩
  have hpages : ∀ g ∈ frames (t.node 0), s'.content g = s.content g := fun g hg =>
    (hsame g (Or.inr (Or.inr hg))).trans (hcontent g hg)
  cases r with
  | ok _ =>
    obtain ⟨hv, hnone, hupdate⟩ := hmapped
    refine ⟨_, ⟨t', ht.add hf hnone ht' hupdate, rfl⟩, hv, fun p hp => ?_, fun p hp => ?_, hpages⟩
    · rw [hupdate, Function.update_of_ne hp]
    · obtain rfl : p = v / page := hp
      refine ⟨hnone, f, ?_, (hsame f (Or.inl rfl)).trans Mem.content_take_self⟩
      rw [hupdate, Function.update_self]
  | error e =>
    obtain ⟨heq, hwhy⟩ := hmapped
    simp only [keepOrFree, bind_eq, wp_bind, wp_freeFrame]
    refine ⟨⟨ht'.subset (Or.inl rfl), fun hB => hfD (Or.inl hB)⟩,
      fun s'' htaken hcontent' hshort => ?_⟩
    have hfree := ht'.free hfD htaken hcontent'
    refine ⟨_, ⟨t', ⟨heq ▸ hfree, heq ▸ ht.apart, heq ▸ ht.pages_inj⟩, heq⟩,
      Added.none fun g hg => ?_, ?_⟩
    · exact (hcontent' g fun he => hfD (Or.inr (he ▸ hg))).trans (hpages g hg)
    · unfold Refused
      rw [hshort]
      exact hwhy

/-- The pages from `v` on. -/
def pagesFrom (v n : ℕ) : Set ℕ := {p | v / page ≤ p ∧ p < v / page + n}

theorem pagesFrom_zero (v : ℕ) : pagesFrom v 0 = ∅ :=
  Set.eq_empty_of_forall_notMem fun _ hp => absurd hp.2 (not_lt.2 hp.1)

theorem add_page_div (v k : ℕ) : (v + k * page) / page = v / page + k :=
  Nat.add_mul_div_right v k (by norm_num [page])

theorem pagesFrom_succ (v n : ℕ) : {v / page} ∪ pagesFrom (v + page) n = pagesFrom v (n + 1) := by
  have hnext := add_page_div v 1
  rw [Nat.one_mul] at hnext
  ext p
  simp only [pagesFrom, hnext, Set.mem_union, Set.mem_singleton_iff, Set.mem_ofPred_eq]
  omega

theorem wp_mapPages (h : Has B root m s) (n : ℕ) :
    wp (spec B) (mapPages root perm n v).run (fun r s' => ∃ m', Has B root m' s' ∧
      match r with
      | .ok () => Added m s (pagesFrom v n) perm m' s'
      | .error e => ∃ j < n, Added m s (pagesFrom v j) perm m' s' ∧
          Refused m (v + j * page) s' e) s := by
  induction n generalizing v m s with
  | zero => exact ⟨m, h, pagesFrom_zero v ▸ Added.none fun _ _ => rfl⟩
  | succ n ih =>
    rw [mapPages, wp_except_bind]
    refine wp_mono (wp_mapFresh h) fun r s1 => ?_
    rintro ⟨m1, h1, hr⟩
    cases r with
    | error e =>
      refine ⟨m1, h1, 0, Nat.succ_pos n, pagesFrom_zero v ▸ hr.1, ?_⟩
      rw [Nat.zero_mul]
      exact hr.2
    | ok _ =>
      refine wp_mono (ih h1) fun r s2 => ?_
      rintro ⟨m2, h2, hr2⟩
      refine ⟨m2, h2, ?_⟩
      cases r with
      | ok _ => exact pagesFrom_succ v n ▸ hr.2.trans hr2
      | error e =>
        obtain ⟨j, hj, hadded, hwhy⟩ := hr2
        refine ⟨j + 1, Nat.succ_lt_succ hj, pagesFrom_succ v j ▸ hr.2.trans hadded, ?_⟩
        have hplace : v + page + j * page = v + (j + 1) * page := by ring
        rw [hplace] at hwhy
        have hsame : m1 ((v + (j + 1) * page) / page) = m ((v + (j + 1) * page) / page) := by
          refine hr.2.old _ ?_
          rw [add_page_div, Set.mem_singleton_iff]
          omega
        unfold Refused at hwhy ⊢
        rw [hsame] at hwhy
        exact hwhy

theorem wp_mapZeroed (h : Has B root m s) (v n : ℕ) (perm : Perm) :
    wp (spec B) (mapZeroed root v n perm).run (fun r s' => ∃ m', Has B root m' s' ∧
      match r with
      | .ok () => v + n * page ≤ lowerHalfEnd ∧ Added m s (pagesFrom v n) perm m' s'
      | .error e => ∃ j, Added m s (pagesFrom v j) perm m' s' ∧
          ((j < n ∧ Refused m (v + j * page) s' e) ∨
            (j = 0 ∧ e = .notUser v ∧ lowerHalfEnd < v + n * page))) s := by
  unfold mapZeroed
  rw [rangeEnd_eq]
  by_cases hend : v + n * page ≤ lowerHalfEnd
  · rw [if_pos hend]
    refine wp_mono (wp_mapPages h n) fun r s' => ?_
    rintro ⟨m', h', hr⟩
    refine ⟨m', h', ?_⟩
    cases r with
    | ok _ => exact ⟨hend, hr⟩
    | error e =>
      obtain ⟨j, hj, hadded, hwhy⟩ := hr
      exact ⟨j, hadded, Or.inl ⟨hj, hwhy⟩⟩
  · rw [if_neg hend]
    exact ⟨m, h, 0, pagesFrom_zero v ▸ Added.none fun _ _ => rfl, Or.inr ⟨rfl, rfl, not_le.1 hend⟩⟩

/-! ### Giving pages back -/

/-- The pages but for the `n` from `v` on. -/
def without (m : Pages) (v n : ℕ) : Pages :=
  fun p => if v / page ≤ p ∧ p < v / page + n then none else m p

theorem without_of_mem {n : ℕ} (h : p ∈ pagesFrom v n) : without m v n p = none := if_pos h

theorem without_of_notMem {n : ℕ} (h : p ∉ pagesFrom v n) : without m v n p = m p := if_neg h

theorem without_zero (m : Pages) (v : ℕ) : without m v 0 = m :=
  funext fun _ => if_neg fun h => absurd h.2 (not_lt.2 h.1)

theorem without_succ (m : Pages) (v n : ℕ) :
    without m v (n + 1) = Function.update (without m v n) (v / page + n) none := by
  funext p
  unfold without
  rcases eq_or_ne p (v / page + n) with rfl | hne
  · rw [Function.update_self, if_pos (by omega)]
  · rw [Function.update_of_ne hne]
    exact if_congr (by omega) rfl rfl

theorem some_of_update_none {q : ℕ} {x : ℕ × Perm} (h : Function.update m p none q = some x) :
    m q = some x ∧ q ≠ p := by
  rcases eq_or_ne q p with rfl | hne
  · rw [Function.update_self] at h
    cases h
  · exact ⟨(Function.update_of_ne hne ..).symm.trans h, hne⟩

theorem frames_update_none (m : Pages) (p : ℕ) : frames (Function.update m p none) ⊆ frames m := by
  rintro f ⟨q, a, hq⟩
  exact ⟨q, a, (some_of_update_none hq).1⟩

theorem frames_eq_insert {a : Perm} (h : m p = some (f, a)) :
    frames m = insert f (frames (Function.update m p none)) := by
  refine Set.Subset.antisymm ?_ (Set.insert_subset (mem_frames h) (frames_update_none m p))
  rintro g ⟨q, b, hq⟩
  rcases eq_or_ne q p with rfl | hne
  · rw [h, Option.some.injEq, Prod.mk.injEq] at hq
    exact Or.inl hq.1.symm
  · exact Or.inr ⟨q, b, (Function.update_of_ne hne ..).trans hq⟩

theorem Owns.sub {t t' : Tree} (h : Owns B root t s)
    (ht' : Holds lowerHalf (B ∪ frames (t'.node 0)) root t' s')
    (hsub : ∀ p x, t'.node 0 p = some x → t.node 0 p = some x) : Owns B root t' s' where
  holds := ht'
  apart := fun f ⟨p, a, hp⟩ => h.apart f ⟨p, a, hsub p _ hp⟩
  pages_inj := fun p q f a b h1 h2 => h.pages_inj p q f a b (hsub p _ h1) (hsub q _ h2)

theorem wp_unmapPage (h : Has B root m s) (hv : v < lowerHalfEnd) :
    wp (spec B) (unmapPage root v) (fun _ s' => Has B root (Function.update m (v / page) none) s' ∧
      ∀ f ∈ frames (Function.update m (v / page) none), s'.content f = s.content f) s := by
  obtain ⟨t, ht, rfl⟩ := h
  have hunmap := wp_untouched ht.holds.subset (wp_unmap ht.holds (lowerHalf_has hv))
  have hpages := t.node_zero_set_zero (v / page) none
  have hsub : ∀ p x, (t.set 0 (v / page) none).node 0 p = some x →
      t.node 0 p = some x := fun p x hx =>
    (some_of_update_none (hpages ▸ hx)).1
  unfold unmapPage
  rw [bind_eq, wp_bind]
  refine wp_anti Set.subset_union_left (wp_mono hunmap fun r s' => ?_)
  rintro ⟨⟨rfl, ht'⟩, -, hsame⟩
  rw [pos_zero hv] at ht' ⊢
  cases hnode : t.node 0 (v / page) with
  | none =>
    have hframes : frames (t.node 0) = frames ((t.set 0 (v / page) none).node 0) := by
      rw [t.set_eq_self hnode]
    rw [hframes] at ht'
    exact ⟨⟨_, ht.sub ht' hsub, hpages⟩, fun f hf => hsame f (Or.inr (frames_update_none _ _ hf))⟩
  | some x =>
    obtain ⟨f, a⟩ := x
    have hnot : f ∉ B ∪ frames ((t.set 0 (v / page) none).node 0) := by
      rintro (hB | ⟨q, b, hq⟩)
      · exact ht.apart f (mem_frames hnode) hB
      · obtain ⟨hq', hne⟩ := some_of_update_none (hpages ▸ hq)
        exact hne (ht.pages_inj q _ f b a hq' hnode)
    rw [frames_eq_insert hnode, ← hpages, Set.union_insert] at ht'
    change wp (spec B) (freeFrame f) _ s'
    rw [wp_freeFrame]
    refine ⟨⟨ht'.subset (Or.inl rfl), fun hB => hnot (Or.inl hB)⟩, fun s'' htaken hcontent _ =>
      ⟨⟨_, ht.sub (ht'.free hnot htaken hcontent) hsub, hpages⟩, fun g hg => ?_⟩⟩
    rw [hcontent g fun he => hnot (Or.inr (hpages ▸ he ▸ hg))]
    exact hsame g (Or.inr (frames_update_none _ _ hg))

theorem wp_unmapPages (h : Has B root m s) {n : ℕ} (hv : v + n * page ≤ lowerHalfEnd) :
    wp (spec B) (unmapPages root v n) (fun _ s' => Has B root (without m v n) s' ∧
      ∀ f ∈ frames (without m v n), s'.content f = s.content f) s := by
  refine wp_upTo (I := fun k s' => Has B root (without m v k) s' ∧
    ∀ f ∈ frames (without m v k), s'.content f = s.content f) (fun k hk s' hs' => ?_) ?_
  · have hlow : v + k * page < lowerHalfEnd := by
      unfold page at *
      omega
    refine wp_mono (wp_unmapPage hs'.1 hlow) fun _ s'' hs'' => ?_
    rw [add_page_div, ← without_succ] at hs''
    refine ⟨hs''.1, fun f hf => (hs''.2 f hf).trans (hs'.2 f ?_)⟩
    rw [without_succ] at hf
    exact frames_update_none _ _ hf
  · rw [without_zero]
    exact ⟨h, fun _ _ => rfl⟩

/-! ### Making and destroying a space -/

/-- The tree of a PML4 whose lower half is empty. -/
def Tree.empty (root : ℕ) : Tree :=
  ⟨fun k p => if k = 4 ∧ p = 0 then some (root, .readWrite) else none⟩

theorem Tree.empty_none {k p : ℕ} (h : ¬(k = 4 ∧ p = 0)) :
    (Tree.empty root).node k p = none := if_neg h

theorem Tree.empty_succ {k p f : ℕ} {a : Perm}
    (h : (Tree.empty root).node (k + 1) p = some (f, a)) :
    k = 3 ∧ p = 0 ∧ f = root := by
  simp only [empty] at h
  split at h
  · next hk =>
    rw [Option.some.injEq, Prod.mk.injEq] at h
    exact ⟨Nat.succ.inj hk.1, hk.2, h.1.symm⟩
  · cases h

theorem Tree.tables_empty (root : ℕ) : (Tree.empty root).tables = {root} := by
  ext f
  constructor
  · rintro ⟨k, p, a, hk⟩
    exact (Tree.empty_succ hk).2.2
  · rintro rfl
    exact ⟨3, 0, .readWrite, rfl⟩

/-- No pages. -/
def noPages : Pages := fun _ => none

theorem frames_noPages : frames noPages = ∅ :=
  Set.eq_empty_of_forall_notMem fun _ ⟨_, _, hp⟩ => nomatch hp

theorem holds_empty {P : Part} (hroot : root ∉ B) (htaken : s.taken = insert root B)
    (hz : ∀ i, P.Covers i → s.word root i = 0) : Holds P B root (Tree.empty root) s := by
  refine ⟨rfl, fun k p hk => Tree.empty_none (by omega), fun p hp => Tree.empty_none (by omega),
    fun p x hx => ?_,
    fun k p hk _ => Tree.empty_none (by omega), fun k q g a i hk hg hi hc =>
      ?_, fun k p a j q b f h1 h2 => ?_, ?_, ?_⟩
  · rw [Tree.empty_none (by omega)] at hx
    cases hx
  · obtain ⟨rfl, rfl, rfl⟩ := Tree.empty_succ hg
    rw [Tree.empty_none (by omega), hz i (hc rfl)]
    exact Reads.zero P 3
  · obtain ⟨rfl, rfl, -⟩ := Tree.empty_succ h1
    obtain ⟨rfl, rfl, -⟩ := Tree.empty_succ h2
    exact ⟨rfl, rfl⟩
  · rw [Tree.tables_empty, Set.union_singleton, htaken]
  · rw [Tree.tables_empty]
    rintro f rfl
    exact hroot

theorem Tree.empty_pages (root : ℕ) : (Tree.empty root).node 0 = noPages :=
  funext fun _ => Tree.empty_none (by omega)

theorem owns_empty (hroot : root ∉ B) (htaken : s.taken = insert root B)
    (hz : ∀ i < 256, s.word root i = 0) : Owns B root (Tree.empty root) s := by
  refine ⟨?_, ?_, ?_⟩
  · rw [Tree.empty_pages, frames_noPages, Set.union_empty]
    exact holds_empty hroot htaken fun i hi => hz i hi.2
  · rw [Tree.empty_pages, frames_noPages]
    exact fun f hf => absurd hf (Set.notMem_empty f)
  · rw [Tree.empty_pages]
    exact fun p q f a b h1 => nomatch h1

theorem has_noPages (hroot : root ∉ B) (htaken : s.taken = insert root B)
    (hz : ∀ i < 256, s.word root i = 0) : Has B root noPages s :=
  ⟨Tree.empty root, owns_empty hroot htaken hz, Tree.empty_pages root⟩

/-- The frame `pml4` has been taken since `s`, and its lower half is zero. -/
structure Fresh (s : Mem) (pml4 : ℕ) (s' : Mem) : Prop where
  taken : s'.taken = insert pml4 s.taken
  content : ∀ f ∈ s.taken, s'.content f = s.content f
  zero : ∀ i < 256, s'.word pml4 i = 0

theorem wp_copyEntry {kernel pml4 i : ℕ} (hk : kernel ∈ s.taken) (hpml4 : pml4 ∉ s.taken)
    (hi : i < 256)
    (h : Fresh s pml4 s') :
    wp (spec (s.taken \ {kernel})) (copyEntry kernel pml4 (256 + i))
      (fun _ s'' => Fresh s pml4 s'') s' := by
  unfold copyEntry
  rw [bind_eq, wp_bind, wp_word, wp_setWord]
  refine ⟨⟨⟨h.taken ▸ Or.inr hk, fun hc => hc.2 rfl⟩, by omega⟩,
    ⟨⟨h.taken ▸ Or.inl rfl, fun hc => hpml4 hc.1⟩, by omega, s'.word_lt kernel _⟩, h.taken,
      fun f hf => ?_,
    fun j hj => ?_⟩
  · have hne : f ≠ pml4 := fun he => hpml4 (he ▸ hf)
    exact (Mem.content_setWord_of_ne hne).trans (h.content f hf)
  · rw [Mem.word_setWord_of_ne (by omega)]
    exact h.zero j hj

/-- **A new space** has no pages, and all that was there is as it was. The kernel's PML4 is
read. -/
theorem wp_new {kernel : ℕ} (hk : kernel ∈ s.taken) :
    wp (spec (s.taken \ {kernel})) (new kernel).run (fun r s' =>
      match r with
      | .ok sp => sp.maps = [] ∧ Has s.taken sp.pml4 noPages s' ∧ ∀ f ∈ s.taken,
          s'.content f = s.content f
      | .error e => e = .outOfMemory ∧ s.short ∧ s' = s) s := by
  unfold new
  rw [wp_except_bind, wp_newFrame]
  refine ⟨fun hshort => ⟨rfl, hshort, rfl⟩, fun pml4 hpml4 _ => ?_⟩
  have hne : ∀ f ∈ s.taken, f ≠ pml4 := fun f hf he => hpml4 (he ▸ hf)
  have hstart : Fresh s pml4 (s.take pml4) :=
    ⟨rfl, fun f hf => Mem.content_take_of_ne (hne f hf), fun i _ => Mem.word_take_self⟩
  simp only [wp_except_bind, wp_lift]
  refine wp_mono (wp_upTo (I := fun _ => Fresh s pml4)
    (fun i hi s' hs' => wp_copyEntry hk hpml4 hi hs') hstart)
    fun _ s' hs' => ?_
  exact ⟨rfl, has_noPages hpml4 hs'.taken hs'.zero, hs'.content⟩

/-- **Destroying** gives back all that is the program's, and nothing else. -/
theorem wp_destroy {sp : AddressSpace} (h : Has B sp.pml4 m s) :
    wp (spec B) sp.destroy (fun _ s' => s'.taken = B) s := by
  obtain ⟨t, ht, rfl⟩ := h
  have hroot : sp.pml4 ∉ B := (ht.usable ht.holds.root_eq).2
  unfold destroy
  rw [bind_eq, wp_bind]
  refine wp_mono (wp_freeLowerHalf ht) fun _ s' hs' => ?_
  rw [wp_freeFrame]
  refine ⟨⟨hs' ▸ Or.inl rfl, hroot⟩, fun s'' htaken _ _ => ?_⟩
  rw [htaken, hs', Set.insert_sdiff_self_of_notMem hroot]

end RelayOs.Mm
