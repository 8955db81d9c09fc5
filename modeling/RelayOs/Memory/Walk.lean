import RelayOs.Memory.Tree

/-!
# What the page-table code does to the tree

One statement for each function that goes down the tables. They are about any part of the
PML4, and say which node of the tree is made, looked up or taken away; that nothing else
changes needs no words, as it is not the tree's.
-/

namespace RelayOs.Mm

open Prog

variable {P : Part} {D : Set ℕ} {root : ℕ} {t : Tree} {s : Mem} {virt : ℕ}

/-! ### Programs that can fail -/

theorem wp_newFrame {Q : Except MapError ℕ → Mem → Prop} :
    wp (spec D) newFrame.run Q s ↔
      (s.short → Q (.error .outOfMemory) s) ∧ ∀ f, f ∉ s.taken → IsFrame f → Q (.ok f) (s.take f) :=
  (wp_bind allocTable _).trans wp_allocTable

theorem wp_refuse {c : Prop} [Decidable c] {e : MapError} {Q : Except MapError Unit → Mem → Prop} :
    wp (spec D) (refuse c e).run Q s ↔ (c → Q (.error e) s) ∧ (¬c → Q (.ok ()) s) := by
  rw [refuse, ← ite_prop_iff_and]
  split <;> rfl

/-! ### Making tables -/

/-- Tables may have been made; the pages are as they were. -/
structure Grown (t t' : Tree) : Prop where
  pages : t'.node 0 = t.node 0
  tables : t.tables ⊆ t'.tables

theorem Grown.refl (t : Tree) : Grown t t := ⟨rfl, Set.Subset.rfl⟩

theorem Grown.trans {t t1 t2 : Tree} (h : Grown t t1) (h' : Grown t1 t2) : Grown t t2 :=
  ⟨h'.pages.trans h.pages, h.tables.trans h'.tables⟩

/-- What becomes of the tree when a table is looked up that is made if it is missing: tables
may have been made, the pages are as they were, and – unless memory ran out – the table is
there. -/
def Found (P : Part) (D : Set ℕ) (root : ℕ) (t : Tree) (k virt : ℕ) (r : Except MapError ℕ)
    (s' : Mem) : Prop :=
  ∃ t', Holds P D root t' s' ∧ Grown t t' ∧
    match r with
    | .ok f => ∃ a, t'.node k (pos virt k) = some (f, a)
    | .error e => e = .outOfMemory ∧ s'.short

variable {k g : ℕ} {a : Perm} {K : Spec physMem Mem}

theorem wp_makeChild (hs : Holds P D root t s) (hv : P.Has virt) (hk : k + 1 ≤ 3)
    (hg : t.node (k + 2) (pos virt (k + 2)) = some (g, a))
    (hnone : t.node (k + 1) (pos virt (k + 1)) = none) :
    wp (spec D) (makeChild g (index virt (k + 1)) virt).run (Found P D root t (k + 1) virt) s := by
  unfold makeChild
  rw [wp_except_bind, wp_newFrame]
  refine ⟨fun hshort => ⟨t, hs, Grown.refl t, rfl, hshort⟩, fun f hf hfr => ?_⟩
  have hfD : f ∉ D := fun h => hf (hs.subset h)
  have hflags := hv.tableFlags_eq k .readWrite
  rw [← pos_eq hk] at hnone
  have hheld := (hs.take hf).setTable (b := .readWrite) hfD hfr
      (fun i => Mem.word_take_self) (by omega) hg
    (index_lt virt (k + 1)) hv.covers_index hnone
  simp only [wp_except_bind, wp_lift, wp_setWord]
  refine ⟨⟨⟨Or.inr (hs.usable (Holds.mem_tables hg)).1, (hs.usable (Holds.mem_tables hg)).2⟩,
    index_lt virt _, hflags ▸ Reads.or_lt hfr⟩,
      t.set (k + 1) (pos virt (k + 1)) (some (f, .readWrite)), ?_,
    ⟨t.node_zero_set_succ k _ _, ?_⟩, .readWrite, t.set_self ..⟩
  · rw [← pos_eq hk, hflags]
    exact hheld
  · rw [← pos_eq hk, Tree.tables_set_succ hnone]
    exact Set.subset_insert f _

theorem wp_child (hs : Holds P D root t s) (hv : P.Has virt) (hk : k + 1 ≤ 3)
    (hg : t.node (k + 2) (pos virt (k + 2)) = some (g, a)) :
    wp (spec D) (child g (index virt (k + 1)) virt).run (Found P D root t (k + 1) virt) s := by
  have hreads := hs.reads_at hv hk hg
  unfold child
  simp only [wp_except_bind, wp_lift, wp_word]
  refine ⟨⟨hs.usable (Holds.mem_tables hg), index_lt virt _⟩, ?_⟩
  cases hnode : t.node (k + 1) (pos virt (k + 1)) with
  | none =>
    rw [hnode] at hreads
    rw [if_pos hreads.present_eq]
    exact wp_makeChild hs hv hk hg hnode
  | some x =>
    obtain ⟨f, perm⟩ := x
    rw [hnode] at hreads
    rw [if_neg hreads.present_ne, if_neg (not_or.2 ⟨not_not.2 hreads.huge_eq,
      not_not.2 (hreads.and_tableFlags hv)⟩)]
    exact ⟨t, hs, Grown.refl t, perm, hnode.trans (by rw [hreads.1])⟩

/-- One look-up after another. -/
theorem Found.bind {β : Type} {x : MapM ℕ} {f : ℕ → MapM β} {Q : Except MapError β → Mem → Prop}
    (hx : wp (spec D) x.run (Found P D root t k virt) s)
    (herror : ∀ t' s', Holds P D root t' s' → Grown t t' → s'.short → Q (.error .outOfMemory) s')
    (hf : ∀ t' s' g a, Holds P D root t' s' → Grown t t' → t'.node k (pos virt k) = some (g, a) →
      wp (spec D) (f g).run Q s') : wp (spec D) (x >>= f).run Q s := by
  rw [wp_except_bind]
  refine wp_mono hx fun r s' => ?_
  rintro ⟨t', hs', hgrown, hr⟩
  cases r with
  | error e =>
    obtain ⟨rfl, hshort⟩ := hr
    exact herror t' s' hs' hgrown hshort
  | ok g =>
    obtain ⟨a, hg⟩ := hr
    exact hf t' s' g a hs' hgrown hg

theorem wp_pdSlot (hs : Holds P D root t s) (hv : P.Has virt) :
    wp (spec D) (pdSlot root virt).run (Found P D root t 2 virt) s := by
  have hroot : t.node 4 (pos virt 4) = some (root, .readWrite) := pos_four virt ▸ hs.root_eq
  unfold pdSlot
  refine Found.bind (wp_child hs hv le_rfl hroot)
    (fun t' s' hs' hp hshort => ⟨t', hs', hp, rfl, hshort⟩)
    fun t' s' g a hs' hp hg => ?_
  refine wp_mono (wp_child hs' hv (by norm_num) hg) fun r s'' => ?_
  rintro ⟨t'', hs'', hp', hr⟩
  exact ⟨t'', hs'', hp.trans hp', hr⟩

/-! ### Mapping a page -/

/-- The pages a program has: frame and permission, by page number. -/
abbrev Pages := ℕ → Option (ℕ × Perm)

/-- Why a page could not be mapped at `virt`. -/
def Refused (m : Pages) (virt : ℕ) (s' : Mem) (e : MapError) : Prop :=
  (e = .outOfMemory ∧ s'.short) ∨ (e = .conflict virt ∧ m (virt / page) ≠ none) ∨
    (e = .unaligned ∧ virt % page ≠ 0) ∨ (e = .notUser virt ∧ lowerHalfEnd ≤ virt)

/-- What becomes of the pages `m` when one is to be mapped at `virt`. -/
def Mapped (m : Pages) (virt phys : ℕ) (perm : Perm) (s' : Mem) :
    Except MapError Unit → Pages → Prop
  | .ok (), m' => (virt % page = 0 ∧ virt < lowerHalfEnd) ∧ m (virt / page) = none ∧
      m' = Function.update m (virt / page) (some (phys, perm))
  | .error e, m' => m' = m ∧ Refused m virt s' e

/-- A frame's address is a multiple of the page size. -/
theorem IsFrame.mod_eq {f : ℕ} (hf : IsFrame f) : f % page = 0 := by
  have h : f &&& (2 ^ 12 - 1) = 0 := hf.and_eq_zero (by decide)
  rwa [Nat.and_two_pow_sub_one_eq_mod] at h

theorem and_mask (x n k : ℕ) : x &&& (2 ^ k - 1) <<< n = x / 2 ^ n % 2 ^ k * 2 ^ n := by
  rw [← Nat.shiftLeft_eq, ← Nat.shiftRight_eq_div_pow]
  refine Nat.eq_of_testBit_eq fun i => ?_
  simp only [Nat.testBit_and, Nat.testBit_shiftLeft, Nat.testBit_two_pow_sub_one,
    Nat.testBit_mod_two_pow,
    Nat.testBit_shiftRight]
  by_cases hi : n ≤ i
  · rw [Nat.add_sub_cancel' hi]
    simp [hi, Bool.and_comm]
  · simp [hi]

theorem and_addrMask (x : ℕ) : x &&& addrMask = x / page % 2 ^ 40 * page := and_mask x 12 40

theorem and_hugeAddrMask (x : ℕ) : x &&& hugeAddrMask = x / huge % 2 ^ 31 * huge := and_mask x 21 31

theorem and_of_same {e want m : ℕ} (h : same e want = true) (hm : m &&& (accessed ||| dirty) = 0) :
    e &&& m = want &&& m := by
  have hsame : e - (e &&& (accessed ||| dirty)) = want := of_decide_eq_true h
  have hbits : e &&& (accessed ||| dirty) = e % 2 ^ 7 &&& (accessed ||| dirty) := by
    have hlow : (2 ^ 7 - 1) &&& (accessed ||| dirty) = (accessed ||| dirty) := by decide
    rw [← Nat.and_two_pow_sub_one_eq_mod, Nat.and_assoc, hlow]
  have hle : e % 2 ^ 7 &&& (accessed ||| dirty) ≤ e % 2 ^ 7 := Nat.and_le_left
  have hhigh : want / 2 ^ 7 = e / 2 ^ 7 := by omega
  have hlow : want % 2 ^ 7 = e % 2 ^ 7 - (e % 2 ^ 7 &&& (accessed ||| dirty)) := by omega
  have hkept : ∀ r < 2 ^ 7, ∀ i < 7, i ≠ 5 → i ≠ 6 →
      (r - (r &&& (accessed ||| dirty))).testBit i = r.testBit i := by
    decide
  refine Nat.eq_of_testBit_eq fun i => ?_
  rw [Nat.testBit_and, Nat.testBit_and]
  by_cases hi : 7 ≤ i
  · have hshift : ∀ x : ℕ, x.testBit i = (x / 2 ^ 7).testBit (i - 7) := by
      intro x
      rw [Nat.testBit_div_two_pow, Nat.sub_add_cancel hi]
    rw [hshift e, hshift want, hhigh]
  · have hmod : ∀ x : ℕ, x.testBit i = (x % 2 ^ 7).testBit i := by
      intro x
      rw [Nat.testBit_mod_two_pow, decide_eq_true (Nat.lt_of_not_le hi), Bool.true_and]
    have hclear : (m.testBit i && (accessed ||| dirty).testBit i) = false := by
      rw [← Nat.testBit_and, hm, Nat.zero_testBit]
    by_cases h56 : i = 5 ∨ i = 6
    · have hone : (accessed ||| dirty).testBit i = true := by rcases h56 with rfl | rfl <;> decide
      rw [hone, Bool.and_true] at hclear
      rw [hclear, Bool.and_false, Bool.and_false]
    · rw [hmod e, hmod want, hlow,
        hkept _ (Nat.mod_lt _ (by norm_num)) i (by omega) (by omega) (by omega)]

theorem or_mod_eq {a b : ℕ} (hb : b % page = 0) : (a ||| b) % page = a % page := by
  have h : ∀ x, x % page = x &&& (2 ^ 12 - 1) := fun x => (Nat.and_two_pow_sub_one_eq_mod x 12).symm
  rw [h] at hb ⊢
  rw [Nat.and_or_distrib_right, hb, Nat.or_zero, h]

theorem wp_mapUser {phys : ℕ} (hs : Holds lowerHalf D root t s) (hf : IsFrame phys) (virt : ℕ)
    (perm : Perm) :
    wp (spec D) (mapUser root virt phys perm).run (fun r s' => ∃ t', Holds lowerHalf D root t' s' ∧
      Mapped (t.node 0) virt phys perm s' r (t'.node 0)) s := by
  unfold mapUser
  rw [wp_except_bind, wp_refuse, or_mod_eq hf.mod_eq]
  refine ⟨fun h => ⟨t, hs, rfl, Or.inr (Or.inr (Or.inl ⟨rfl, h⟩))⟩, fun halign => ?_⟩
  rw [wp_except_bind, wp_refuse]
  refine ⟨fun h => ⟨t, hs, rfl, Or.inr (Or.inr (Or.inr ⟨rfl, h⟩))⟩, fun hlow => ?_⟩
  rw [not_not] at halign
  rw [not_le] at hlow
  have hv := lowerHalf_has hlow
  refine Found.bind (wp_pdSlot hs hv)
    (fun t' s' hs' hp hshort => ⟨t', hs', hp.pages, Or.inl ⟨rfl, hshort⟩⟩)
    fun t1 s1 pd a hs1 hp1 hpd => ?_
  refine Found.bind (wp_child hs1 hv (by norm_num) hpd)
    (fun t' s' hs' hp hshort => ⟨t', hs', (hp1.trans hp).pages, Or.inl ⟨rfl, hshort⟩⟩)
    fun t2 s2 pt b hs2 hp2 hpt => ?_
  have hreads := hs2.reads_at hv (by norm_num) hpt
  have hpages : t2.node 0 = t.node 0 := (hp1.trans hp2).pages
  have hpos := pos_zero hlow
  simp only [wp_except_bind, wp_lift, wp_word, wp_refuse]
  refine ⟨⟨hs2.usable (Holds.mem_tables hpt), index_lt virt 0⟩, fun hpresent => ?_,
    fun habsent => ?_⟩
  · refine ⟨t2, hs2, hpages, Or.inr (Or.inl ⟨rfl, fun hnone => hpresent ?_⟩)⟩
    rw [hpos, hpages, hnone] at hreads
    exact hreads
  · have hnone : t2.node 0 (pos virt 0) = none := by
      cases hnode : t2.node 0 (pos virt 0) with
      | none => rfl
      | some x =>
        rw [hnode] at hreads
        exact absurd hreads.present_ne habsent
    have hset := hs2.setPage (x := some (phys, perm)) hpt (index_lt virt 0) (Reads.of_or hf)
        (Reads.or_lt hf)
    rw [pos_eq (by norm_num)] at hset
    rw [hpos, hpages] at hnone
    rw [wp_setWord]
    have hlt : phys ||| lowerHalf.flags 0 perm < 2 ^ 64 := Reads.or_lt hf
    refine ⟨⟨hs2.usable (Holds.mem_tables hpt), index_lt virt 0, hlt⟩, _, hset,
      ⟨halign, hlow⟩, hnone, ?_⟩
    rw [t2.node_zero_set_zero, hpages, hpos]

/-! ### Looking pages up and taking them away -/

theorem wp_leafFrom {level : ℕ} (hs : Holds P D root t s) (hv : P.Has virt) (hl : level ≤ 3)
    (hg : t.node (level + 1) (pos virt (level + 1)) = some (g, a)) :
    wp (spec D) (leafFrom virt level g) (fun r s' => s' = s ∧
      match r with
      | none => t.node 0 (pos virt 0) = none
      | some pt => ∃ b, t.node 1 (pos virt 1) = some (pt, b)) s := by
  induction level generalizing g a with
  | zero => exact ⟨rfl, a, hg⟩
  | succ level ih =>
    have hreads := hs.reads_at hv hl hg
    unfold leafFrom
    rw [bind_eq, wp_bind, wp_word]
    refine ⟨⟨hs.usable (Holds.mem_tables hg), index_lt virt _⟩, ?_⟩
    cases hnode : t.node (level + 1) (pos virt (level + 1)) with
    | none =>
      rw [hnode] at hreads
      rw [if_pos (Or.inl hreads.present_eq)]
      exact ⟨rfl, hs.none_at hnode (by omega) (Nat.zero_le _)⟩
    | some x =>
      obtain ⟨f, perm⟩ := x
      rw [hnode] at hreads
      rw [if_neg (not_or.2 ⟨hreads.present_ne, not_not.2 hreads.huge_eq⟩), hreads.1]
      exact ih (by omega) hnode

/-- **Unmapping** takes the page out of the tree. -/
theorem wp_unmap (hs : Holds P D root t s) (hv : P.Has virt) :
    wp (spec D) (unmap root virt) (fun r s' => r = (t.node 0 (pos virt 0)).map Prod.fst ∧
      Holds P D root (t.set 0 (pos virt 0) none) s') s := by
  have hroot : t.node 4 (pos virt 4) = some (root, .readWrite) := pos_four virt ▸ hs.root_eq
  unfold unmap leaf
  rw [bind_eq, wp_bind]
  refine wp_mono (wp_leafFrom hs hv le_rfl hroot) fun r s' => ?_
  rintro ⟨rfl, hr⟩
  cases r with
  | none => exact ⟨hr ▸ rfl, (t.set_eq_self hr).symm ▸ hs⟩
  | some pt =>
    obtain ⟨b, hpt⟩ := hr
    have hreads := hs.reads_at hv (by norm_num) hpt
    simp only [clearEntry, bind_eq, wp_bind, wp_word]
    refine ⟨⟨hs.usable (Holds.mem_tables hpt), index_lt virt 0⟩, ?_⟩
    cases hnode : t.node 0 (pos virt 0) with
    | none =>
      rw [hnode] at hreads
      rw [if_pos hreads.present_eq]
      exact ⟨rfl, (t.set_eq_self hnode).symm ▸ hs⟩
    | some x =>
      obtain ⟨f, perm⟩ := x
      rw [hnode] at hreads
      have hset := hs.setPage hpt (index_lt virt 0) (Reads.zero P 0) (by norm_num)
      rw [pos_eq (by norm_num)] at hset
      rw [if_neg hreads.present_ne, wp_bind, wp_setWord]
      exact ⟨⟨hs.usable (Holds.mem_tables hpt), index_lt virt 0, by norm_num⟩,
        congrArg some hreads.1, hset⟩

/-- The entry the processor finds for `virt`, if there is a table for it. -/
def leafEntry (pml4 virt : ℕ) : Prog physMem (Option ℕ) := do
  match ← leaf pml4 virt with
  | none => return none
  | some pt => do
    let e ← word pt (index virt 0)
    return some e

theorem wp_leafEntry (hs : Holds P D root t s) (hv : P.Has virt) :
    wp (spec D) (leafEntry root virt) (fun r s' => s' = s ∧
      match r with
      | none => t.node 0 (pos virt 0) = none
      | some w => Reads P 0 w (t.node 0 (pos virt 0))) s := by
  have hroot : t.node 4 (pos virt 4) = some (root, .readWrite) := pos_four virt ▸ hs.root_eq
  unfold leafEntry leaf
  rw [bind_eq, wp_bind]
  refine wp_mono (wp_leafFrom hs hv le_rfl hroot) fun r s' => ?_
  rintro ⟨rfl, hr⟩
  cases r with
  | none => exact ⟨rfl, hr⟩
  | some pt =>
    obtain ⟨b, hpt⟩ := hr
    simp only [bind_eq, wp_bind, wp_word]
    exact ⟨⟨hs.usable (Holds.mem_tables hpt), index_lt virt 0⟩, rfl,
      hs.reads_at hv (by norm_num) hpt⟩

/-! ### Looking a page up -/

/-- The words of the tables are read as they are. -/
def Serves (K : Spec physMem Mem) (T : Set ℕ) (s : Mem) : Prop :=
  ∀ g ∈ T, ∀ i < 512, K.pre (.word g i) s ∧ ∀ x s', K.post (.word g i) s x s' →
    x = s.word g i ∧ s' = s

theorem Serves.wp_word {T : Set ℕ} {i : ℕ} {Q : ℕ → Mem → Prop} (hK : Serves K T s)
    (hg : g ∈ T) (hi : i < 512) (hQ : Q (s.word g i) s) : wp K (word g i) Q s := by
  obtain ⟨hpre, hpost⟩ := hK g hg i hi
  refine (wp_request (S := physMem)).mpr ⟨hpre, fun x s' hx => ?_⟩
  obtain ⟨rfl, rfl⟩ := hpost x s' hx
  exact hQ

theorem serves_spec {T : Set ℕ} (h : ∀ f ∈ T, Usable D s f) : Serves (spec D) T s :=
  fun g hg _ hi => ⟨⟨h g hg, hi⟩, fun _ _ hx => hx⟩

theorem wp_userPageFrom {level : ℕ} (hs : Holds lowerHalf D root t s)
    (hK : Serves K t.tables s) (hv : lowerHalf.Has virt) (hl : level ≤ 3)
    (hg : t.node (level + 1) (pos virt (level + 1)) = some (g, a)) :
    wp K (userPageFrom virt (level + 1) g) (fun r s' => r = t.node 0 (pos virt 0) ∧ s' = s) s := by
  induction level using Nat.strong_induction_on generalizing g a with
  | _ level ih =>
    have hreads := hs.reads_at hv hl hg
    unfold userPageFrom
    rw [bind_eq, wp_bind]
    refine hK.wp_word (Holds.mem_tables hg) (index_lt virt _) ?_
    cases hnode : t.node level (pos virt level) with
    | none =>
      rw [hnode] at hreads
      rw [if_pos (Or.inl hreads.user_ne)]
      exact ⟨(hs.none_at hnode (by omega) (Nat.zero_le _)).symm, rfl⟩
    | some x =>
      obtain ⟨f, perm⟩ := x
      rw [hnode] at hreads
      rw [if_neg (not_or.2 ⟨not_not.2 hreads.user_eq, not_not.2 hreads.huge_eq⟩), hreads.1]
      cases level with
      | zero =>
        rw [if_pos rfl, hreads.ofEntry_eq]
        exact ⟨hnode.symm, rfl⟩
      | succ level =>
        rw [if_neg (Nat.succ_ne_zero level)]
        exact ih level (Nat.lt_succ_self level) (by omega) hnode

/-- The page of `m` that holds `virt`, if ring 3 may use it. -/
def lookup (m : Pages) (virt : ℕ) : Option (ℕ × Perm) :=
  if lowerHalfEnd ≤ virt then none else m (virt / page)

/-- **Looking up** finds the page of the tree and changes nothing; all it asks for are words of
the tables. -/
theorem wp_userPage {Q : Option (ℕ × Perm) → Mem → Prop}
    (hs : Holds lowerHalf D root t s) (hK : Serves K t.tables s)
    (hQ : Q (lookup (t.node 0) virt) s) :
    wp K (userPage root virt) Q s := by
  unfold userPage
  unfold lookup at hQ
  split
  · next h => rwa [if_pos h] at hQ
  · next h =>
    rw [if_neg h] at hQ
    rw [not_le] at h
    have hroot : t.node 4 (pos virt 4) = some (root, .readWrite) := pos_four virt ▸ hs.root_eq
    refine wp_mono (wp_userPageFrom hs hK (lowerHalf_has h) le_rfl hroot) ?_
    rintro _ _ ⟨rfl, rfl⟩
    rwa [pos_zero h]

end RelayOs.Mm
