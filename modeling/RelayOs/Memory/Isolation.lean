import RelayOs.Memory.Calls
import RelayOs.Memory.Frames

/-!
# Address spaces are kept apart

Any number of address spaces live in one physical memory: their tables and pages come from
one allocator, and a frame that one gives back is soon another's. What is done to them, space
by space, is a list of deeds (`RelayOs.Mm.Deed`).
-/

namespace RelayOs.Mm

open Prog

/-! ### Deeds -/

/-- The address spaces there are. -/
abbrev World := ℕ → Option AddressSpace

/-- **What is done to the space numbered `i`.** -/
inductive Deed
  | make (i : ℕ)
  | call (i : ℕ) (c : Call)
  | destroy (i : ℕ)

namespace Deed

/-- The space it is done to. -/
def on : Deed → ℕ
  | make i => i
  | call i _ => i
  | destroy i => i

/-- The space is there, if it could be made. -/
def made (W : World) (i : ℕ) : Except MapError AddressSpace → Option Answer × World
  | .ok sp => (some (.mapped (.ok ())), Function.update W i (some sp))
  | .error e => (some (.mapped (.error e)), W)

/-- Does the deed; on a space that is not there, or makes one that is, nothing is done. -/
def run (kernel : ℕ) (W : World) : Deed → Prog physMem (Option Answer × World)
  | make i =>
    match W i with
    | some _ => return (none, W)
    | none => do
      let r ← (AddressSpace.new kernel).run
      return made W i r
  | call i c =>
    match W i with
    | none => return (none, W)
    | some sp => do
      let r ← c.run sp
      return (some r.1, Function.update W i (some r.2))
  | destroy i =>
    match W i with
    | none => return (none, W)
    | some sp => do
      sp.destroy
      return (none, Function.update W i none)

/-- The deeds one after another. -/
def runAll (kernel : ℕ) : List Deed → World → Prog physMem (List (Option Answer) × World)
  | [], W => return ([], W)
  | d :: ds, W => do
    let r ← d.run kernel W
    let rs ← runAll kernel ds r.2
    return (r.1 :: rs.1, rs.2)

end Deed

/-! ### Every frame has one owner at most -/

theorem Has.rebase {B B' : Set ℕ} {root : ℕ} {m : Pages} {s s' : Mem} (h : Has B root m s)
    (htaken : s'.taken = B' ∪ s.taken \ B) (hapart : Disjoint B' (s.taken \ B))
    (hsame : ∀ f ∈ s.taken \ B, s'.content f = s.content f) : Has B' root m s' := by
  obtain ⟨t, ht, rfl⟩ := h
  have htable : ∀ f ∈ t.tables, f ∈ s.taken \ B := fun f hf =>
    ⟨(ht.holds.usable hf).1, fun hB => (ht.holds.usable hf).2 (Or.inl hB)⟩
  have hpage : ∀ f ∈ frames (t.node 0), f ∈ s.taken \ B := fun f ⟨_, _, hf⟩ => ht.usable hf
  have hown : s.taken \ B = frames (t.node 0) ∪ t.tables := by
    refine Set.Subset.antisymm ?_ (Set.union_subset hpage htable)
    rintro f ⟨hf, hB⟩
    rw [ht.holds.taken] at hf
    exact hf.imp_left fun hf => hf.resolve_left hB
  have hnot : ∀ f ∈ s.taken \ B, f ∉ B' := fun f hf hB' => Set.disjoint_left.1 hapart hB' hf
  refine ⟨t, ⟨ht.holds.congr (fun f hf => hsame f (htable f hf)) ?_ ?_,
    fun f hf => hnot f (hpage f hf),
    ht.pages_inj⟩, rfl⟩
  · rw [htaken, hown, Set.union_assoc]
  · rintro f hf (hB' | hframes)
    · exact hnot f (htable f hf) hB'
    · exact ht.holds.apart f hf (Or.inr hframes)

/-- **The spaces own their frames**: `own i` are the frames of space `i`, and `ms i` its
pages. -/
structure WorldOk (kernel : ℕ) (own : ℕ → Set ℕ) (ms : ℕ → Pages) (W : World) (s : Mem) : Prop where
  kernel_taken : kernel ∈ s.taken
  kernel_apart : ∀ i, kernel ∉ own i
  apart : ∀ i j, i ≠ j → Disjoint (own i) (own j)
  own_taken : ∀ i, own i ⊆ s.taken
  space : ∀ i sp, W i = some sp → SpaceOk (s.taken \ own i) sp (ms i) s
  absent : ∀ i, W i = none → own i = ∅

/-- The frames that are not space `i`'s. -/
def others (own : ℕ → Set ℕ) (s : Mem) (i : ℕ) : Set ℕ := s.taken \ own i

section World

variable {kernel : ℕ} {own : ℕ → Set ℕ} {ms : ℕ → Pages} {W : World} {s s' : Mem} {i j : ℕ}

theorem WorldOk.own_subset_others (h : WorldOk kernel own ms W s) (hij : i ≠ j) :
    own j ⊆ others own s i := fun _ hf =>
  ⟨h.own_taken j hf, fun hc => Set.disjoint_left.1 (h.apart i j hij) hc hf⟩

/-- The frames of a space are its pages and tables. -/
theorem WorldOk.frames_subset (h : WorldOk kernel own ms W s) {sp : AddressSpace}
    (hj : W j = some sp) :
    frames (ms j) ⊆ own j := fun f hf => by
  obtain ⟨htaken, hnot⟩ := (h.space j sp hj).has.usable hf
  by_contra hc
  exact hnot ⟨htaken, hc⟩

/-- **Space `i` changes**, and nothing that is not its own. -/
theorem WorldOk.update (h : WorldOk kernel own ms W s) {x : Option AddressSpace} {m : Pages}
    (hsub : others own s i ⊆ s'.taken) (hsame : ∀ f ∈ others own s i, s'.content f = s.content f)
    (hsome : ∀ sp, x = some sp → SpaceOk (others own s i) sp m s')
    (hnone : x = none → s'.taken ⊆ others own s i) :
    WorldOk kernel (Function.update own i (s'.taken \ others own s i)) (Function.update ms i m)
      (Function.update W i x) s' := by
  have hj : ∀ {j}, j ≠ i → ∀ f ∈ own j, f ∈ others own s i :=
    fun hne f hf => h.own_subset_others hne.symm hf
  have hk : kernel ∈ others own s i := ⟨h.kernel_taken, h.kernel_apart i⟩
  have hdisj : ∀ {j}, j ≠ i → Disjoint (s'.taken \ others own s i) (own j) := fun hne =>
    Set.disjoint_left.2 fun f hf hfj => hf.2 (hj hne f hfj)
  refine ⟨hsub hk, fun j => ?_, fun j k hjk => ?_, fun j => ?_, fun j sp hsp => ?_,
    fun j hnon => ?_⟩
  · rcases eq_or_ne j i with rfl | hne
    · rw [Function.update_self]
      exact fun hc => hc.2 hk
    · rw [Function.update_of_ne hne]
      exact h.kernel_apart j
  · rcases eq_or_ne j i with rfl | hne
    · rw [Function.update_self, Function.update_of_ne hjk.symm]
      exact hdisj hjk.symm
    · rcases eq_or_ne k i with rfl | hne'
      · rw [Function.update_self, Function.update_of_ne hne]
        exact (hdisj hne).symm
      · rw [Function.update_of_ne hne, Function.update_of_ne hne']
        exact h.apart j k hjk
  · rcases eq_or_ne j i with rfl | hne
    · rw [Function.update_self]
      exact Set.sdiff_subset
    · rw [Function.update_of_ne hne]
      exact fun f hf => hsub (hj hne f hf)
  · rcases eq_or_ne j i with rfl | hne
    · simp only [Function.update_self] at hsp ⊢
      rw [Set.sdiff_sdiff_cancel_left hsub]
      exact hsome sp hsp
    · simp only [Function.update_of_ne hne] at hsp ⊢
      have hown : s.taken \ (s.taken \ own j) = own j := Set.sdiff_sdiff_cancel_left (h.own_taken j)
      obtain ⟨hhas, hmaps⟩ := h.space j sp hsp
      refine ⟨hhas.rebase ?_ ?_ ?_, hmaps⟩
      · rw [hown, Set.sdiff_union_of_subset fun f hf => hsub (hj hne f hf)]
      · rw [hown]
        exact Set.disjoint_sdiff_left
      · rw [hown]
        exact fun f hf => hsame f (hj hne f hf)
  · rcases eq_or_ne j i with rfl | hne
    · simp only [Function.update_self] at hnon ⊢
      exact Set.sdiff_eq_empty.2 (hnone hnon)
    · rw [Function.update_of_ne hne] at hnon ⊢
      exact h.absent j hnon

/-! ### A deed leaves the other spaces alone -/

/-- Space `j` is as it was. -/
structure Same (own : ℕ → Set ℕ) (ms : ℕ → Pages) (W : World) (s : Mem) (own' : ℕ → Set ℕ)
    (ms' : ℕ → Pages)
    (W' : World) (s' : Mem) (j : ℕ) : Prop where
  own_eq : own' j = own j
  pages_eq : ms' j = ms j
  space_eq : W' j = W j
  content_eq : ∀ f ∈ own j, s'.content f = s.content f

theorem Same.refl (own : ℕ → Set ℕ) (ms : ℕ → Pages) (W : World) (s : Mem) (j : ℕ) :
    Same own ms W s own ms W s j :=
  ⟨rfl, rfl, rfl, fun _ _ => rfl⟩

theorem Same.trans {own1 own2 : ℕ → Set ℕ} {ms1 ms2 : ℕ → Pages} {W1 W2 : World} {s1 s2 : Mem}
    (h : Same own ms W s own1 ms1 W1 s1 j) (h' : Same own1 ms1 W1 s1 own2 ms2 W2 s2 j) :
    Same own ms W s own2 ms2 W2 s2 j :=
  ⟨h'.own_eq.trans h.own_eq, h'.pages_eq.trans h.pages_eq, h'.space_eq.trans h.space_eq,
    fun f hf => (h'.content_eq f (h.own_eq ▸ hf)).trans (h.content_eq f hf)⟩

/-- **What a deed on space `i` leaves behind.** -/
def After (kernel : ℕ) (own : ℕ → Set ℕ) (ms : ℕ → Pages) (W : World) (s : Mem) (i : ℕ)
    (W' : World) (s' : Mem) :
    Prop :=
  ∃ own' ms', WorldOk kernel own' ms' W' s' ∧ ∀ j ≠ i, Same own ms W s own' ms' W' s' j

theorem WorldOk.after (h : WorldOk kernel own ms W s) : After kernel own ms W s i W s :=
  ⟨own, ms, h, fun j _ => Same.refl own ms W s j⟩

theorem WorldOk.after_update (h : WorldOk kernel own ms W s) {x : Option AddressSpace} {m : Pages}
    (hsub : others own s i ⊆ s'.taken) (hsame : ∀ f ∈ others own s i, s'.content f = s.content f)
    (hsome : ∀ sp, x = some sp → SpaceOk (others own s i) sp m s')
    (hnone : x = none → s'.taken ⊆ others own s i) :
    After kernel own ms W s i (Function.update W i x) s' := by
  refine ⟨_, _, h.update hsub hsame hsome hnone, fun j hne => ⟨?_, ?_, ?_, fun f hf => ?_⟩⟩
  · exact Function.update_of_ne hne _ _
  · exact Function.update_of_ne hne _ _
  · exact Function.update_of_ne hne _ _
  · exact hsame f (h.own_subset_others hne.symm hf)

namespace Deed

section

variable (h : WorldOk kernel own ms W s)

include h

theorem wp_make (i : ℕ) :
    wp (spec (others own s i \ {kernel})) ((make i).run kernel W)
      (fun r s' => After kernel own ms W s i r.2 s') s := by
  rw [run]
  cases hi : W i with
  | some sp => exact h.after
  | none =>
    have hothers : others own s i = s.taken := by rw [others, h.absent i hi, Set.sdiff_empty]
    simp only [bind_eq, wp_bind]
    rw [hothers]
    refine wp_mono (wp_new h.kernel_taken) fun r s' hr => ?_
    cases r with
    | error e =>
      obtain ⟨-, -, rfl⟩ := hr
      exact h.after
    | ok sp =>
      obtain ⟨hmaps, hhas, hsame⟩ := hr
      refine h.after_update (m := noPages) ?_ ?_ ?_ nofun
      · exact hothers.symm ▸ hhas.subset
      · exact hothers.symm ▸ hsame
      · rintro _ ⟨⟩
        exact ⟨hothers.symm ▸ hhas, hmaps ▸ mapsOk_nil⟩

theorem wp_call (i : ℕ) (c : Call) :
    wp (spec (others own s i \ {kernel})) ((call i c).run kernel W)
      (fun r s' => After kernel own ms W s i r.2 s') s := by
  rw [run]
  cases hi : W i with
  | none => exact h.after
  | some sp =>
    have hok := h.space i sp hi
    simp only [bind_eq, wp_bind]
    refine wp_anti Set.sdiff_subset
      (wp_mono (wp_untouched hok.has.subset (Call.wp_run hok c)) fun r s' => ?_)
    rintro ⟨⟨m, hpost⟩, hsub, hsame⟩
    refine h.after_update (m := m) hsub hsame ?_ nofun
    rintro _ ⟨⟩
    exact hpost.ok

theorem wp_destroy (i : ℕ) :
    wp (spec (others own s i \ {kernel})) ((destroy i).run kernel W)
      (fun r s' => After kernel own ms W s i r.2 s') s := by
  rw [run]
  cases hi : W i with
  | none => exact h.after
  | some sp =>
    have hok := h.space i sp hi
    simp only [bind_eq, wp_bind]
    refine wp_anti Set.sdiff_subset
      (wp_mono (wp_untouched hok.has.subset (Mm.wp_destroy hok.has)) fun _ s' => ?_)
    rintro ⟨htaken, hsub, hsame⟩
    exact h.after_update (m := noPages) hsub hsame nofun fun _ => htaken.subset

/-- **A deed**, with the frames of the other spaces out of bounds. -/
theorem wp_run (d : Deed) :
    wp (spec (others own s d.on \ {kernel})) (d.run kernel W)
      (fun r s' => After kernel own ms W s d.on r.2 s') s := by
  cases d with
  | make i => exact wp_make h i
  | call i c => exact wp_call h i c
  | destroy i => exact wp_destroy h i

/-- **A sequence of deeds on other spaces than `j`**, with the frames of `j` out of bounds. -/
theorem wp_runAll {ds : List Deed} (hds : ∀ d ∈ ds, d.on ≠ j) :
    wp (spec (own j)) (runAll kernel ds W) (fun r s' => ∃ own' ms', WorldOk kernel own' ms' r.2 s' ∧
      Same own ms W s own' ms' r.2 s' j) s := by
  induction ds generalizing own ms W s with
  | nil => exact ⟨own, ms, h, Same.refl own ms W s j⟩
  | cons d ds ih =>
    obtain ⟨hd, hds⟩ := List.forall_mem_cons.1 hds
    unfold runAll
    simp only [bind_eq, wp_bind]
    have hbounds : own j ⊆ others own s d.on \ {kernel} := fun f hf =>
      ⟨h.own_subset_others hd hf, fun hk => h.kernel_apart j (hk ▸ hf)⟩
    refine wp_anti hbounds (wp_mono (wp_run h d) fun r s1 => ?_)
    rintro ⟨own1, ms1, h1, hsame⟩
    have hj := hsame j hd.symm
    rw [← hj.own_eq]
    refine wp_mono (ih h1 hds) fun r' s2 => ?_
    rintro ⟨own2, ms2, h2, hj2⟩
    exact ⟨own2, ms2, h2, hj.trans hj2⟩

theorem wp_history (ds : List Deed) :
    wp (spec ∅) (runAll kernel ds W) (fun r s' => ∃ own' ms',
      WorldOk kernel own' ms' r.2 s') s := by
  induction ds generalizing own ms W s with
  | nil => exact ⟨own, ms, h⟩
  | cons d ds ih =>
    unfold runAll
    simp only [bind_eq, wp_bind]
    refine wp_anti (Set.empty_subset _) (wp_mono (wp_run h d) fun r s1 => ?_)
    rintro ⟨own1, ms1, h1, -⟩
    exact ih h1

end

end Deed

end World

/-! ### What a space sees -/

/-- What `user_page` finds for an address of the space. -/
def Sees (c : Machine) (sp : AddressSpace) (virt : ℕ) (x : Option (ℕ × Perm)) : Prop :=
  ((userPage sp.pml4 virt).run linearMem c).map Prod.fst = some x

/-- The frames of the space's pages. -/
def pagesOf (c : Machine) (sp : AddressSpace) : Set ℕ :=
  {f | ∃ virt a, Sees c sp virt (some (f, a))}

/-- **A machine to start from**: its allocator is in order, and the kernel's PML4 is in use. -/
structure Ready (kernel : ℕ) (c : Machine) : Prop where
  ok : c.frames.Ok
  kernel_used : ∃ i < c.frames.size, c.frames.used i = true ∧ kernel = i * page

section Sees

variable {kernel : ℕ} {own : ℕ → Set ℕ} {ms : ℕ → Pages} {W : World} {s : Mem} {c : Machine} {j : ℕ}
  {sp : AddressSpace}

theorem sees_iff {B : Set ℕ} {m : Pages} (h : Has B sp.pml4 m s) (hc : Models c s) (virt : ℕ)
    (x : Option (ℕ × Perm)) :
    Sees c sp virt x ↔ x = lookup m virt := by
  obtain ⟨y, c', s', hrun, ⟨rfl, -⟩, -⟩ := wp_run (mem_keeps B fun _ => true) hc (h.answers virt)
  unfold Sees linearMem
  rw [hrun, Option.map_some, Option.some.injEq]
  exact eq_comm

theorem pagesOf_subset (h : WorldOk kernel own ms W s) (hc : Models c s) (hj : W j = some sp) :
    pagesOf c sp ⊆ own j := by
  rintro f ⟨virt, a, hsees⟩
  rw [sees_iff (h.space j sp hj).has hc] at hsees
  exact h.frames_subset hj (mem_frames (lookup_eq_some hsees.symm).2)

/-- No spaces. -/
def noSpaces : World := fun _ => none

theorem Ready.world (h : Ready kernel c) :
    ∃ s, Models c s ∧ WorldOk kernel (fun _ => ∅) (fun _ => noPages) noSpaces s := by
  refine ⟨⟨{f | ∃ i < c.frames.size, c.frames.used i = true ∧ f = i * page}, c.content, True⟩,
    ⟨h.ok, rfl, rfl, trivial⟩, h.kernel_used, fun _ => Set.notMem_empty _, fun _ _ _ =>
      Set.disjoint_empty _,
    fun _ => Set.empty_subset _, nofun, fun _ _ => rfl⟩

end Sees

/-- **Isolation.** Whatever has been done to any number of spaces over one allocator, from a
machine that was ready, the kernel has not stopped, and then:

* nothing done to other spaces changes what space `j` sees: its pages, their frames and
  permissions, and what is in them;
* what is in `j`'s pages makes no difference to the others: from a machine that differs in
  those pages only, the same deeds have the same answers, and leave machines that differ in
  those pages only;
* a page that a call adds to a space is filled with zeros. -/
theorem isolation (may : ℕ → Bool) {kernel : ℕ} {c₀ : Machine} (hc₀ : Ready kernel c₀)
    (history : List Deed) :
    ∃ rs W c, (Deed.runAll kernel history noSpaces).run (mem may) c₀ = some ((rs, W), c) ∧
      (∀ j sp, W j = some sp → ∀ ds : List Deed, (∀ d ∈ ds, d.on ≠ j) →
        ∃ rs' W' c', (Deed.runAll kernel ds W).run (mem may) c = some ((rs', W'), c') ∧
          (W' j = some sp ∧ ∀ virt, ∃ x, Sees c sp virt x ∧ Sees c' sp virt x ∧
            ∀ f a, x = some (f, a) → c'.content f = c.content f) ∧
          ∀ c₂, Agree (pagesOf c sp) c c₂ → ∃ c₂', (Deed.runAll kernel ds W).run (mem may) c₂ =
            some ((rs', W'), c₂') ∧
            Agree (pagesOf c sp) c' c₂') ∧
      ∀ i sp, W i = some sp → ∀ call : Call, ∃ r c', (call.run sp).run (mem may) c = some (r, c') ∧
        ∀ virt f a, Sees c sp virt none → Sees c' r.2 virt (some (f, a)) →
          c'.content f = Mem.zeros := by
  obtain ⟨s₀, hs₀, hw₀⟩ := hc₀.world
  obtain ⟨⟨rs, W⟩, c, s, hrun, ⟨own, ms, hw⟩, hs⟩ :=
    wp_run (mem_keeps ∅ may) hs₀ (Deed.wp_history hw₀ history)
  refine ⟨rs, W, c, hrun, fun j sp hj ds hds => ?_, fun i sp hi call => ?_⟩
  · have hpages := pagesOf_subset hw hs hj
    have hdeeds := wp_anti hpages (Deed.wp_runAll hw hds)
    obtain ⟨⟨rs', W'⟩, c', -, s', hrun', -, ⟨own', ms', hw', hsame⟩, hs', -⟩ :=
      @run_agree _ may c c s _ _ _ hdeeds hs (Agree.refl _ c)
    have hj' : W' j = some sp := hsame.space_eq.trans hj
    have hhas := (hw.space j sp hj).has
    have hhas' := (hw'.space j sp hj').has
    refine ⟨rs', W', c', hrun', ⟨hj', fun virt => ⟨lookup (ms j) virt, ?_, ?_, fun f a hx => ?_⟩⟩,
      fun c₂ hc₂ => ?_⟩
    · exact (sees_iff hhas hs virt _).2 rfl
    · rw [sees_iff hhas' hs', hsame.pages_eq]
    · rw [← hs'.content, ← hs.content]
      exact hsame.content_eq f (hw.frames_subset hj (mem_frames (lookup_eq_some hx).2))
    · obtain ⟨r₂, c'', c₂', -, hrun₁, hrun₂, -, -, hagree⟩ :=
        @run_agree _ may c c₂ s _ _ _ hdeeds hs hc₂
      rw [hrun', Option.some.injEq, Prod.mk.injEq] at hrun₁
      obtain ⟨rfl, rfl⟩ := hrun₁
      exact ⟨c₂', hrun₂, hagree⟩
  · obtain ⟨r, c', s', hrun', ⟨m', hpost⟩, hs'⟩ :=
      wp_run (mem_keeps _ may) hs (Call.wp_run (hw.space i sp hi) call)
    refine ⟨r, c', hrun', fun virt f a hnone hsome => ?_⟩
    rw [sees_iff (hw.space i sp hi).has hs] at hnone
    rw [sees_iff hpost.ok.has hs'] at hsome
    obtain ⟨hlow, hpage⟩ := lookup_eq_some hsome.symm
    have habsent : ms i (virt / page) = none := by
      unfold lookup at hnone
      rw [if_neg (not_le.2 hlow)] at hnone
      exact hnone.symm
    rw [← hs'.content]
    exact hpost.zero _ f a habsent hpage

/-- A machine with 64 frames, two of them in use. -/
def smallMachine : Machine := ⟨⟨[3#64], 62, 2⟩, fun _ => Mem.zeros⟩

theorem ready_smallMachine : Ready page smallMachine :=
  ⟨⟨by decide, by decide⟩, 1, by decide, by decide, (Nat.one_mul page).symm⟩

theorem isolation_smallMachine :
    Ready page smallMachine ∧
    ∃ rs W c, (Deed.runAll page [.make 0, .make 1, .call 0 (.mapZeroed 0x400000 1 .readExec),
      .call 1 (.mapArea 1 9)]
        noSpaces).run userMem smallMachine = some ((rs, W), c) ∧
      (∀ j sp, W j = some sp → ∀ ds : List Deed, (∀ d ∈ ds, d.on ≠ j) →
        ∃ rs' W' c', (Deed.runAll page ds W).run userMem c = some ((rs', W'), c') ∧
          (W' j = some sp ∧ ∀ virt, ∃ x, Sees c sp virt x ∧ Sees c' sp virt x ∧
            ∀ f a, x = some (f, a) → c'.content f = c.content f) ∧
          ∀ c₂, Agree (pagesOf c sp) c c₂ →
            ∃ c₂', (Deed.runAll page ds W).run userMem c₂ = some ((rs', W'), c₂') ∧
            Agree (pagesOf c sp) c' c₂') ∧
      ∀ i sp, W i = some sp → ∀ call : Call, ∃ r c', (call.run sp).run userMem c = some (r, c') ∧
        ∀ virt f a, Sees c sp virt none → Sees c' r.2 virt (some (f, a)) →
          c'.content f = Mem.zeros :=
  ⟨ready_smallMachine, isolation userMayTake ready_smallMachine _⟩

end RelayOs.Mm
