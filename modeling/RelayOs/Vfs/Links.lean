import RelayOs.Vfs.FileSystem

/-!
# Trees with link counts

A filesystem that works keeps more than names straight: the **link count** of a file is the
number of its names, that of a directory two more than its subdirectories, and every
directory can be reached from the root. Filesystems change all this in small steps,
one name or one inode at a time, and an operation is a few of them:

* `RelayOs.Vfs.LinkTree.removeName`, `RelayOs.Vfs.LinkTree.addName` – a name taken away or
  made, with the link count that goes with it;
* `RelayOs.Vfs.LinkTree.freeInode`, `RelayOs.Vfs.LinkTree.addInode` – an inode without
  names freed or made.
-/

namespace RelayOs.Vfs

/-- Every directory can be reached from the root. -/
def Tree.Rooted (root : Ino) (t : Tree) : Prop :=
  ∀ i, t.kind i = some .directory → t.Below root i

/-- The names of an inode: the directory and the name in it. -/
def Tree.names (t : Tree) (i : Ino) : Set (Ino × Bytes) := {p | t.entry p.1 p.2 = some i}

/-- The names of a directory's subdirectories. -/
def Tree.subdirs (t : Tree) (d : Ino) : Set Bytes :=
  {n | ∃ i, t.entry d n = some i ∧ t.kind i = some .directory}

/-- **A tree with link counts**; what is not in use has none. -/
@[ext] structure LinkTree extends Tree where
  links : Ino → ℕ

namespace LinkTree

/-- Takes the name `n` out of `d`; the count that goes with it is the directory's own if the name is
a subdirectory's. -/
def removeName (t : LinkTree) (d : Ino) (n : Bytes) : LinkTree where
  toTree := t.toTree.setEntry d n none
  links := match t.entry d n with
    | none => t.links
    | some i =>
      if t.kind i = some .directory then Function.update t.links d (t.links d - 1)
      else Function.update t.links i (t.links i - 1)

/-- Frees an inode. -/
def freeInode (t : LinkTree) (i : Ino) : LinkTree where
  toTree := t.toTree.setKind i none
  links := Function.update t.links i 0

/-- A new inode, without a name. -/
def addInode (t : LinkTree) (i : Ino) (k : FileType) : LinkTree where
  toTree := t.toTree.setKind i (some k)
  links := Function.update t.links i (if k = .directory then 2 else 0)

/-- Names inode `i` in `d`. -/
def addName (t : LinkTree) (d : Ino) (n : Bytes) (i : Ino) : LinkTree where
  toTree := t.toTree.setEntry d n (some i)
  links :=
    if t.kind i = some .directory then Function.update t.links d (t.links d + 1)
    else Function.update t.links i (t.links i + 1)

/-- **The link counts are right**, on a tree that is well-formed. -/
structure Counted (root : Ino) (t : LinkTree) : Prop where
  wf : t.toTree.Wf root
  file : ∀ {i k}, t.kind i = some k → k ≠ .directory → (t.names i).encard = t.links i
  dir : ∀ {d}, t.kind d = some .directory → (t.subdirs d).encard + 2 = t.links d

variable {root d i : Ino} {n : Bytes} {t : LinkTree}

/-! ### A name taken away -/

variable {e : Ino} {m : Bytes} {k : FileType}

theorem entry_removeName :
    (t.removeName d n).entry e m = if e = d ∧ m = n then none else t.entry e m :=
  Tree.entry_setEntry _ _ _ _ _ _

@[simp] theorem kind_removeName : (t.removeName d n).kind = t.kind := rfl

theorem entry_removeName_eq_some {j : Ino} :
    (t.removeName d n).entry e m = some j ↔ ¬(e = d ∧ m = n) ∧ t.entry e m = some j := by
  rw [entry_removeName]
  split <;> simp [*]

theorem wf_removeName (h : t.Wf root) : (t.removeName d n).Wf root where
  root_dir := h.root_dir
  entry_dir := fun he => h.entry_dir (entry_removeName_eq_some.mp he).2
  entry_used := fun he => h.entry_used (entry_removeName_eq_some.mp he).2
  entry_root := fun he => h.entry_root (entry_removeName_eq_some.mp he).2
  entry_inj := fun hj he he' =>
    h.entry_inj hj (entry_removeName_eq_some.mp he).2 (entry_removeName_eq_some.mp he').2

theorem names_removeName (j : Ino) : (t.removeName d n).names j = t.names j \ {(d, n)} := by
  ext ⟨e, m⟩
  simp only [Tree.names, Set.mem_ofPred_eq, Set.mem_sdiff, Set.mem_singleton_iff, Prod.mk.injEq,
    entry_removeName]
  split <;> simp_all

theorem subdirs_removeName (e : Ino) :
    (t.removeName d n).subdirs e = if e = d then t.subdirs e \ {n} else t.subdirs e := by
  ext m
  simp only [Tree.subdirs, Set.mem_ofPred_eq, entry_removeName, kind_removeName]
  by_cases he : e = d
  · by_cases hm : m = n
    · simp [he, hm]
    · simp [he, hm]
  · simp [he]

theorem encard_sdiff_singleton {α : Type} {s : Set α} {a : α} (h : a ∈ s) {k m : ℕ}
    (hs : s.encard + m = k) : (s \ {a}).encard + m = ((k - 1 : ℕ) : ℕ∞) := by
  rw [← Set.encard_sdiff_singleton_add_one h] at hs
  have hfin : (s \ {a}).encard ≠ ⊤ := by
    intro htop
    rw [htop] at hs
    simp at hs
  obtain ⟨c, hc⟩ := ENat.ne_top_iff_exists.mp hfin
  rw [← hc] at hs ⊢
  norm_cast at hs ⊢
  omega

theorem counted_removeName (h : t.Counted root) : (t.removeName d n).Counted root where
  wf := wf_removeName h.wf
  file := fun {j k} hj hk => by
    have hcount := h.file hj hk
    rw [names_removeName, removeName]
    cases hi : t.entry d n with
    | none =>
      rw [Set.sdiff_singleton_eq_self]
      · exact hcount
      · intro hmem
        rw [Tree.names, Set.mem_ofPred_eq] at hmem
        rw [hi] at hmem
        cases hmem
    | some i =>
      simp only
      by_cases hji : j = i
      · subst hji
        have hnot : t.kind j ≠ some .directory :=
          fun hd => hk (Option.some_inj.mp (hj.symm.trans hd))
        rw [if_neg hnot, Function.update_self]
        simpa using encard_sdiff_singleton (m := 0) (show (d, n) ∈ t.names j from hi)
          (by simpa using hcount)
      · rw [Set.sdiff_singleton_eq_self, hcount]
        · split
          · rw [Function.update_of_ne]
            rintro rfl
            exact hk (Option.some_inj.mp (hj.symm.trans (h.wf.entry_dir hi)))
          · rw [Function.update_of_ne hji]
        · intro hmem
          exact hji (Option.some_inj.mp (hmem.symm.trans hi)).symm.symm
  dir := fun {e} he => by
    have hcount := h.dir he
    rw [subdirs_removeName, removeName]
    cases hi : t.entry d n with
    | none =>
      have hnot : n ∉ t.subdirs d := by
        rintro ⟨i, hi', -⟩
        rw [hi] at hi'
        cases hi'
      split
      · rename_i hed
        subst hed
        rw [Set.sdiff_singleton_eq_self hnot]
        exact hcount
      · exact hcount
    | some i =>
      simp only
      by_cases hdir : t.kind i = some .directory
      · rw [if_pos hdir]
        by_cases hed : e = d
        · subst hed
          rw [if_pos rfl, Function.update_self]
          exact encard_sdiff_singleton (m := 2) (show n ∈ t.subdirs e from ⟨i, hi, hdir⟩) hcount
        · rw [if_neg hed, Function.update_of_ne hed]
          exact hcount
      · have hei : e ≠ i := by
          rintro rfl
          exact hdir he
        rw [if_neg hdir, Function.update_of_ne hei]
        split
        · rename_i hed
          subst hed
          rw [Set.sdiff_singleton_eq_self]
          · exact hcount
          · rintro ⟨j, hj, hjd⟩
            rw [hi] at hj
            cases hj
            exact hdir hjd
        · exact hcount

/-! ### An inode without names -/

theorem ne_of_named (hname : ∀ e m, t.entry e m ≠ some i) {j : Ino}
    (he : t.entry e m = some j) : j ≠ i := by
  rintro rfl
  exact hname e m he

/-- **What has no name and no names in it** may be of any kind. -/
theorem wf_setKind (h : t.Wf root) (hroot : i ≠ root) (hname : ∀ e m, t.entry e m ≠ some i)
    (hempty : ∀ m, t.entry i m = none) (k : Option FileType) : (t.toTree.setKind i k).Wf root where
  root_dir := by
    rw [Tree.kind_setKind, if_neg hroot.symm]
    exact h.root_dir
  entry_dir := fun {e m j} he => by
    have hei : e ≠ i := by
      rintro rfl
      exact absurd (he.symm.trans (hempty m)) (by simp)
    rw [Tree.kind_setKind, if_neg hei]
    exact h.entry_dir he
  entry_used := fun {e m j} he => by
    rw [Tree.kind_setKind, if_neg (ne_of_named hname he)]
    exact h.entry_used he
  entry_root := h.entry_root
  entry_inj := fun {e m e' m' j} hj he he' => by
    rw [Tree.kind_setKind, if_neg (ne_of_named hname he)] at hj
    exact h.entry_inj hj he he'

theorem subdirs_setKind (hname : ∀ e m, t.entry e m ≠ some i) (k : Option FileType) (e : Ino) :
    (t.toTree.setKind i k).subdirs e = t.subdirs e := by
  ext m
  simp only [Tree.subdirs, Set.mem_ofPred_eq, Tree.entry_setKind, Tree.kind_setKind]
  refine exists_congr fun j => and_congr_right fun hj => ?_
  rw [if_neg (ne_of_named hname hj)]

@[simp] theorem entry_freeInode : (t.freeInode i).entry = t.entry := rfl

theorem kind_freeInode (j : Ino) : (t.freeInode i).kind j = if j = i then none else t.kind j :=
  Tree.kind_setKind _ _ _ _

theorem kind_freeInode_eq_some {j : Ino} :
    (t.freeInode i).kind j = some k ↔ j ≠ i ∧ t.kind j = some k := by
  rw [kind_freeInode]
  split <;> simp [*]

theorem links_freeInode : (t.freeInode i).links = Function.update t.links i 0 := rfl

theorem counted_freeInode (h : t.Counted root) (hroot : i ≠ root)
    (hname : ∀ e m, t.entry e m ≠ some i) (hempty : ∀ m, t.entry i m = none) :
    (t.freeInode i).Counted root where
  wf := wf_setKind h.wf hroot hname hempty none
  file := fun {j k} hj hk => by
    obtain ⟨hji, hj⟩ := kind_freeInode_eq_some.mp hj
    rw [links_freeInode, Function.update_of_ne hji]
    exact h.file hj hk
  dir := fun {e} he => by
    obtain ⟨hei, he⟩ := kind_freeInode_eq_some.mp he
    have hsub : (t.freeInode i).subdirs e = t.subdirs e := subdirs_setKind hname none e
    rw [hsub, links_freeInode, Function.update_of_ne hei]
    exact h.dir he

/-! ### An inode made -/

@[simp] theorem entry_addInode : (t.addInode i k).entry = t.entry := rfl

theorem kind_addInode (j : Ino) : (t.addInode i k).kind j = if j = i then some k else t.kind j :=
  Tree.kind_setKind _ _ _ _

theorem links_addInode : (t.addInode i k).links =
    Function.update t.links i (if k = .directory then 2 else 0) := rfl

/-- A free inode has neither names nor entries. -/
theorem entry_of_free (h : t.Wf root) (hfree : t.kind i = none) {j : Ino}
    (he : t.entry e m = some j) : e ≠ i ∧ j ≠ i := by
  constructor
  · rintro rfl
    rw [h.entry_dir he] at hfree
    cases hfree
  · rintro rfl
    exact h.entry_used he hfree

theorem entry_of_file (hw : t.Wf root) (hi : t.kind i ≠ some .directory) (m : Bytes) :
    t.entry i m = none := by
  by_contra hne
  obtain ⟨j, hj⟩ := Option.ne_none_iff_exists'.mp hne
  exact hi (hw.entry_dir hj)

theorem counted_addInode (h : t.Counted root) (hfree : t.kind i = none) :
    (t.addInode i k).Counted root where
  wf := by
    refine wf_setKind h.wf ?_ (fun e m he => (entry_of_free h.wf hfree he).2 rfl)
      (entry_of_file h.wf ?_) (some k)
    · rintro rfl
      rw [h.wf.root_dir] at hfree
      cases hfree
    · rw [hfree]
      nofun
  file := fun {j k'} hj hk' => by
    rw [kind_addInode] at hj
    change (t.names j).encard = ((t.addInode i k).links j : ℕ∞)
    rw [links_addInode]
    split at hj
    · rename_i hji
      subst hji
      cases hj
      rw [Function.update_self, if_neg hk', Nat.cast_zero, Set.encard_eq_zero]
      refine Set.eq_empty_of_forall_notMem fun p hp => ?_
      exact (entry_of_free h.wf hfree hp).2 rfl
    · rename_i hji
      rw [Function.update_of_ne hji]
      exact h.file hj hk'
  dir := fun {e} he => by
    rw [kind_addInode] at he
    have hsub : (t.addInode i k).subdirs e = t.subdirs e :=
      subdirs_setKind (fun e m hem => (entry_of_free h.wf hfree hem).2 rfl) (some k) e
    rw [hsub, links_addInode]
    split at he
    · rename_i hei
      subst hei
      cases he
      have hnone : t.subdirs e = ∅ := by
        refine Set.eq_empty_of_forall_notMem fun m => ?_
        rintro ⟨j, hj, -⟩
        exact (entry_of_free h.wf hfree hj).1 rfl
      rw [Function.update_self, if_pos rfl, hnone, Set.encard_empty]
      rfl
    · rename_i hei
      rw [Function.update_of_ne hei]
      exact h.dir he

/-! ### A name made -/

theorem entry_addName :
    (t.addName d n i).entry e m = if e = d ∧ m = n then some i else t.entry e m :=
  Tree.entry_setEntry _ _ _ _ _ _

@[simp] theorem kind_addName : (t.addName d n i).kind = t.kind := rfl

theorem links_addName : (t.addName d n i).links =
    if t.kind i = some .directory then Function.update t.links d (t.links d + 1)
    else Function.update t.links i (t.links i + 1) := rfl

theorem wf_addName (h : t.Wf root) (hd : t.kind d = some .directory) (hi : t.kind i ≠ none)
    (hroot : i ≠ root) (hdir : t.kind i = some .directory → ∀ e m, t.entry e m ≠ some i) :
    (t.addName d n i).Wf root where
  root_dir := h.root_dir
  entry_dir := fun {e m j} he => by
    rw [entry_addName] at he
    split at he
    · rename_i hem
      rw [hem.1]
      exact hd
    · exact h.entry_dir he
  entry_used := fun {e m j} he => by
    rw [entry_addName] at he
    split at he
    · cases he
      exact hi
    · exact h.entry_used he
  entry_root := fun {e m} he => by
    rw [entry_addName] at he
    split at he
    · cases he
      exact hroot rfl
    · exact h.entry_root he
  entry_inj := fun {e m e' m' j} hj he he' => by
    rw [entry_addName] at he he'
    split at he <;> split at he'
    · rename_i h1 h2
      exact ⟨h1.1.trans h2.1.symm, h1.2.trans h2.2.symm⟩
    · cases he
      exact absurd he' (hdir hj e' m')
    · cases he'
      exact absurd he (hdir hj e m)
    · exact h.entry_inj hj he he'

theorem names_addName (hfree : t.entry d n = none) (j : Ino) :
    (t.addName d n i).names j = if j = i then insert (d, n) (t.names j) else t.names j := by
  ext ⟨e, m⟩
  by_cases hem : e = d ∧ m = n
  · obtain ⟨rfl, rfl⟩ := hem
    by_cases hji : j = i
    · simp [Tree.names, entry_addName, hji]
    · simp [Tree.names, entry_addName, hji, hfree, Ne.symm hji]
  · have hne : (e, m) ≠ (d, n) := fun h => hem (Prod.mk.inj h)
    by_cases hji : j = i
    · rw [if_pos hji, Set.mem_insert_iff, or_iff_right hne]
      simp only [Tree.names, Set.mem_ofPred_eq, entry_addName, if_neg hem]
    · rw [if_neg hji]
      simp only [Tree.names, Set.mem_ofPred_eq, entry_addName, if_neg hem]

theorem subdirs_addName (hfree : t.entry d n = none) (e : Ino) :
    (t.addName d n i).subdirs e = if e = d ∧ t.kind i = some .directory then insert n (t.subdirs e)
      else t.subdirs e := by
  ext m
  by_cases hem : e = d ∧ m = n
  · obtain ⟨rfl, rfl⟩ := hem
    by_cases hdir : t.kind i = some .directory
    · simp [Tree.subdirs, entry_addName, hdir]
    · simp [Tree.subdirs, entry_addName, hdir, hfree]
  · by_cases hdir : e = d ∧ t.kind i = some .directory
    · have hne : m ≠ n := fun h => hem ⟨hdir.1, h⟩
      simp [Tree.subdirs, entry_addName, hdir, hne]
    · simp [Tree.subdirs, entry_addName, hem, hdir]

theorem counted_addName (h : t.Counted root) (hfree : t.entry d n = none)
    (hd : t.kind d = some .directory) (hi : t.kind i ≠ none) (hroot : i ≠ root)
    (hdir : t.kind i = some .directory → ∀ e m, t.entry e m ≠ some i) :
    (t.addName d n i).Counted root where
  wf := wf_addName h.wf hd hi hroot hdir
  file := fun {j k} hj hk => by
    have hcount := h.file hj hk
    have hnot : t.kind j ≠ some .directory := fun hd => hk (Option.some_inj.mp (hj.symm.trans hd))
    rw [names_addName hfree, links_addName]
    split
    · rename_i hji
      subst hji
      rw [if_neg hnot, Function.update_self, Set.encard_insert_of_notMem, hcount]
      · norm_cast
      · intro hmem
        rw [Tree.names, Set.mem_ofPred_eq] at hmem
        rw [hfree] at hmem
        cases hmem
    · rename_i hji
      have hjd : j ≠ d := by
        rintro rfl
        exact hnot hd
      split
      · rw [Function.update_of_ne hjd]
        exact hcount
      · rw [Function.update_of_ne hji]
        exact hcount
  dir := fun {e} he => by
    have hcount := h.dir he
    rw [subdirs_addName hfree, links_addName]
    split
    · rename_i hed
      obtain ⟨rfl, hid⟩ := hed
      rw [if_pos hid, Function.update_self, Set.encard_insert_of_notMem]
      · rw [add_right_comm, hcount]
        norm_cast
      · rintro ⟨j, hj, -⟩
        rw [hfree] at hj
        cases hj
    · rename_i hed
      split
      · rename_i hid
        have hne : e ≠ d := fun h => hed ⟨h, hid⟩
        rw [Function.update_of_ne hne]
        exact hcount
      · rename_i hid
        have hei : e ≠ i := by
          rintro rfl
          exact hid he
        rw [Function.update_of_ne hei]
        exact hcount

end LinkTree

/-! ### What can be reached -/

namespace Tree

variable {t t' : Tree} {root : Ino}

theorem Below.trans {a b c : Ino} (hab : t.Below a b) (hbc : t.Below b c) : t.Below a c := by
  induction hbc with
  | refl => exact hab
  | step _ he ih => exact .step ih he

/-- Names made take nothing out of reach. -/
theorem Below.mono {a b : Ino} (h : t.Below a b)
    (hentry : ∀ e m j, t.entry e m = some j → t'.entry e m = some j) : t'.Below a b := by
  induction h with
  | refl => exact .refl
  | step _ he ih => exact .step ih (hentry _ _ _ he)

theorem Rooted.of_keep (h : t.Rooted root)
    (hkind : ∀ j, t'.kind j = some .directory → t.kind j = some .directory)
    (hentry : ∀ e m j, t.entry e m = some j → t'.kind j = some .directory →
      t'.entry e m = some j ∧ t'.kind e = some .directory) : t'.Rooted root := by
  intro j hj
  have hbelow := h j (hkind j hj)
  clear hkind
  induction hbelow with
  | refl => exact .refl
  | step _ he ih =>
    obtain ⟨he', hdir⟩ := hentry _ _ _ he hj
    exact .step (ih hdir) he'

/-- **No directory lies below itself** but by being itself: what is below one of its
names is not above it. -/
theorem Rooted.not_below (h : t.Rooted root) (hw : t.Wf root) {d i : Ino} {n : Bytes}
    (he : t.entry d n = some i) (hi : t.kind i = some .directory) : ¬t.Below i d := by
  intro hbelow
  -- on the way from the root, the first directory that lies below `i` would be the root
  have hall : ∀ j, t.Below root j → t.kind j = some .directory → t.Below i j → t.Below i root := by
    intro j hj
    induction hj with
    | refl => exact fun _ h => h
    | step hre he' ih =>
      rename_i e j m
      intro hjd hij
      refine ih (hw.entry_dir he') ?_
      cases hij with
      | refl =>
        obtain ⟨rfl, -⟩ := hw.entry_inj hjd he' he
        exact hbelow
      | step hie he'' =>
        obtain ⟨rfl, -⟩ := hw.entry_inj hjd he' he''
        exact hie
  have hroot := hall i (h i hi) hi .refl
  cases hroot with
  | refl => exact hw.entry_root he
  | step _ he' => exact hw.entry_root he'

end Tree

/-! ### Whole operations -/

namespace LinkTree

/-- **A consistent tree**: the link counts are right, and every directory can be reached. -/
structure Consistent (root : Ino) (t : LinkTree) : Prop extends t.Counted root where
  rooted : t.toTree.Rooted root

/-- A new inode of kind `k`, named `n` in `d`. -/
def make (t : LinkTree) (d : Ino) (n : Bytes) (i : Ino) (k : FileType) : LinkTree :=
  (t.addInode i k).addName d n i

/-- The name `n` of the non-directory `i` taken out of `d`; the inode goes with its last name. -/
def unlink (t : LinkTree) (d : Ino) (n : Bytes) (i : Ino) : LinkTree :=
  if (t.removeName d n).links i = 0 then (t.removeName d n).freeInode i else t.removeName d n

/-- The empty directory `i`, named `n` in `d`, removed. -/
def rmdir (t : LinkTree) (d : Ino) (n : Bytes) (i : Ino) : LinkTree :=
  (t.removeName d n).freeInode i

/-- What a move replaces, removed. -/
def replace (t : LinkTree) (d : Ino) (n : Bytes) : LinkTree :=
  match t.entry d n with
  | none => t
  | some j => if t.kind j = some .directory then t.rmdir d n j else t.unlink d n j

/-- Inode `i` moved from the name `n` in `d` to `n'` in `d'`. -/
def move (t : LinkTree) (d : Ino) (n : Bytes) (d' : Ino) (n' : Bytes) (i : Ino) : LinkTree :=
  ((t.replace d' n').removeName d n).addName d' n' i

variable {root d i : Ino} {n : Bytes} {t : LinkTree}

theorem Consistent.make (h : t.Consistent root) {k : FileType} (hd : t.kind d = some .directory)
    (hn : t.entry d n = none) (hi : t.kind i = none) : (t.make d n i k).Consistent root := by
  have hdi : d ≠ i := by
    rintro rfl
    rw [hd] at hi
    cases hi
  have hd' : (t.addInode i k).kind d = some .directory := by rw [kind_addInode, if_neg hdi, hd]
  have hi' : (t.addInode i k).kind i = some k := by rw [kind_addInode, if_pos rfl]
  have hentry : ∀ e m j, t.entry e m = some j → (t.make d n i k).entry e m = some j := by
    intro e m j he
    rw [LinkTree.make, entry_addName, if_neg]
    · exact he
    · rintro ⟨rfl, rfl⟩
      rw [hn] at he
      cases he
  refine ⟨counted_addName (counted_addInode h.toCounted hi) hn hd' ?_ ?_ ?_, fun j hj => ?_⟩
  · rw [hi']
    exact Option.some_ne_none k
  · rintro rfl
    rw [h.wf.root_dir] at hi
    cases hi
  · exact fun _ e m he => (entry_of_free h.wf hi he).2 rfl
  · have hbelow : (t.make d n i k).Below root d := (h.rooted d hd).mono hentry
    by_cases hji : j = i
    · subst hji
      exact .step hbelow (by rw [LinkTree.make, entry_addName, if_pos ⟨rfl, rfl⟩])
    · refine (h.rooted j ?_).mono hentry
      rw [LinkTree.make, kind_addName, kind_addInode, if_neg hji] at hj
      exact hj

theorem rooted_removeName (h : t.Rooted root) (hw : t.Wf root) (he : t.entry d n = some i)
    (hi : t.kind i ≠ some .directory) : (t.removeName d n).Rooted root := by
  refine h.of_keep (fun _ hj => hj) fun e m j hj hjd => ⟨?_, hw.entry_dir hj⟩
  refine entry_removeName_eq_some.mpr ⟨?_, hj⟩
  rintro ⟨rfl, rfl⟩
  rw [he] at hj
  cases hj
  exact hi hjd

theorem rooted_freeInode (h : t.Rooted root) (hw : t.Wf root) (hi : t.kind i ≠ some .directory) :
    (t.freeInode i).Rooted root := by
  refine h.of_keep (fun j hj => ?_) fun e m j hj hjd => ⟨hj, ?_⟩
  · exact (kind_freeInode_eq_some.mp hj).2
  · refine kind_freeInode_eq_some.mpr ⟨?_, hw.entry_dir hj⟩
    rintro rfl
    exact hi (hw.entry_dir hj)

theorem Counted.not_named (h : t.Counted root) {k : FileType} (hk : t.kind i = some k)
    (hfile : k ≠ .directory) (hlinks : t.links i = 0) (e : Ino) (m : Bytes) :
    t.entry e m ≠ some i := by
  intro he
  have hcount := h.file hk hfile
  rw [hlinks, Nat.cast_zero, Set.encard_eq_zero] at hcount
  have hmem : (e, m) ∈ t.names i := he
  rw [hcount] at hmem
  exact hmem

theorem Consistent.unlink (h : t.Consistent root) (he : t.entry d n = some i)
    (hi : t.kind i ≠ some .directory) : (t.unlink d n i).Consistent root := by
  have hcounted := counted_removeName h.toCounted (d := d) (n := n)
  have hrooted := rooted_removeName h.rooted h.wf he hi
  unfold LinkTree.unlink
  split
  · rename_i hlinks
    obtain ⟨k, hk⟩ := Option.ne_none_iff_exists'.mp (h.wf.entry_used he)
    have hfile : k ≠ .directory := fun hd => hi (hk.trans (by rw [hd]))
    refine ⟨counted_freeInode hcounted ?_ (hcounted.not_named hk hfile hlinks)
      (entry_of_file hcounted.wf hi), rooted_freeInode hrooted hcounted.wf hi⟩
    rintro rfl
    exact hi h.wf.root_dir
  · exact ⟨hcounted, hrooted⟩

theorem Consistent.rmdir (h : t.Consistent root) (he : t.entry d n = some i)
    (hi : t.kind i = some .directory) (hempty : ∀ m, t.entry i m = none) :
    (t.rmdir d n i).Consistent root := by
  have hcounted := counted_removeName h.toCounted (d := d) (n := n)
  have hkeep : ∀ e m j, t.entry e m = some j → j ≠ i → (t.removeName d n).entry e m = some j := by
    intro e m j hj hji
    refine entry_removeName_eq_some.mpr ⟨?_, hj⟩
    rintro ⟨rfl, rfl⟩
    exact hji (Option.some_inj.mp (hj.symm.trans he))
  refine ⟨counted_freeInode hcounted ?_ (fun e m hem => ?_) fun m => ?_, ?_⟩
  · rintro rfl
    exact h.wf.entry_root he
  · obtain ⟨hne, hem⟩ := entry_removeName_eq_some.mp hem
    exact hne (h.wf.entry_inj hi hem he)
  · rw [entry_removeName, hempty]
    split <;> rfl
  · refine h.rooted.of_keep (fun j hj => ?_) fun e m j hj hjd => ?_
    · exact (kind_freeInode_eq_some.mp hj).2
    · refine ⟨hkeep e m j hj (kind_freeInode_eq_some.mp hjd).1, ?_⟩
      refine kind_freeInode_eq_some.mpr ⟨?_, h.wf.entry_dir hj⟩
      rintro rfl
      rw [hempty] at hj
      cases hj

/-! ### Moving -/

/-- **What a move needs**: the name it moves, a directory to move it to that is not below
it, and what it may replace. -/
structure MayMove (t : LinkTree) (d : Ino) (n : Bytes) (d' : Ino) (n' : Bytes) (i : Ino) :
    Prop where
  src_dir : t.kind d = some .directory
  src : t.entry d n = some i
  dst_dir : t.kind d' = some .directory
  ne : t.entry d' n' ≠ some i
  not_below : t.kind i = some .directory → ¬t.Below i d'
  replaced : ∀ j, t.entry d' n' = some j →
    (t.kind j = some .directory ↔ t.kind i = some .directory) ∧
    (t.kind j = some .directory → ∀ m, t.entry j m = none)

section Move

variable {d' : Ino} {n' : Bytes}

theorem entry_replace (e : Ino) (m : Bytes) :
    (t.replace d n).entry e m = if e = d ∧ m = n then none else t.entry e m := by
  unfold replace
  cases hj : t.entry d n with
  | none =>
    simp only
    split
    · rename_i hem
      rw [hem.1, hem.2, hj]
    · rfl
  | some j =>
    simp only
    unfold rmdir unlink
    split <;> [skip; split] <;> exact entry_removeName

/-- The inode a move frees: what it replaces, if that loses its last name. -/
def freedBy (t : LinkTree) (d : Ino) (n : Bytes) : Option Ino :=
  (t.entry d n).filter fun j => t.kind j = some .directory ∨ (t.removeName d n).links j = 0

theorem kind_replace (j : Ino) :
    (t.replace d n).kind j = if t.freedBy d n = some j then none else t.kind j := by
  unfold replace freedBy
  cases hi : t.entry d n with
  | none => simp
  | some i =>
    simp only [Option.filter_some]
    by_cases hdir : t.kind i = some .directory
    · by_cases hji : j = i
      · simp [hdir, rmdir, kind_freeInode, hji]
      · simp [hdir, rmdir, kind_freeInode, hji, Ne.symm hji]
    · by_cases hlinks : (t.removeName d n).links i = 0
      · by_cases hji : j = i
        · simp [hdir, hlinks, unlink, kind_freeInode, hji]
        · simp [hdir, hlinks, unlink, kind_freeInode, hji, Ne.symm hji]
      · simp [hdir, hlinks, unlink]

theorem freedBy_eq_some {j : Ino} (h : t.freedBy d n = some j) : t.entry d n = some j :=
  (Option.filter_eq_some_iff.mp h).1

/-- A move is one that the contract allows. -/
theorem MayMove.moves (h : t.MayMove d n d' n' i) :
    t.toTree.Moves d n d' n' i (t.freedBy d' n') (t.move d n d' n' i).toTree where
  src := h.src
  dst_dir := h.dst_dir
  ne := h.ne
  not_below := h.not_below
  replaced := fun j hj => by
    obtain ⟨hiff, hempty⟩ := h.replaced j hj
    refine ⟨hiff, fun hdir => ⟨?_, hempty hdir⟩⟩
    rw [freedBy, hj, Option.filter_some, if_pos]
    exact decide_eq_true (Or.inl hdir)
  freed_eq := fun j hj => freedBy_eq_some hj
  eq := by
    have hkind : (t.move d n d' n' i).kind = (t.replace d' n').kind := rfl
    refine Tree.ext ?_ ?_
    · rw [hkind]
      funext j
      rw [kind_replace]
      cases hf : t.freedBy d' n' with
      | none => simp
      | some f => simp [Tree.kind_setKind, eq_comm]
    · funext e m
      have hentry : (t.move d n d' n' i).entry e m = if e = d' ∧ m = n' then some i
          else if e = d ∧ m = n then none else t.entry e m := by
        rw [move, entry_addName, entry_removeName, entry_replace]
        split
        · rfl
        · rfl
      rw [hentry, Tree.entry_setEntry, Tree.entry_setEntry]
      cases t.freedBy d' n' <;> rfl

/-- What a move replaces is removed as its kind asks. -/
theorem Consistent.replace (h : t.Consistent root)
    (hempty : ∀ j, t.entry d n = some j → t.kind j = some .directory → ∀ m, t.entry j m = none) :
    (t.replace d n).Consistent root := by
  unfold LinkTree.replace
  cases hj : t.entry d n with
  | none => exact h
  | some j =>
    simp only
    split
    · rename_i hdir
      exact h.rmdir hj hdir (hempty j hj hdir)
    · rename_i hdir
      exact h.unlink hj hdir

/-- What moves, and where to, are not replaced. -/
theorem MayMove.kind_replace (hm : t.MayMove d n d' n' i) {j : Ino} (hj : j = i ∨ j = d' ∨ j = d) :
    (t.replace d' n').kind j = t.kind j := by
  rw [LinkTree.kind_replace, if_neg]
  intro hf
  have hentry := freedBy_eq_some hf
  rcases hj with rfl | rfl | rfl
  · exact hm.ne hentry
  · rw [(hm.replaced j hentry).2 hm.dst_dir] at hentry
    cases hentry
  · -- a directory that is replaced has no names in it
    have := (hm.replaced j hentry).2 hm.src_dir n
    rw [hm.src] at this
    cases this

theorem MayMove.entry_replace (hm : t.MayMove d n d' n' i) :
    (t.replace d' n').entry d n = some i := by
  rw [LinkTree.entry_replace, if_neg]
  · exact hm.src
  · rintro ⟨rfl, rfl⟩
    exact hm.ne hm.src

theorem Consistent.move (h : t.Consistent root) (hm : t.MayMove d n d' n' i) :
    (t.move d n d' n' i).Consistent root := by
  have h1 := h.replace fun j hj hdir => (hm.replaced j hj).2 hdir
  have hkind := hm.kind_replace (Or.inl rfl)
  have hsrc := hm.entry_replace
  have hdst : (t.replace d' n').entry d' n' = none := by rw [entry_replace, if_pos ⟨rfl, rfl⟩]
  have hbelow : ∀ a b, (t.replace d' n').Below a b → t.Below a b := fun a b hab =>
    hab.mono fun e m j hj => by
      rw [entry_replace] at hj
      split at hj
      · cases hj
      · exact hj
  have hnot : t.kind i = some .directory → ¬(t.replace d' n').Below i d' := fun hdir hb =>
    hm.not_below hdir (hbelow _ _ hb)
  rw [← hkind] at hnot
  have hd' : (t.replace d' n').kind d' = some .directory := by
    rw [hm.kind_replace (Or.inr (Or.inl rfl))]
    exact hm.dst_dir
  unfold LinkTree.move
  clear hkind
  generalize t.replace d' n' = t1 at h1 hsrc hdst hnot hd'
  have hkeep : ∀ e m j, t1.entry e m = some j → ¬(e = d ∧ m = n) →
      ((t1.removeName d n).addName d' n' i).entry e m = some j := by
    intro e m j hj hne
    rw [entry_addName, entry_removeName, if_neg, if_neg hne]
    · exact hj
    · rintro ⟨rfl, rfl⟩
      rw [hdst] at hj
      cases hj
  refine ⟨counted_addName (counted_removeName h1.toCounted) ?_ hd' (h1.wf.entry_used hsrc) ?_ ?_,
    ?_⟩
  · rw [entry_removeName, hdst]
    split <;> rfl
  · rintro rfl
    exact h1.wf.entry_root hsrc
  · intro hdir e m he
    obtain ⟨hne, he⟩ := entry_removeName_eq_some.mp he
    exact hne (h1.wf.entry_inj hdir he hsrc)
  · by_cases hdir : t1.kind i = some .directory
    · -- what is not below the directory that moves is reached as before
      have hothers : ∀ j, t1.Below root j → ¬t1.Below i j →
          ((t1.removeName d n).addName d' n' i).Below root j := by
        intro j hj
        induction hj with
        | refl => exact fun _ => .refl
        | @step e j m _ he ih =>
          intro hij
          refine .step (ih fun hie => hij (.step hie he)) (hkeep e m j he ?_)
          rintro ⟨rfl, rfl⟩
          rw [hsrc] at he
          cases he
          exact hij .refl
      -- and what is below it, from its new place
      have hinside : ∀ j, t1.Below i j → ((t1.removeName d n).addName d' n' i).Below i j := by
        intro j hj
        induction hj with
        | refl => exact .refl
        | step hie he ih =>
          rename_i e j m
          refine .step ih (hkeep e m j he ?_)
          rintro ⟨rfl, rfl⟩
          exact h1.rooted.not_below h1.wf hsrc hdir hie
      intro j hj
      by_cases hij : t1.Below i j
      · refine Tree.Below.trans ?_ (hinside j hij)
        exact .step (hothers d' (h1.rooted d' hd') (hnot hdir))
          (by rw [entry_addName, if_pos ⟨rfl, rfl⟩])
      · exact hothers j (h1.rooted j hj) hij
    · have h2 := rooted_removeName h1.rooted h1.wf hsrc hdir
      intro j hj
      refine (h2 j hj).mono fun e m j' hj' => ?_
      rw [entry_addName, if_neg]
      · exact hj'
      · rintro ⟨rfl, rfl⟩
        rw [entry_removeName, hdst] at hj'
        split at hj' <;> cases hj'

/-- **The link counts after a move**: only a directory that changes its parent takes a
link along. -/
theorem MayMove.links_move (h : t.Consistent root) (hm : t.MayMove d n d' n' i) :
    (t.move d n d' n' i).links =
      let l := (t.replace d' n').links
      if t.kind i = some .directory ∧ d ≠ d' then
        Function.update (Function.update l d (l d - 1)) d' (Function.update l d (l d - 1) d' + 1)
      else l := by
  have h1 := h.replace fun j hj hdir => (hm.replaced j hj).2 hdir
  have hkind := hm.kind_replace (Or.inl rfl)
  have hsrc := hm.entry_replace
  have hddir := (hm.kind_replace (Or.inr (Or.inr rfl))).trans hm.src_dir
  simp only [LinkTree.move, links_addName, kind_removeName, hkind]
  rw [removeName, hsrc]
  simp only [hkind]
  by_cases hdir : t.kind i = some .directory
  · by_cases hdd : d = d'
    · subst hdd
      have hpos : 1 ≤ (t.replace d n').links d := by
        have hcount := h1.dir hddir
        have : (1 : ℕ∞) ≤ ((t.replace d n').links d : ℕ∞) := by
          rw [← hcount]
          exact le_add_left (by decide)
        exact_mod_cast this
      simp only [hdir, if_true, ne_eq, not_true_eq_false, and_false, if_false,
        Function.update_self, Function.update_idem]
      rw [Nat.sub_add_cancel hpos, Function.update_eq_self]
    · simp only [hdir, if_true, ne_eq, hdd, not_false_eq_true, and_self]
  · have hpos : 1 ≤ (t.replace d' n').links i := by
      obtain ⟨k, hk⟩ := Option.ne_none_iff_exists'.mp (h1.wf.entry_used hsrc)
      have hcount := h1.file hk fun hkd => hdir (by rw [← hkind, hk, hkd])
      have hmem : (d, n) ∈ (t.replace d' n').names i := hsrc
      have : (1 : ℕ∞) ≤ ((t.replace d' n').links i : ℕ∞) := by
        rw [← hcount]
        exact Set.one_le_encard_iff_nonempty.mpr ⟨_, hmem⟩
      exact_mod_cast this
    simp only [hdir, if_false, false_and, Function.update_self, Function.update_idem]
    rw [Nat.sub_add_cancel hpos, Function.update_eq_self]

end Move

end LinkTree

end RelayOs.Vfs
