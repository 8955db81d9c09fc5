import RelayOs.Vfs.Links
import RelayOs.Vfs.MemFs

/-!
# The filesystem in memory keeps the contract

`RelayOs.Vfs.MemFs.view` is the tree with link counts that a filesystem in memory shows, and
`RelayOs.Vfs.MemFs.Good` what holds of it from the first moment on: the tree is consistent,
and the `parent` of every directory is the one it has its name in. Each operation that
succeeds is one of the operations on trees, and one that fails changes nothing; so
`RelayOs.Vfs.MemFs.contract` follows from what is known of trees.
-/

namespace RelayOs.Vfs

namespace Body

/-- What a name in a directory refers to. -/
def entry : Body → Bytes → Option Ino
  | .dir _ entries, n => entries[n]?
  | _, _ => none

/-- The directory above a directory. -/
def parent : Body → Option Ino
  | .dir parent _ => some parent
  | _ => none

theorem eq_dir_of_kind {b : Body} (h : b.kind = .directory) : ∃ p es, b = .dir p es := by
  cases b with
  | dir p es => exact ⟨p, es, rfl⟩
  | special k hk => exact absurd h hk.2.1
  | file size chunks => cases h
  | symlink target => cases h

end Body

namespace MemFs

/-- **The tree a filesystem in memory shows.** -/
def view (fs : MemFs) : LinkTree where
  kind i := fs.nodes[i]?.map fun n => n.body.kind
  entry d n := fs.nodes[d]?.bind fun nd => nd.body.entry n
  links i := (fs.nodes[i]?.map MemNode.nlink).getD 0

/-- The directory above a directory, as the directory has it. -/
def parentOf (fs : MemFs) (i : Ino) : Option Ino := fs.nodes[i]?.bind fun n => n.body.parent

variable {fs : MemFs} {i d : Ino} {n : Bytes}

/-- The tree shown is compared node by node. -/
theorem view_ext {t : LinkTree} (h : ∀ j, fs.view.kind j = t.kind j ∧ fs.view.entry j = t.entry j ∧
    fs.view.links j = t.links j) : fs.view = t :=
  LinkTree.ext (funext fun j => (h j).1) (funext fun j => (h j).2.1) (funext fun j => (h j).2.2)

theorem exists_node_of_dir (h : fs.view.kind i = some .directory) :
    ∃ nd p es, fs.nodes[i]? = some nd ∧ nd.body = .dir p es := by
  obtain ⟨nd, hnd, hk⟩ := Option.map_eq_some_iff.mp h
  obtain ⟨p, es, hb⟩ := Body.eq_dir_of_kind hk
  exact ⟨nd, p, es, hnd, hb⟩

theorem parentOf_isSome (h : fs.view.kind i = some .directory) : ∃ p, fs.parentOf i = some p := by
  obtain ⟨nd, p, es, hnd, hb⟩ := exists_node_of_dir h
  exact ⟨p, by rw [parentOf, hnd, Option.bind_some, hb]; rfl⟩

variable {p j d' : Ino} {f : MemNode → MemNode} {nd : MemNode} {k : FileType} {l : List Ino}
  {e : Errno} {u : Unit} {perm : ℕ} {body : Body} {fs' : MemFs} {n' : Bytes} {target : Option Ino}
  {srcIsDir : Bool}

theorem kind_of_parentOf (h : fs.parentOf i = some p) : fs.view.kind i = some .directory := by
  obtain ⟨nd, hnd, hp⟩ := Option.bind_eq_some_iff.mp h
  refine Option.map_eq_some_iff.mpr ⟨nd, hnd, ?_⟩
  cases hb : nd.body <;> rw [hb] at hp <;> first | rfl | cases hp

/-! ### The maps after a change -/

theorem compare_eq_eq_iff {α : Type} [Ord α] [Std.LawfulEqOrd α] (a c : α) :
    compare a c = .eq ↔ c = a :=
  Std.LawfulEqOrd.compare_eq_iff_eq.trans eq_comm

section Map

variable {α β : Type} [Ord α] [Std.TransOrd α] [Std.LawfulEqOrd α] [DecidableEq α]

theorem getElem?_insert_iff (m : Std.TreeMap α β) (a : α) (b : β) (c : α) :
    (m.insert a b)[c]? = if c = a then some b else m[c]? := by
  rw [Std.TreeMap.getElem?_insert]
  exact if_congr (compare_eq_eq_iff a c) rfl rfl

theorem getElem?_erase_iff (m : Std.TreeMap α β) (a c : α) :
    (m.erase a)[c]? = if c = a then none else m[c]? := by
  rw [Std.TreeMap.getElem?_erase]
  exact if_congr (compare_eq_eq_iff a c) rfl rfl

end Map

theorem nodes_put (nd : MemNode) (j : Ino) :
    (fs.put i nd).nodes[j]? = if j = i then some nd else fs.nodes[j]? := by
  exact getElem?_insert_iff fs.nodes i nd j

theorem nodes_modify (f : MemNode → MemNode) (j : Ino) :
    (fs.modify i f).nodes[j]? = if j = i then fs.nodes[i]?.map f else fs.nodes[j]? := by
  unfold modify
  cases hi : fs.nodes[i]? with
  | none =>
    simp only
    split
    · rename_i hji
      rw [hji, hi, Option.map_none]
    · rfl
  | some nd =>
    simp only [nodes_put, Option.map_some]

theorem view_modify_of_same
    (hkind : ∀ nd, (f nd).body.kind = nd.body.kind)
    (hentry : ∀ nd, (f nd).body.entry = nd.body.entry)
    (hlink : ∀ nd, (f nd).nlink = nd.nlink) : (fs.modify i f).view = fs.view := by
  refine view_ext fun j => ?_
  simp only [view, nodes_modify]
  split
  · rename_i hji
    rw [hji]
    cases fs.nodes[i]? with
    | none => exact ⟨rfl, rfl, rfl⟩
    | some nd => simp only [Option.map_some, Option.bind_some, hkind, hentry, hlink, and_self]
  · exact ⟨rfl, rfl, rfl⟩

theorem parentOf_modify_of_same (hparent : ∀ nd, (f nd).body.parent = nd.body.parent) (j : Ino) :
    (fs.modify i f).parentOf j = fs.parentOf j := by
  unfold parentOf
  rw [nodes_modify]
  split
  · rename_i hji
    rw [hji]
    cases fs.nodes[i]? with
    | none => rfl
    | some nd => rw [Option.map_some, Option.bind_some, Option.bind_some, hparent]
  · rfl

@[simp] theorem view_changedDir (now : ℕ) : (fs.changedDir i now).view = fs.view :=
  view_modify_of_same (f := fun nd => nd.stamp now) (fun _ => rfl) (fun _ => rfl) fun _ => rfl

@[simp] theorem parentOf_changedDir (now : ℕ) (j : Ino) :
    (fs.changedDir i now).parentOf j = fs.parentOf j :=
  parentOf_modify_of_same (f := fun nd => nd.stamp now) (fun _ => rfl) j

@[simp] theorem parentOf_modify_nlink {g : ℕ → ℕ} (j : Ino) :
    (fs.modify i fun nd => { nd with nlink := g nd.nlink }).parentOf j = fs.parentOf j :=
  parentOf_modify_of_same (f := fun nd => { nd with nlink := g nd.nlink }) (fun _ => rfl) j

/-- A link count set. -/
theorem view_modify_nlink {g : ℕ → ℕ} (hi : fs.view.kind i ≠ none) :
    (fs.modify i fun nd => { nd with nlink := g nd.nlink }).view =
      { fs.view with links := Function.update fs.view.links i (g (fs.view.links i)) } := by
  have hsome : ∃ nd, fs.nodes[i]? = some nd := by
    refine Option.ne_none_iff_exists'.mp fun h => hi ?_
    simp only [view, h, Option.map_none]
  obtain ⟨nd, hnd⟩ := hsome
  refine view_ext fun j => ?_
  simp only [view, nodes_modify, Function.update_apply]
  split
  · rename_i hji
    rw [hji, hnd]
    exact ⟨rfl, rfl, rfl⟩
  · exact ⟨rfl, rfl, rfl⟩

/-- An entry set. -/
theorem view_modifyEntries {f : Std.TreeMap Bytes Ino → Std.TreeMap Bytes Ino} {v : Option Ino}
    (hd : fs.view.kind d = some .directory)
    (hf : ∀ es m, (f es)[m]? = if m = n then v else es[m]?) :
    (fs.modifyEntries d f).view = { fs.view with toTree := fs.view.toTree.setEntry d n v } := by
  obtain ⟨nd, p, es, hnd, hb⟩ := exists_node_of_dir hd
  refine view_ext fun j => ?_
  simp only [view, modifyEntries, nodes_modify, Tree.kind_setEntry]
  by_cases hjd : j = d
  · subst hjd
    rw [if_pos rfl, hnd]
    simp only [Option.map_some, hb, Body.kind, true_and, and_true]
    funext m
    simp only [Tree.entry_setEntry, Option.bind_some, Body.entry, hf, true_and, hnd, hb]
  · rw [if_neg hjd]
    refine ⟨rfl, funext fun m => ?_, rfl⟩
    rw [Tree.entry_setEntry, if_neg fun h => hjd h.1]

theorem parentOf_modifyEntries {f : Std.TreeMap Bytes Ino → Std.TreeMap Bytes Ino} (j : Ino) :
    (fs.modifyEntries d f).parentOf j = fs.parentOf j := by
  refine parentOf_modify_of_same (fun nd => ?_) j
  obtain ⟨_, _, _, _, _, _, _, body⟩ := nd
  cases body <;> rfl

theorem nodes_dropLink (hi : fs.nodes[i]? = some nd) (now : ℕ) (j : Ino) :
    (fs.dropLink i now).nodes[j]? = if j = i then
        if nd.nlink - 1 > 0 ∧ nd.body.kind ≠ .directory then
          some { nd with nlink := nd.nlink - 1, ctime := now }
        else none
      else fs.nodes[j]? := by
  unfold dropLink
  rw [hi]
  simp only
  split
  · exact nodes_put _ _
  · exact getElem?_erase_iff fs.nodes i j

/-- A link dropped, and the inode with the last one. -/
theorem view_dropLink (hi : fs.view.kind i = some k)
    (hempty : ∀ m, fs.view.entry i m = none) (now : ℕ) : (fs.dropLink i now).view =
      if fs.view.links i - 1 > 0 ∧ k ≠ .directory then
        { fs.view with links := Function.update fs.view.links i (fs.view.links i - 1) }
      else fs.view.freeInode i := by
  obtain ⟨nd, hnd, rfl⟩ := Option.map_eq_some_iff.mp hi
  have hlinks : fs.view.links i = nd.nlink := by simp only [view, hnd, Option.map_some, Option.getD]
  rw [hlinks]
  refine view_ext fun j => ?_
  split
  · rename_i hkeep
    simp only [view, nodes_dropLink hnd, if_pos hkeep, Function.update_apply]
    split
    · rename_i hji
      rw [hji, hnd]
      exact ⟨rfl, rfl, rfl⟩
    · exact ⟨rfl, rfl, rfl⟩
  · rename_i hfree
    simp only [LinkTree.kind_freeInode, LinkTree.links_freeInode, view,
      nodes_dropLink hnd, if_neg hfree,
      Function.update_apply]
    split
    · rename_i hji
      refine ⟨rfl, funext fun m => ?_, rfl⟩
      rw [LinkTree.entry_freeInode, hji]
      exact (hempty m).symm
    · exact ⟨rfl, rfl, rfl⟩

theorem parentOf_dropLink {now : ℕ} (h : (fs.dropLink i now).parentOf j = some p) :
    fs.parentOf j = some p := by
  cases hi : fs.nodes[i]? with
  | none =>
    unfold dropLink at h
    rw [hi] at h
    exact h
  | some nd =>
    unfold parentOf at h ⊢
    rw [nodes_dropLink hi] at h
    split at h
    · rename_i hji
      rw [hji, hi]
      split at h
      · exact h
      · cases h
    · exact h

theorem parentOf_dropLink_of_ne {now : ℕ} (hj : j ≠ i) :
    (fs.dropLink i now).parentOf j = fs.parentOf j := by
  cases hi : fs.nodes[i]? with
  | none =>
    unfold dropLink
    rw [hi]
  | some nd =>
    unfold parentOf
    rw [nodes_dropLink hi, if_neg hj]

/-! ### The invariant -/

/-- **A filesystem in memory in order**: its tree is consistent, and every directory knows
the one it has its name in. -/
structure Good (fs : MemFs) : Prop where
  consistent : fs.view.Consistent rootIno
  parent_root : fs.parentOf rootIno = some rootIno
  parent_eq : ∀ {d n i p}, fs.view.entry d n = some i → fs.parentOf i = some p → p = d

/-- Asking the clock changes nothing that is shown. -/
theorem Good.now (h : fs.Good) : fs.now.2.Good := ⟨h.consistent, h.parent_root, h.parent_eq⟩

/-- The directories from one up to the root. -/
inductive WayUp (fs : MemFs) : Ino → List Ino → Prop
  | root : WayUp fs rootIno [rootIno]
  | step {i p : Ino} {l : List Ino} : i ≠ rootIno → fs.parentOf i = some p → WayUp fs p l →
      WayUp fs i (i :: l)

theorem WayUp.unique {l' : List Ino} (h : fs.WayUp i l) (h' : fs.WayUp i l') : l = l' := by
  induction h generalizing l' with
  | root =>
    cases h' with
    | root => rfl
    | step hne => exact absurd rfl hne
  | step hne hp _ ih =>
    cases h' with
    | root => exact absurd rfl hne
    | step _ hp' h' =>
      rw [hp] at hp'
      cases hp'
      rw [ih h']

theorem WayUp.of_mem (h : fs.WayUp i l) (hj : j ∈ l) :
    ∃ l', fs.WayUp j l' ∧ l'.length ≤ l.length := by
  induction h with
  | root =>
    rw [List.mem_singleton.mp hj]
    exact ⟨_, .root, le_rfl⟩
  | @step i p l hne hp hl ih =>
    rcases List.mem_cons.mp hj with rfl | hj
    · exact ⟨_, .step hne hp hl, le_rfl⟩
    · obtain ⟨l', hl', hlen⟩ := ih hj
      exact ⟨l', hl', by rw [List.length_cons]; omega⟩

/-- **No directory is passed twice on the way up.** -/
theorem WayUp.nodup (h : fs.WayUp i l) : l.Nodup := by
  induction h with
  | root => exact List.nodup_singleton _
  | @step i p l hne hp hl ih =>
    refine List.nodup_cons.mpr ⟨fun hmem => ?_, ih⟩
    obtain ⟨l', hl', hlen⟩ := hl.of_mem hmem
    have heq := congrArg List.length (hl'.unique (.step hne hp hl))
    rw [List.length_cons] at heq
    omega

theorem WayUp.length_le (hg : fs.Good) (h : fs.WayUp i l) : l.length ≤ fs.nodes.size := by
  have hsub : l ⊆ fs.nodes.keys := by
    intro j hj
    have hp : ∃ p, fs.parentOf j = some p := by
      obtain ⟨l', hl', -⟩ := h.of_mem hj
      cases hl' with
      | root => exact ⟨_, hg.parent_root⟩
      | step _ hp _ => exact ⟨_, hp⟩
    obtain ⟨p, hp⟩ := hp
    obtain ⟨nd, hnd, -⟩ := Option.bind_eq_some_iff.mp hp
    rw [Std.TreeMap.mem_keys, Std.TreeMap.mem_iff_isSome_getElem?, hnd]
    rfl
  rw [← Std.TreeMap.length_keys]
  exact (h.nodup.subperm hsub).length_le

theorem Good.exists_wayUp (hg : fs.Good) (hi : fs.view.kind i = some .directory) :
    ∃ l, fs.WayUp i l := by
  have hbelow := hg.consistent.rooted i hi
  induction hbelow with
  | refl => exact ⟨_, .root⟩
  | step _ he ih =>
    obtain ⟨l, hl⟩ := ih (hg.consistent.wf.entry_dir he)
    obtain ⟨p, hp⟩ := parentOf_isSome hi
    obtain rfl := hg.parent_eq he hp
    refine ⟨_, .step ?_ hp hl⟩
    rintro rfl
    exact hg.consistent.wf.entry_root he

/-- The directories on the way up are those a directory lies below. -/
theorem WayUp.mem_iff (hg : fs.Good) (h : fs.WayUp i l)
    (hi : fs.view.kind i = some .directory) (a : Ino) : a ∈ l ↔ fs.view.Below a i := by
  constructor
  · intro ha
    induction h with
    | root =>
      rw [List.mem_singleton.mp ha]
      exact .refl
    | @step i p l hne hp hl ih =>
      rcases List.mem_cons.mp ha with rfl | ha
      · exact .refl
      · cases hg.consistent.rooted i hi with
        | refl => exact absurd rfl hne
        | step _ he =>
          obtain rfl := hg.parent_eq he hp
          exact .step (ih (hg.consistent.wf.entry_dir he) ha) he
  · intro hbelow
    induction hbelow generalizing l with
    | refl => cases h <;> exact List.mem_cons_self
    | step _ he ih =>
      cases h with
      | root => exact absurd he hg.consistent.wf.entry_root
      | step _ hp hl =>
        obtain rfl := hg.parent_eq he hp
        exact List.mem_cons_of_mem _ (ih hl (hg.consistent.wf.entry_dir he))

theorem WayUp.isAncestorLoop (hg : fs.Good) (h : fs.WayUp i l) (a : Ino)
    {steps : ℕ} (hsteps : l.length ≤ steps) :
    fs.isAncestorLoop a steps i = some (decide (a ∈ l)) := by
  have hbody : ∀ {j p}, fs.parentOf j = some p → ∃ nd es, fs.nodes[j]? = some nd ∧
      nd.body = .dir p es := by
    intro j p hp
    obtain ⟨nd, p', es, hnd, hb⟩ := exists_node_of_dir (kind_of_parentOf hp)
    rw [parentOf, hnd, Option.bind_some, hb] at hp
    cases hp
    exact ⟨nd, es, hnd, hb⟩
  induction h generalizing steps with
  | root =>
    obtain ⟨steps, rfl⟩ := Nat.exists_eq_succ_of_ne_zero (show steps ≠ 0 by simp at hsteps; omega)
    obtain ⟨⟨_, _, _, _, _, _, _, body⟩, es, hnd, rfl⟩ := hbody hg.parent_root
    by_cases ha : rootIno = a
    · simp [MemFs.isAncestorLoop, ha]
    · simp [MemFs.isAncestorLoop, hnd, ha, Ne.symm ha]
  | @step i p l hne hp hl ih =>
    obtain ⟨steps, rfl⟩ := Nat.exists_eq_succ_of_ne_zero (show steps ≠ 0 by simp at hsteps; omega)
    obtain ⟨⟨_, _, _, _, _, _, _, body⟩, es, hnd, rfl⟩ := hbody hp
    have hpi : p ≠ i := by
      rintro rfl
      have heq := congrArg List.length (hl.unique (.step hne hp hl))
      rw [List.length_cons] at heq
      omega
    have hih := ih (show l.length ≤ steps by rw [List.length_cons] at hsteps; omega)
    by_cases ha : i = a
    · simp [MemFs.isAncestorLoop, ha]
    · simp [MemFs.isAncestorLoop, hnd, ha, Ne.symm ha, hpi, hih]

/-- **The way up ends, and finds what lies above.** -/
theorem isAncestor_eq (hg : fs.Good) (hi : fs.view.kind i = some .directory) (a : Ino) :
    ∃ b, fs.isAncestor a i = some b ∧ (b = true ↔ fs.view.Below a i) := by
  obtain ⟨l, hl⟩ := hg.exists_wayUp hi
  refine ⟨_, hl.isAncestorLoop hg a ?_, ?_⟩
  · have := hl.length_le hg
    omega
  · rw [decide_eq_true_iff]
    exact hl.mem_iff hg hi a

/-! ### What the checks find -/

theorem of_bind_eq_ok {α β : Type} {x : Except Errno α} {f : α → Except Errno β} {b : β}
    (h : (x >>= f) = .ok b) : ∃ a, x = .ok a ∧ f a = .ok b := by
  cases x with
  | error e => cases h
  | ok a => exact ⟨a, rfl, h⟩

theorem of_refuse_eq_ok {c : Prop} [Decidable c] (h : refuse c e = .ok u) : ¬c := by
  intro hc
  rw [refuse, if_pos hc] at h
  cases h

theorem nodes_of_node (h : fs.node i = .ok nd) : fs.nodes[i]? = some nd := by
  unfold node at h
  split at h
  · rename_i hn
    cases h
    exact hn
  · cases h

/-- The entries of a directory. -/
theorem of_entries {es : Std.TreeMap Bytes Ino} (h : fs.entries d = .ok es) :
    fs.view.kind d = some .directory ∧ ∀ m, fs.view.entry d m = es[m]? := by
  obtain ⟨nd, hnd, h⟩ := of_bind_eq_ok h
  have hn := nodes_of_node hnd
  split at h
  · rename_i p es' hb
    cases h
    simp only [view, hn, Option.map_some, Option.bind_some, hb, Body.kind, Body.entry, and_self,
      implies_true]
  · cases h

theorem of_isDir {b : Bool} (h : fs.isDir i = .ok b) :
    fs.view.kind i ≠ none ∧ (b = true ↔ fs.view.kind i = some .directory) := by
  obtain ⟨nd, hnd, h⟩ := of_bind_eq_ok h
  have hn := nodes_of_node hnd
  simp only [view, hn, Option.map_some]
  refine ⟨Option.some_ne_none _, ?_⟩
  split at h
  · rename_i p es hb
    cases h
    simp [hb, Body.kind]
  · rename_i hb
    cases h
    simp only [Bool.false_eq_true, Option.some_inj, false_iff]
    intro hk
    obtain ⟨p, es, hd⟩ := Body.eq_dir_of_kind hk
    exact hb p es hd

theorem of_checkChange (h : fs.checkChange d n = .ok u) :
    NameOk n ∧ fs.view.kind d = some .directory := by
  obtain ⟨_, _, h⟩ := of_bind_eq_ok h
  obtain ⟨_, _, h⟩ := of_bind_eq_ok h
  obtain ⟨_, hname, h⟩ := of_bind_eq_ok h
  obtain ⟨es, hes, -⟩ := of_bind_eq_ok h
  exact ⟨checkName_ok_iff.mp hname, (of_entries hes).1⟩

theorem of_lookup (hn : NameOk n) (h : fs.lookup d n = .ok i) :
    fs.view.kind d = some .directory ∧ fs.view.entry d n = some i := by
  obtain ⟨es, hes, h⟩ := of_bind_eq_ok h
  obtain ⟨hkind, hentry⟩ := of_entries hes
  rw [if_neg hn.ne_dot, if_neg hn.ne_dotdot] at h
  refine ⟨hkind, ?_⟩
  split at h
  · rename_i j hj
    cases h
    rw [hentry, hj]
  · cases h

/-! ### Making -/

theorem firstFree_notMem {l : List ℕ} (hl : l.Pairwise (· < ·)) {k : ℕ} (hk : ∀ j ∈ l, k ≤ j) :
    firstFree k l ∉ l ∧ k ≤ firstFree k l := by
  induction l generalizing k with
  | nil => exact ⟨List.not_mem_nil, le_rfl⟩
  | cons u rest ih =>
    obtain ⟨hu, hrest⟩ := List.pairwise_cons.mp hl
    have hku := hk u List.mem_cons_self
    unfold firstFree
    split
    · rename_i hne
      refine ⟨fun hmem => ?_, le_rfl⟩
      rcases List.mem_cons.mp hmem with h | h
      · exact hne h.symm
      · have := hu k h
        omega
    · rename_i heq
      have heq : u = k := not_not.mp heq
      obtain ⟨hnot, hle⟩ := ih hrest (k := k + 1) fun j hj => Nat.succ_le_of_lt (heq ▸ hu j hj)
      refine ⟨fun hmem => ?_, by omega⟩
      rcases List.mem_cons.mp hmem with h | h
      · omega
      · exact hnot h

/-- **The number of a new inode is free.** -/
theorem nodes_freeIno (fs : MemFs) : fs.nodes[fs.freeIno]? = none := by
  by_contra hne
  have hsorted : (fs.nodes.keys.filter fun k => rootIno < k).Pairwise (· < ·) := by
    refine List.Pairwise.filter _ (Std.TreeMap.ordered_keys.imp fun h => ?_)
    exact Nat.compare_eq_lt.mp h
  obtain ⟨hnot, hle⟩ := firstFree_notMem hsorted (k := rootIno + 1) fun j hj => by
    have := (List.mem_filter.mp hj).2
    simp only [decide_eq_true_eq] at this
    exact this
  refine hnot (List.mem_filter.mpr ⟨?_, ?_⟩)
  · rw [Std.TreeMap.mem_keys, Std.TreeMap.mem_iff_isSome_getElem?]
    exact Option.isSome_iff_ne_none.mpr hne
  · exact decide_eq_true hle

theorem kind_freeIno (fs : MemFs) : fs.view.kind fs.freeIno = none := by
  simp only [view, nodes_freeIno, Option.map_none]

theorem view_put_new {nlink now : ℕ} (hi : fs.nodes[i]? = none)
    (hbody : ∀ m, body.entry m = none) : (fs.put i (.new perm nlink now body)).view =
      { toTree := fs.view.toTree.setKind i (some body.kind)
        links := Function.update fs.view.links i nlink } := by
  refine view_ext fun j => ?_
  simp only [view, nodes_put, Tree.kind_setKind, Function.update_apply]
  split
  · rename_i hji
    refine ⟨rfl, funext fun m => ?_, rfl⟩
    simp only [Tree.entry_setKind, hji, hi, Option.bind_none]
    exact hbody m
  · exact ⟨rfl, rfl, rfl⟩

theorem view_newNode (hbody : ∀ m, body.entry m = none)  (h : fs.newNode d n perm body =
    (.ok i, fs')) :
    fs.view.kind d = some .directory ∧ fs.view.entry d n = none ∧ fs.view.kind i = none ∧
      fs'.view = { toTree := (fs.view.toTree.setKind i (some body.kind)).setEntry d n (some i)
                   links := Function.update fs.view.links i
                     (if body.kind = .directory then 2 else 1) } ∧
      ∀ j, fs'.parentOf j = if j = i then body.parent else fs.parentOf j := by
  unfold newNode at h
  split at h
  · cases h
  · rename_i hchecks
    obtain ⟨_, hcheck, hchecks⟩ := of_bind_eq_ok hchecks
    obtain ⟨es, hes, hchecks⟩ := of_bind_eq_ok hchecks
    obtain ⟨hdir, hentry⟩ := of_entries hes
    have hfree := of_refuse_eq_ok hchecks
    simp only [Prod.mk.injEq, Except.ok.injEq] at h
    obtain ⟨rfl, rfl⟩ := h
    have hnew : fs.now.2.nodes[fs.now.2.freeIno]? = none := nodes_freeIno _
    have hdi : d ≠ fs.now.2.freeIno := by
      intro hd
      rw [hd] at hdir
      simp only [view] at hdir
      rw [show fs.nodes[fs.now.2.freeIno]? = none from hnew] at hdir
      cases hdir
    refine ⟨hdir, ?_, kind_freeIno _, ?_, fun j => ?_⟩
    · rw [hentry]
      by_contra hne
      exact hfree (Std.TreeMap.mem_iff_isSome_getElem?.mpr (Option.isSome_iff_ne_none.mpr hne))
    · rw [view_changedDir, view_modifyEntries (v := some _) ?_
        (fun es m => getElem?_insert_iff es n _ m),
        view_put_new hnew hbody]
      · rfl
      · rw [view_put_new hnew hbody]
        simp only [Tree.kind_setKind, if_neg hdi]
        exact hdir
    · rw [parentOf_changedDir, parentOf_modifyEntries, parentOf, nodes_put]
      split <;> rfl

theorem newNode_error
    (h : fs.newNode d n perm body = (.error e, fs')) : fs' = fs := by
  unfold newNode at h
  split at h
  · cases h
    rfl
  · cases h

theorem view_create (h : fs.create d n = (.ok i, fs')) :
    fs.view.kind d = some .directory ∧ fs.view.entry d n = none ∧ fs.view.kind i = none ∧
      fs'.view = fs.view.make d n i .regular ∧
      ∀ j, fs'.parentOf j = if j = i then none else fs.parentOf j := by
  obtain ⟨hdir, hentry, hfree, hview, hparent⟩ := view_newNode (fun _ => rfl) h
  refine ⟨hdir, hentry, hfree, ?_, hparent⟩
  rw [hview]
  refine LinkTree.ext rfl rfl ?_
  simp only [LinkTree.make, LinkTree.links_addName, LinkTree.kind_addInode, if_true,
    LinkTree.links_addInode, Body.kind]
  rw [if_neg (by decide), if_neg (by decide), Function.update_self, Function.update_idem]
  rfl

theorem view_mkdir (h : fs.mkdir d n = (.ok i, fs')) :
    fs.view.kind d = some .directory ∧ fs.view.entry d n = none ∧ fs.view.kind i = none ∧
      fs'.view = fs.view.make d n i .directory ∧
      ∀ j, fs'.parentOf j = if j = i then some d else fs.parentOf j := by
  unfold mkdir at h
  split at h
  · cases h
  · rename_i ino fs1 hnew
    obtain ⟨rfl, rfl⟩ : ino = i ∧ _ = fs' := by simpa using h
    obtain ⟨hdir, hentry, hfree, hview, hparent⟩ := view_newNode (fun _ => by rfl) hnew
    have hdi : d ≠ ino := by
      rintro rfl
      rw [hdir] at hfree
      cases hfree
    refine ⟨hdir, hentry, hfree, ?_, fun j => ?_⟩
    · rw [view_modify_nlink (g := fun l => l + 1), hview]
      · refine LinkTree.ext rfl rfl ?_
        simp only [LinkTree.make, LinkTree.links_addName, LinkTree.kind_addInode, if_true,
          LinkTree.links_addInode]
        rfl
      · rw [hview]
        simp only [Tree.kind_setEntry, Tree.kind_setKind, if_neg hdi]
        rw [hdir]
        exact Option.some_ne_none _
    · rw [parentOf_modify_nlink (g := fun l => l + 1), hparent]
      rfl

/-! ### Removing -/

theorem view_erase (hd : fs.view.kind d = some .directory) :
    (fs.modifyEntries d fun es => es.erase n).view =
      { fs.view with toTree := fs.view.toTree.setEntry d n none } :=
  view_modifyEntries hd fun es m => getElem?_erase_iff es n m

theorem view_unlink (hg : fs.Good) (h : fs.unlink d n = (.ok (), fs')) :
    ∃ i, fs.view.entry d n = some i ∧ fs.view.kind i ≠ some .directory ∧
      fs'.view = fs.view.unlink d n i ∧ ∀ j p, fs'.parentOf j = some p ↔
        fs.parentOf j = some p := by
  unfold unlink at h
  split at h
  · cases h
  · rename_i i hchecks
    obtain ⟨_, hcheck, hchecks⟩ := of_bind_eq_ok hchecks
    obtain ⟨i', hlookup, hchecks⟩ := of_bind_eq_ok hchecks
    obtain ⟨b, hisDir, hchecks⟩ := of_bind_eq_ok hchecks
    obtain ⟨_, hrefuse, hchecks⟩ := of_bind_eq_ok hchecks
    cases hchecks
    obtain ⟨hname, -⟩ := of_checkChange hcheck
    obtain ⟨hdir, hentry⟩ := of_lookup hname hlookup
    obtain ⟨hused, hiff⟩ := of_isDir hisDir
    have hfile : fs.view.kind i ≠ some .directory := fun hk =>
      of_refuse_eq_ok hrefuse (hiff.mpr hk)
    obtain ⟨k, hk⟩ := Option.ne_none_iff_exists'.mp hused
    have hkf : k ≠ .directory := fun hd => hfile (hk.trans (by rw [hd]))
    have hempty : ∀ m, fs.view.entry i m = none :=
      LinkTree.entry_of_file hg.consistent.wf hfile
    have herase : (fs.now.2.modifyEntries d fun es => es.erase n).view =
        { fs.view with toTree := fs.view.toTree.setEntry d n none } := view_erase hdir
    simp only [Prod.mk.injEq, true_and] at h
    subst h
    refine ⟨i, hentry, hfile, ?_, fun j p => ?_⟩
    · rw [view_changedDir, view_dropLink (k := k), herase]
      · refine LinkTree.ext ?_ ?_ ?_
        all_goals
          simp only [LinkTree.unlink, LinkTree.removeName, hentry, if_neg hfile,
            Function.update_self]
          by_cases hl : fs.view.links i - 1 = 0
          · rw [if_neg (by omega), if_pos hl]
            simp [LinkTree.freeInode]
          · rw [if_pos ⟨by omega, hkf⟩, if_neg hl]
      · rw [herase]
        exact hk
      · intro m
        rw [herase]
        simp only [Tree.entry_setEntry]
        split
        · rfl
        · exact hempty m
    · rw [parentOf_changedDir]
      constructor
      · intro hp
        have := parentOf_dropLink hp
        rwa [parentOf_modifyEntries] at this
      · intro hp
        have hji : j ≠ i := by
          rintro rfl
          exact hfile (kind_of_parentOf hp)
        rw [parentOf_dropLink_of_ne hji, parentOf_modifyEntries]
        exact hp

theorem view_rmdir (h : fs.rmdir d n = (.ok (), fs')) :
    ∃ i, fs.view.entry d n = some i ∧ fs.view.kind i = some .directory ∧
      (∀ m, fs.view.entry i m = none) ∧ fs'.view = fs.view.rmdir d n i ∧
      (∀ j p, fs'.parentOf j = some p → fs.parentOf j = some p) ∧
      ∀ j, j ≠ i → fs'.parentOf j = fs.parentOf j := by
  unfold rmdir at h
  split at h
  · cases h
  · rename_i i hchecks
    obtain ⟨_, hcheck, hchecks⟩ := of_bind_eq_ok hchecks
    obtain ⟨i', hlookup, hchecks⟩ := of_bind_eq_ok hchecks
    obtain ⟨es, hes, hchecks⟩ := of_bind_eq_ok hchecks
    obtain ⟨_, hrefuse, hchecks⟩ := of_bind_eq_ok hchecks
    cases hchecks
    obtain ⟨hname, -⟩ := of_checkChange hcheck
    obtain ⟨hdir, hentry⟩ := of_lookup hname hlookup
    obtain ⟨hidir, hies⟩ := of_entries hes
    have hisEmpty : es.isEmpty = true := not_not.mp (of_refuse_eq_ok hrefuse)
    have hempty : ∀ m, fs.view.entry i m = none := by
      intro m
      rw [hies]
      exact Std.TreeMap.getElem?_of_isEmpty hisEmpty
    have hdi : d ≠ i := by
      rintro rfl
      rw [hempty] at hentry
      cases hentry
    have herase : (fs.now.2.modifyEntries d fun es => es.erase n).view =
        { fs.view with toTree := fs.view.toTree.setEntry d n none } := view_erase hdir
    have hdrop : ∀ now, ((fs.now.2.modifyEntries d fun es => es.erase n).dropLink i now).view =
        LinkTree.freeInode { fs.view with toTree := fs.view.toTree.setEntry d n none } i := by
      intro now
      rw [view_dropLink (k := .directory), if_neg (fun h => h.2 rfl), herase]
      · rw [herase]
        exact hidir
      · intro m
        rw [herase]
        simp only [Tree.entry_setEntry]
        split
        · rfl
        · exact hempty m
    simp only [Prod.mk.injEq, true_and] at h
    subst h
    refine ⟨i, hentry, hidir, hempty, ?_, fun j p hp => ?_, fun j hj => ?_⟩
    · rw [view_changedDir, view_modify_nlink (g := fun l => l - 1), hdrop]
      · refine LinkTree.ext ?_ ?_ ?_
        · rfl
        · rfl
        · simp only [LinkTree.rmdir, LinkTree.links_freeInode, LinkTree.removeName, hentry,
            if_pos hidir]
          rw [Function.update_of_ne hdi, Function.update_comm hdi]
      · rw [hdrop, LinkTree.kind_freeInode, if_neg hdi]
        simp only [Tree.kind_setEntry]
        rw [hdir]
        exact Option.some_ne_none _
    · rw [parentOf_changedDir, parentOf_modify_nlink (g := fun l => l - 1)] at hp
      have := parentOf_dropLink hp
      rwa [parentOf_modifyEntries] at this
    · rw [parentOf_changedDir, parentOf_modify_nlink (g := fun l => l - 1),
        parentOf_dropLink_of_ne hj, parentOf_modifyEntries]
      rfl

/-! ### Moving -/

theorem of_renameFinds
    (h : fs.renameFinds d n d' n' = .ok (i, target)) :
    fs.view.kind d = some .directory ∧ fs.view.kind d' = some .directory ∧
      fs.view.entry d n = some i ∧ fs.view.entry d' n' = target := by
  obtain ⟨_, _, h⟩ := of_bind_eq_ok h
  obtain ⟨_, _, h⟩ := of_bind_eq_ok h
  obtain ⟨_, _, h⟩ := of_bind_eq_ok h
  obtain ⟨_, hname, h⟩ := of_bind_eq_ok h
  obtain ⟨_, _, h⟩ := of_bind_eq_ok h
  obtain ⟨_, _, h⟩ := of_bind_eq_ok h
  obtain ⟨_, _, h⟩ := of_bind_eq_ok h
  obtain ⟨i', hlookup, h⟩ := of_bind_eq_ok h
  obtain ⟨es, hes, h⟩ := of_bind_eq_ok h
  cases h
  obtain ⟨hd, he⟩ := of_lookup (checkName_ok_iff.mp hname) hlookup
  obtain ⟨hd', hes'⟩ := of_entries hes
  exact ⟨hd, hd', he, hes' n'⟩

theorem of_mayReplace {t : Ino} (h : fs.mayReplace srcIsDir (some t) = .ok u) :
    fs.view.kind t ≠ none ∧ (fs.view.kind t = some .directory ↔ srcIsDir = true) ∧
      (fs.view.kind t = some .directory → ∀ m, fs.view.entry t m = none) := by
  obtain ⟨b, hisDir, h⟩ := of_bind_eq_ok h
  obtain ⟨_, h1, h⟩ := of_bind_eq_ok h
  obtain ⟨_, h2, h⟩ := of_bind_eq_ok h
  obtain ⟨hused, hiff⟩ := of_isDir hisDir
  have h1 := of_refuse_eq_ok h1
  have h2 := of_refuse_eq_ok h2
  refine ⟨hused, ?_, fun hdir m => ?_⟩
  · rw [← hiff]
    cases b <;> cases srcIsDir <;> simp_all
  · rw [if_pos (hiff.mpr hdir)] at h
    obtain ⟨es, hes, h⟩ := of_bind_eq_ok h
    have hempty : es.isEmpty = true := not_not.mp (of_refuse_eq_ok h)
    rw [(of_entries hes).2]
    exact Std.TreeMap.getElem?_of_isEmpty hempty

theorem isDir_eq (h : fs.view.kind i = some k) : fs.isDir i = .ok (decide (k = .directory)) := by
  obtain ⟨nd, hnd, rfl⟩ := Option.map_eq_some_iff.mp h
  obtain ⟨_, _, _, _, _, _, _, body⟩ := nd
  unfold isDir node
  rw [hnd]
  cases body with
  | special k hk =>
    simp only [Body.kind, hk.2.1, decide_false]
    rfl
  | _ => rfl

theorem view_dropTarget (hg : fs.Good) (ht : fs.view.entry d n = target)
    (hd : fs.view.kind d = some .directory)
    (hempty : ∀ t, target = some t → fs.view.kind t = some .directory →
      ∀ m, fs.view.entry t m = none) (now : ℕ) :
    (fs.dropTarget now d target).view.kind = (fs.view.replace d n).kind ∧
      (fs.dropTarget now d target).view.entry = fs.view.entry ∧
      (fs.dropTarget now d target).view.links = (fs.view.replace d n).links := by
  cases target with
  | none => simp only [dropTarget, LinkTree.replace, ht, and_self]
  | some t =>
    obtain ⟨k, hk⟩ := Option.ne_none_iff_exists'.mp (hg.consistent.wf.entry_used ht)
    have hte : ∀ m, fs.view.entry t m = none := by
      by_cases hdir : fs.view.kind t = some .directory
      · exact hempty t rfl hdir
      · exact LinkTree.entry_of_file hg.consistent.wf hdir
    simp only [dropTarget, isDir_eq hk, LinkTree.replace, ht]
    by_cases hkd : k = .directory
    · subst hkd
      have hlink := view_modify_nlink (g := fun l => l - 1)
        (show fs.view.kind d ≠ none by rw [hd]; exact Option.some_ne_none _)
      simp only [decide_true, if_pos hk]
      rw [view_dropLink (k := .directory) (by rw [hlink]; exact hk) (by rw [hlink]; exact hte),
        if_neg (fun h => h.2 rfl), hlink]
      refine ⟨rfl, rfl, ?_⟩
      simp only [LinkTree.rmdir, LinkTree.links_freeInode, LinkTree.removeName, ht, if_pos hk]
    · have hfile : fs.view.kind t ≠ some .directory := fun h =>
        hkd (Option.some_inj.mp (hk.symm.trans h))
      simp only [hkd, decide_false, if_neg hfile]
      rw [view_dropLink hk hte]
      simp only [LinkTree.unlink, LinkTree.removeName, ht, if_neg hfile, Function.update_self]
      by_cases hl : fs.view.links t - 1 = 0
      · rw [if_neg (by omega), if_pos hl]
        refine ⟨rfl, rfl, ?_⟩
        simp only [LinkTree.links_freeInode, Function.update_idem]
      · rw [if_pos ⟨by omega, hkd⟩, if_neg hl]
        exact ⟨rfl, rfl, rfl⟩

theorem parentOf_dropTarget {now : ℕ}
    (h : (fs.dropTarget now d target).parentOf j = some p) : fs.parentOf j = some p := by
  cases target with
  | none => exact h
  | some t =>
    have h' := parentOf_dropLink h
    split at h'
    · rwa [parentOf_modify_nlink (g := fun l => l - 1)] at h'
    · exact h'

theorem parentOf_dropTarget_of_ne {now : ℕ}
    (h : target ≠ some j) : (fs.dropTarget now d target).parentOf j = fs.parentOf j := by
  cases target with
  | none => rfl
  | some t =>
    have hjt : j ≠ t := by
      rintro rfl
      exact h rfl
    unfold dropTarget
    rw [parentOf_dropLink_of_ne hjt]
    split
    · exact parentOf_modify_nlink (g := fun l => l - 1) j
    · rfl

theorem parentOf_setParent (p : Ino) (j : Ino) :
    (fs.modify i fun nd => nd.setParent p).parentOf j =
      if j = i then (fs.parentOf i).map fun _ => p else fs.parentOf j := by
  unfold parentOf
  rw [nodes_modify]
  split
  · cases fs.nodes[i]? with
    | none => rfl
    | some nd =>
      obtain ⟨_, _, _, _, _, _, _, body⟩ := nd
      cases body <;> rfl
  · rfl

theorem view_setParent (p : Ino) : (fs.modify i fun nd => nd.setParent p).view = fs.view := by
  have hsame : ∀ nd : MemNode, (nd.setParent p).body.kind = nd.body.kind ∧
      (nd.setParent p).body.entry = nd.body.entry ∧ (nd.setParent p).nlink = nd.nlink := by
    rintro ⟨_, _, _, _, _, _, _, body⟩
    cases body <;> exact ⟨rfl, rfl, rfl⟩
  refine view_modify_of_same (fun nd => (hsame nd).1) (fun nd => (hsame nd).2.1)
    fun nd => (hsame nd).2.2

theorem view_reparent (hd : fs.view.kind d ≠ none) (hd' : fs.view.kind d' ≠ none) :
    (fs.reparent d d' i).view =
      { toTree := fs.view.toTree
        links := Function.update (Function.update fs.view.links d (fs.view.links d - 1)) d'
          (Function.update fs.view.links d (fs.view.links d - 1) d' + 1) } := by
  have h1 : (fs.modify i fun nd => nd.setParent d').view = fs.view := view_setParent d'
  unfold reparent
  rw [view_modify_nlink (g := fun l => l + 1), view_modify_nlink (g := fun l => l - 1), h1]
  · rwa [h1]
  · rw [view_modify_nlink (g := fun l => l - 1), h1]
    · exact hd'
    · rwa [h1]

theorem parentOf_reparent (j : Ino) : (fs.reparent d d' i).parentOf j =
    if j = i then (fs.parentOf i).map fun _ => d' else fs.parentOf j := by
  unfold reparent
  rw [parentOf_modify_nlink (g := fun l => l + 1), parentOf_modify_nlink (g := fun l => l - 1),
    parentOf_setParent]

theorem view_move (hg : fs.Good)
    (ht : fs.view.entry d' n' = target) (hm : fs.view.MayMove d n d' n' i)
    (hsrc : srcIsDir = true ↔ fs.view.kind i = some .directory) :
    (fs.move d n d' n' i srcIsDir target).view = fs.view.move d n d' n' i := by
  -- once what is replaced has lost its link, kinds and counts are as after its removal
  obtain ⟨hkind, hentry, hlinks⟩ := view_dropTarget hg.now ht
    hm.dst_dir (fun t hte => (hm.replaced t (ht.trans hte)).2) fs.now.1
  change _ = (fs.view.replace d' n').kind at hkind
  change _ = fs.view.entry at hentry
  change _ = (fs.view.replace d' n').links at hlinks
  unfold move
  simp only
  generalize fs.now.2.dropTarget fs.now.1 d' target = fs1 at hkind hentry hlinks
  have hd : fs1.view.kind d = some .directory := by
    rw [hkind, hm.kind_replace (Or.inr (Or.inr rfl)), hm.src_dir]
  have hd' : fs1.view.kind d' = some .directory := by
    rw [hkind, hm.kind_replace (Or.inr (Or.inl rfl)), hm.dst_dir]
  -- the two names change
  have h1 := view_erase (n := n) hd
  have h2 := view_modifyEntries (n := n') (v := some i)
    (show (fs1.modifyEntries d fun es => es.erase n).view.kind d' = some .directory by
      rw [h1]; exact hd') (fun es m => getElem?_insert_iff es n' i m)
  rw [h1] at h2
  generalize (fs1.modifyEntries d fun es => es.erase n).modifyEntries d'
    (fun es => es.insert n' i) = fs2 at h2
  rw [view_changedDir, view_changedDir,
    view_modify_of_same (f := fun nd => { nd with ctime := fs.now.1 }) (fun _ => rfl)
      (fun _ => rfl) fun _ => rfl]
  have hfinal : (if srcIsDir ∧ d ≠ d' then fs2.reparent d d' i else fs2).view =
      { toTree := fs2.view.toTree
        links := (fs.view.move d n d' n' i).links } := by
    rw [hm.links_move hg.consistent]
    have hl : fs2.view.links = (fs.view.replace d' n').links := by rw [h2]; exact hlinks
    by_cases hc : srcIsDir = true ∧ d ≠ d'
    · rw [if_pos hc, if_pos ⟨hsrc.mp hc.1, hc.2⟩, view_reparent, hl]
      · rw [h2]
        simp only [Tree.kind_setEntry]
        rw [hd]
        exact Option.some_ne_none _
      · rw [h2]
        simp only [Tree.kind_setEntry]
        rw [hd']
        exact Option.some_ne_none _
    · rw [if_neg hc, if_neg fun h => hc ⟨hsrc.mpr h.1, h.2⟩, ← hl]
  rw [hfinal, h2]
  refine LinkTree.ext ?_ ?_ rfl
  · simp only [Tree.kind_setEntry]
    exact hkind
  · funext e m
    simp only [LinkTree.move, LinkTree.entry_addName, LinkTree.entry_removeName,
      LinkTree.entry_replace, Tree.entry_setEntry, hentry]
    split <;> rfl

theorem parentOf_move
    (h : (fs.move d n d' n' i srcIsDir target).parentOf j = some p) :
    if (srcIsDir = true ∧ d ≠ d') ∧ j = i then p = d' else fs.parentOf j = some p := by
  unfold move at h
  simp only [parentOf_changedDir] at h
  rw [parentOf_modify_of_same (f := fun nd => { nd with ctime := fs.now.1 }) (fun _ => rfl)] at h
  by_cases hc : srcIsDir = true ∧ d ≠ d'
  · rw [if_pos hc, parentOf_reparent] at h
    by_cases hji : j = i
    · rw [if_pos hji] at h
      obtain ⟨_, _, rfl⟩ := Option.map_eq_some_iff.mp h
      rw [if_pos ⟨hc, hji⟩]
    · rw [if_neg hji, parentOf_modifyEntries, parentOf_modifyEntries] at h
      rw [if_neg fun h => hji h.2]
      exact (parentOf_dropTarget h : fs.now.2.parentOf j = some p)
  · rw [if_neg hc, parentOf_modifyEntries, parentOf_modifyEntries] at h
    rw [if_neg fun h => hc h.1]
    exact (parentOf_dropTarget h : fs.now.2.parentOf j = some p)

theorem parentOf_move_of_ne  (hji : j ≠ i) (hjt : target ≠ some j) :
    (fs.move d n d' n' i srcIsDir target).parentOf j = fs.parentOf j := by
  unfold move
  simp only [parentOf_changedDir]
  rw [parentOf_modify_of_same (f := fun nd => { nd with ctime := fs.now.1 }) (fun _ => rfl)]
  have hrest : (((fs.now.2.dropTarget fs.now.1 d' target).modifyEntries d
      fun es => es.erase n).modifyEntries d' fun es => es.insert n' i).parentOf j =
      fs.parentOf j := by
    rw [parentOf_modifyEntries, parentOf_modifyEntries, parentOf_dropTarget_of_ne hjt]
    rfl
  split
  · rw [parentOf_reparent, if_neg hji, hrest]
  · exact hrest

/-! ### The operations keep the invariant -/

/-- A filesystem that shows the same is in order again. -/
theorem Good.of_same (hg : fs.Good) (hview : fs'.view = fs.view)
    (hparent : ∀ j, fs'.parentOf j = fs.parentOf j) : fs'.Good where
  consistent := hview ▸ hg.consistent
  parent_root := (hparent _).trans hg.parent_root
  parent_eq := fun he hp => by
    rw [hview] at he
    rw [hparent] at hp
    exact hg.parent_eq he hp

/-- A new inode. -/
theorem Good.make (hg : fs.Good) {up : Option Ino}
    (hd : fs.view.kind d = some .directory) (hn : fs.view.entry d n = none)
    (hi : fs.view.kind i = none) (hview : fs'.view = fs.view.make d n i k)
    (hparent : ∀ j, fs'.parentOf j = if j = i then up else fs.parentOf j)
    (hup : ∀ p, up = some p → p = d) : fs'.Good where
  consistent := hview ▸ hg.consistent.make hd hn hi
  parent_root := by
    rw [hparent, if_neg]
    · exact hg.parent_root
    · rintro rfl
      rw [hg.consistent.wf.root_dir] at hi
      cases hi
  parent_eq := fun {e m j p} he hp => by
    rw [hview, LinkTree.make, LinkTree.entry_addName] at he
    rw [hparent] at hp
    split at he
    · rename_i hem
      cases he
      rw [if_pos rfl] at hp
      rw [hem.1]
      exact hup p hp
    · rw [if_neg (LinkTree.entry_of_free hg.consistent.wf hi he).2] at hp
      exact hg.parent_eq he hp

theorem Good.of_unlink (hg : fs.Good) (h : fs.unlink d n = (.ok (), fs')) :
    fs'.Good ∧ fs.view.toTree.Unlinks d n fs'.view.toTree := by
  obtain ⟨i, he, hk, hview, hparent⟩ := view_unlink hg h
  refine ⟨⟨hview ▸ hg.consistent.unlink he hk, (hparent _ _).mpr hg.parent_root,
    fun {e m j p} hem hp => ?_⟩, ⟨i, he, hk, ?_⟩⟩
  · refine hg.parent_eq (n := m) ?_ ((hparent _ _).mp hp)
    have hentry : fs'.view.entry = (fs.view.removeName d n).entry := by
      rw [hview, LinkTree.unlink]
      split <;> rfl
    rw [hentry] at hem
    exact (LinkTree.entry_removeName_eq_some.mp hem).2
  · rw [hview, LinkTree.unlink]
    split
    · exact Or.inr rfl
    · exact Or.inl rfl

theorem Good.of_rmdir (hg : fs.Good) (h : fs.rmdir d n = (.ok (), fs')) :
    fs'.Good ∧ fs.view.toTree.RemovesDir d n fs'.view.toTree := by
  obtain ⟨i, he, hk, hempty, hview, hparent, hsame⟩ := view_rmdir h
  refine ⟨⟨hview ▸ hg.consistent.rmdir he hk hempty, ?_, fun {e m j p} hem hp => ?_⟩,
    ⟨i, he, hk, hempty, by rw [hview]; rfl⟩⟩
  · rw [hsame]
    · exact hg.parent_root
    · rintro rfl
      exact hg.consistent.wf.entry_root he
  · refine hg.parent_eq (n := m) ?_ (hparent _ _ hp)
    rw [hview, LinkTree.rmdir, LinkTree.entry_freeInode, LinkTree.entry_removeName] at hem
    split at hem
    · cases hem
    · exact hem

theorem Good.of_move (hg : fs.Good)
    (ht : fs.view.entry d' n' = target) (hm : fs.view.MayMove d n d' n' i)
    (hsrc : srcIsDir = true ↔ fs.view.kind i = some .directory) :
    (fs.move d n d' n' i srcIsDir target).Good := by
  have hview := view_move hg ht hm hsrc
  refine ⟨hview ▸ hg.consistent.move hm, ?_, fun {e m j p} hem hp => ?_⟩
  · rw [parentOf_move_of_ne]
    · exact hg.parent_root
    · rintro rfl
      exact hg.consistent.wf.entry_root hm.src
    · rw [← ht]
      exact hg.consistent.wf.entry_root
  · have hp := parentOf_move hp
    rw [hview, LinkTree.move, LinkTree.entry_addName, LinkTree.entry_removeName,
      LinkTree.entry_replace] at hem
    split at hem
    · -- the new name of what moved
      rename_i hnew
      cases hem
      split at hp
      · rw [hp, hnew.1]
      · rename_i hc
        have hdir := kind_of_parentOf hp
        have hdd : d = d' := by
          by_contra hne
          exact hc ⟨⟨hsrc.mpr hdir, hne⟩, rfl⟩
        rw [hg.parent_eq hm.src hp, hnew.1, hdd]
    · split at hem
      · cases hem
      · rename_i hnew hold
        split at hp
        · rename_i hc
          -- the only other name of the directory that moved would be its old one
          have hdir := hsrc.mp hc.1.1
          rw [hc.2] at hem
          exact absurd (hg.consistent.wf.entry_inj hdir hem hm.src) hold
        · exact hg.parent_eq hem hp

/-! ### The contract -/

theorem Good.put_file (hg : fs.Good) {size : ℕ} {chunks : Chunks}
    (hi : fs.nodes[i]? = some nd) (hb : nd.body = .file size chunks) (size' : ℕ) (chunks' : Chunks)
    (now used : ℕ) : ∀ fs', fs' = ({ fs.put i (MemNode.stamp { nd with
        body := .file size' chunks' } now) with used := used } : MemFs) →
      fs'.Good ∧ fs'.view = fs.view := by
  rintro fs' rfl
  have hview : ({ fs.put i (MemNode.stamp { nd with body := .file size' chunks' } now) with
      used := used } : MemFs).view = fs.view := by
    refine view_ext fun j => ?_
    simp only [view, nodes_put]
    split
    · rename_i hji
      rw [hji, hi]
      simp only [Option.map_some, Option.bind_some, hb]
      exact ⟨rfl, rfl, rfl⟩
    · exact ⟨rfl, rfl, rfl⟩
  refine ⟨hg.of_same hview fun j => ?_, hview⟩
  simp only [parentOf, nodes_put]
  split
  · rename_i hji
    rw [hji, hi]
    simp only [Option.bind_some, hb]
    rfl
  · rfl

theorem of_checkFileChange {size : ℕ} {chunks : Chunks}
    (h : fs.checkFileChange i = .ok (nd, size, chunks)) :
    fs.nodes[i]? = some nd ∧ nd.body = .file size chunks := by
  obtain ⟨nd', hnd, h⟩ := of_bind_eq_ok h
  obtain ⟨_, _, h⟩ := of_bind_eq_ok h
  split at h
  · rename_i size' chunks' hb
    cases h
    exact ⟨nodes_of_node hnd, hb⟩
  all_goals cases h

theorem Good.of_writeAt (hg : fs.Good) (offset : ℕ) (buf : Bytes) :
    (fs.writeAt i offset buf).2.Good ∧ (fs.writeAt i offset buf).2.view = fs.view := by
  unfold writeAt
  split
  · exact ⟨hg, rfl⟩
  · rename_i nd size chunks hcheck
    obtain ⟨hnd, hb⟩ := of_checkFileChange hcheck
    split
    · exact ⟨hg, rfl⟩
    split
    · exact ⟨hg, rfl⟩
    simp only
    split
    · exact ⟨hg.now, rfl⟩
    · exact hg.now.put_file hnd hb _ _ _ _ _ rfl

theorem Good.of_truncate (hg : fs.Good) (size : ℕ) :
    (fs.truncate i size).2.Good ∧ (fs.truncate i size).2.view = fs.view := by
  unfold truncate
  split
  · exact ⟨hg, rfl⟩
  · rename_i nd oldSize chunks hcheck
    obtain ⟨hnd, hb⟩ := of_checkFileChange hcheck
    split
    · exact ⟨hg, rfl⟩
    · exact hg.now.put_file hnd hb _ _ _ _ _ rfl

theorem Good.of_touch (hg : fs.Good) : (fs.touch i).2.Good ∧ (fs.touch i).2.view = fs.view := by
  unfold touch
  split
  · exact ⟨hg, rfl⟩
  · exact ⟨hg.now.of_same (view_changedDir _) fun j => parentOf_changedDir _ j, view_changedDir _⟩

theorem unlink_error (h : fs.unlink d n = (.error e, fs')) : fs' = fs := by
  unfold unlink at h
  split at h <;> cases h
  rfl

theorem rmdir_error (h : fs.rmdir d n = (.error e, fs')) : fs' = fs := by
  unfold rmdir at h
  split at h <;> cases h
  rfl

theorem mkdir_error (h : fs.mkdir d n = (.error e, fs')) : fs' = fs := by
  unfold mkdir at h
  split at h <;> cases h
  rename_i hnew
  exact newNode_error hnew

theorem allows_stat : fs.view.toTree.Allows (.stat i) (fs.stat i) fs.view.toTree := by
  refine ⟨rfl, ?_⟩
  cases hk : fs.view.kind i with
  | none =>
    have hnone : fs.nodes[i]? = none := by simpa [view] using hk
    simp only [stat, node, hnone]
    rfl
  | some k =>
    obtain ⟨nd, hnd, rfl⟩ := Option.map_eq_some_iff.mp hk
    simp only [stat, node, hnd]
    exact ⟨_, rfl, rfl⟩

theorem lookup_eq (hdir : fs.view.kind d = some .directory) (hname : NameOk n) :
    fs.lookup d n = match fs.view.entry d n with
      | none => .error .ENOENT
      | some i => .ok i := by
  obtain ⟨nd, p, es, hnd, hb⟩ := exists_node_of_dir hdir
  have hentries : fs.entries d = .ok es := by
    obtain ⟨_, _, _, _, _, _, _, body⟩ := nd
    subst hb
    simp only [entries, node, hnd]
    rfl
  have hentry : fs.view.entry d n = es[n]? := (of_entries hentries).2 n
  rw [hentry]
  unfold lookup
  rw [hentries]
  change (if n = dot then _ else if n = dotdot then _ else _) = _
  rw [if_neg hname.ne_dot, if_neg hname.ne_dotdot]
  cases es[n]? <;> rfl

theorem allows_lookup : fs.view.toTree.Allows (.lookup d n) (fs.lookup d n) fs.view.toTree := by
  refine ⟨rfl, ?_⟩
  split
  · rename_i hdir
    exact fun hname => lookup_eq hdir hname
  · rename_i hdir
    cases hl : fs.lookup d n with
    | error e => exact ⟨e, rfl⟩
    | ok j =>
      obtain ⟨es, hes, -⟩ := of_bind_eq_ok hl
      exact absurd (of_entries hes).1 hdir

theorem allows_rename (hg : fs.Good) (d : Ino) (n : Bytes) (d' : Ino) (n' : Bytes) :
    ∃ r fs', fs.rename d n d' n' = some (r, fs') ∧ fs'.Good ∧
      fs.view.toTree.Allows (.rename d n d' n') r fs'.view.toTree := by
  unfold rename
  split
  · exact ⟨_, _, rfl, hg, rfl⟩
  · rename_i i target hfinds
    obtain ⟨hd, hd', hentry, htarget⟩ := of_renameFinds hfinds
    split
    · rename_i hsame
      exact ⟨_, _, rfl, hg, Or.inl ⟨rfl, i, hentry, htarget.trans hsame⟩⟩
    · rename_i hne
      split
      · exact ⟨_, _, rfl, hg, rfl⟩
      · rename_i srcIsDir hisDir
        obtain ⟨-, hiff⟩ := of_isDir hisDir
        obtain ⟨above, habove, hbelow⟩ :
            ∃ b, (if srcIsDir then fs.isAncestor i d' else some false) =
            some b ∧ (b = false → fs.view.kind i = some .directory → ¬fs.view.Below i d') := by
          split
          · obtain ⟨b, hb, hbelow⟩ := isAncestor_eq hg hd' i
            exact ⟨b, hb, fun hf _ hB => by rw [hbelow.mpr hB] at hf; cases hf⟩
          · rename_i hfile
            exact ⟨false, rfl, fun _ hk => absurd (hiff.mpr hk) hfile⟩
        rw [habove]
        cases above with
        | true => exact ⟨_, _, rfl, hg, rfl⟩
        | false =>
          simp only
          split
          · exact ⟨_, _, rfl, hg, rfl⟩
          · rename_i hmay
            have hm : fs.view.MayMove d n d' n' i := by
              refine ⟨hd, hentry, hd', fun h => hne (htarget.symm.trans h), hbelow rfl,
                fun j hj => ?_⟩
              rw [← htarget, hj] at hmay
              obtain ⟨-, hkind, hempty⟩ := of_mayReplace hmay
              exact ⟨hkind.trans hiff, hempty⟩
            refine ⟨_, _, rfl, hg.of_move htarget hm hiff, Or.inr ⟨i, fs.view.freedBy d' n', ?_⟩⟩
            rw [view_move hg htarget hm hiff]
            exact hm.moves

/-- **The filesystem in memory keeps the contract.** -/
def contract : memFs.Contract where
  Good := Good
  tree := fun fs => fs.view.toTree
  wf := fun hg => hg.consistent.wf
  root_eq := fun _ => rfl
  allows := fun {fs} op hg => by
    cases op with
    | stat i => exact ⟨_, _, rfl, hg, allows_stat⟩
    | lookup d n => exact ⟨_, _, rfl, hg, allows_lookup⟩
    | readDir d => exact ⟨_, _, rfl, hg, rfl⟩
    | readLink i => exact ⟨_, _, rfl, hg, rfl⟩
    | readAt i offset len => exact ⟨_, _, rfl, hg, rfl⟩
    | writeAt i offset buf =>
      obtain ⟨hgood, hview⟩ := hg.of_writeAt (i := i) offset buf
      exact ⟨_, _, rfl, hgood, congrArg LinkTree.toTree hview⟩
    | truncate i size =>
      obtain ⟨hgood, hview⟩ := hg.of_truncate (i := i) size
      exact ⟨_, _, rfl, hgood, congrArg LinkTree.toTree hview⟩
    | touch i =>
      obtain ⟨hgood, hview⟩ := hg.of_touch (i := i)
      exact ⟨_, _, rfl, hgood, congrArg LinkTree.toTree hview⟩
    | create d n =>
      rcases h : fs.create d n with ⟨r, fs'⟩
      refine ⟨r, fs', congrArg some h, ?_⟩
      cases r with
      | error e =>
        obtain rfl := newNode_error h
        exact ⟨hg, rfl⟩
      | ok i =>
        obtain ⟨hd, hn, hi, hview, hparent⟩ := view_create h
        exact ⟨hg.make hd hn hi hview hparent nofun, hd, hn, hi, by rw [hview]; rfl⟩
    | mkdir d n =>
      rcases h : fs.mkdir d n with ⟨r, fs'⟩
      refine ⟨r, fs', congrArg some h, ?_⟩
      cases r with
      | error e =>
        obtain rfl := mkdir_error h
        exact ⟨hg, rfl⟩
      | ok i =>
        obtain ⟨hd, hn, hi, hview, hparent⟩ := view_mkdir h
        exact ⟨hg.make hd hn hi hview hparent fun p hp => (Option.some_inj.mp hp).symm,
          hd, hn, hi, by rw [hview]; rfl⟩
    | unlink d n =>
      rcases h : fs.unlink d n with ⟨r, fs'⟩
      refine ⟨r, fs', congrArg some h, ?_⟩
      cases r with
      | error e =>
        obtain rfl := unlink_error h
        exact ⟨hg, rfl⟩
      | ok u => exact hg.of_unlink h
    | rmdir d n =>
      rcases h : fs.rmdir d n with ⟨r, fs'⟩
      refine ⟨r, fs', congrArg some h, ?_⟩
      cases r with
      | error e =>
        obtain rfl := rmdir_error h
        exact ⟨hg, rfl⟩
      | ok u => exact hg.of_rmdir h
    | rename d n d' n' => exact allows_rename hg d n d' n'
    | statfs => exact ⟨_, _, rfl, hg, rfl⟩
    | sync => exact ⟨_, _, rfl, hg, rfl⟩
    | shutdown => exact ⟨_, _, rfl, ⟨hg.consistent, hg.parent_root, hg.parent_eq⟩, rfl⟩

theorem good_new (clock : ℕ → ℕ) : (new clock).Good := by
  have hnodes : ∀ j : Ino, (new clock).nodes[j]? =
      if j = rootIno then some (.new 0o755 2 (clock 0) (.emptyDir rootIno)) else none := by
    intro j
    change ((∅ : Std.TreeMap Ino MemNode).insert _ _)[j]? = _
    rw [getElem?_insert_iff]
    split <;> simp
  have hkind : ∀ j, (new clock).view.kind j = if j = rootIno then some .directory else none := by
    intro j
    simp only [view, hnodes]
    split <;> rfl
  have hentry : ∀ d n, (new clock).view.entry d n = none := by
    intro d n
    simp only [view, hnodes]
    split
    · rw [Option.bind_some]
      simp [MemNode.new, Body.emptyDir, Body.entry]
    · rfl
  have hempty : ∀ {d n i}, (new clock).view.entry d n ≠ some i := by
    intro d n i he
    rw [hentry] at he
    cases he
  refine ⟨⟨⟨⟨by rw [hkind, if_pos rfl], fun he => absurd he hempty, fun he => absurd he hempty,
    hempty, fun _ he => absurd he hempty⟩, ?_, ?_⟩, ?_⟩, ?_, fun he => absurd he hempty⟩
  · intro i k hk hfile
    rw [hkind] at hk
    split at hk
    · cases hk
      exact absurd rfl hfile
    · cases hk
  · intro d hd
    rw [hkind] at hd
    split at hd
    · rename_i hroot
      have hsub : (new clock).view.subdirs d = ∅ :=
        Set.eq_empty_of_forall_notMem fun n ⟨i, hi, _⟩ => hempty hi
      have hlinks : (new clock).view.links d = 2 := by
        simp only [view, hnodes, if_pos hroot]
        rfl
      rw [hsub, hlinks, Set.encard_empty]
      rfl
    · cases hd
  · intro i hi
    rw [hkind] at hi
    split at hi
    · rename_i hroot
      rw [hroot]
      exact .refl
    · cases hi
  · simp only [parentOf, hnodes, if_pos]
    rfl

end MemFs

end RelayOs.Vfs
