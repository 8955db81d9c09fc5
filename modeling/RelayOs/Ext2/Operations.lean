import RelayOs.Ext2.SafeNames
import RelayOs.Ext2.View

/-!
# The operations, one after another

Whatever a disk holds and whatever fails, the operations of the filesystem neither stop dead nor
take metadata for file data (`RelayOs.Ext2.View.sound_exec`), and so do all of them one after
another (`RelayOs.Ext2.metadata_never_data`).
-/

namespace RelayOs.Ext2

open Vfs

variable {geo : Geometry}

namespace Limits

/-- A program that may do anything an operation does. -/
def anything (m : Mem geo) : Limits geo := ⟨m, fun _ => True, fun _ => True, True⟩

theorem anything_full (m : Mem geo) : (anything m).Full where
  bitmap := trivial
  pointers := trivial
  content := trivial
  inodes := trivial
  stored_of_links _ := trivial
  stored _ := trivial

theorem anything_flushing (m : Mem geo) : (anything m).Flushing := ⟨trivial, trivial, trivial⟩

/-- A program that stores only inodes whose links can grow, and neither the superblock nor the
descriptors. -/
def growing (m : Mem geo) : Limits geo where
  base := m
  writable use := use ≠ .superblock ∧ use ≠ .descriptors
  stored i := i.links + 1 < 2 ^ 16
  flushes := False

theorem growing_open (m : Mem geo) : (growing m).Open where
  bitmap := by simp [growing]
  pointers := by simp [growing]
  content := by simp [growing]
  inodes := by simp [growing]
  stored_of_links h := h

end Limits

namespace View

open Limits

/-- Inode `ino` as stored can be given one more link. -/
def Growable (ino : ℕ) (v : View geo) : Prop := (v.inode ino).links + 1 < 2 ^ 16

theorem ne_location {m : Mem geo} {use : Use} {b ino : ℕ} (hino : geo.InoOk ino) (hb : m.Fits use b)
    (huse : use = .bitmap ∨ use = .pointers ∨ use = .content) : b ≠ (m.location ino).1 := by
  rintro rfl
  obtain ⟨g, hg, htable⟩ := Mem.tableBlock_location (m := m) hino
  have hdata : ¬m.DataBlock (m.location ino).1 := fun h => by
    have hmeta := h.2
    rw [(m.of_holds hg (m.mem_inodeTable g) htable).2.2.2] at hmeta
    cases hmeta
  rcases huse with rfl | rfl | rfl
  · obtain ⟨g', hg', hbit | hbit⟩ := hb
    · exact nomatch (m.part_eq hg hg' (m.mem_inodeTable g) (m.mem_blockBitmap g') htable
        ⟨hbit.ge, by rw [hbit]; exact Nat.lt_succ_self _⟩).2
    · exact nomatch (m.part_eq hg hg' (m.mem_inodeTable g) (m.mem_inodeBitmap g') htable
        ⟨hbit.ge, by rw [hbit]; exact Nat.lt_succ_self _⟩).2
  · exact hdata hb
  · exact hdata hb

/-- **What is stored leaves an inode's links able to grow.** -/
theorem growing_keeps (m : Mem geo) {ino : ℕ} (hino : geo.InoOk ino) :
    (growing m).Keeps (Growable ino) := by
  intro v v' r x hv hpre hpost
  have hI := hv.holds
  -- a block with nothing of the inode is changed
  have hother : ∀ (use : Use) {b : ℕ} {d : Block geo.blockSize}, m.Fits use b →
      use = .bitmap ∨ use = .pointers ∨ use = .content → Growable ino (v.put b d) := by
    intro use b d hb huse
    unfold Growable
    rw [inode_put_of_ne (ne_location hino (hv.same.fits use hb) huse)]
    exact hI
  cases r with
  | read use b =>
    rw [hpost.2]
    exact hI
  | write use b f =>
    rcases hpost with ⟨-, rfl⟩ | ⟨-, rfl⟩
    swap
    · exact hI
    obtain ⟨huse, hallows⟩ := hpre
    cases use with
    | bitmap =>
      obtain ⟨g, hg, i, -, hplace⟩ := hallows
      exact hother .bitmap ⟨g, hg, hplace.imp (fun h => h.1) fun h => h.1⟩ (by simp)
    | inodes =>
      obtain ⟨i, hi, hiok, rfl, rfl⟩ := hallows
      have hloc : m.location i.ino = v.mem.location i.ino := (hv.same.location_eq _).symm
      have hstore : v.put (m.location i.ino).1 ((Edit.splice (m.location i.ino).2 i.raw.val).on
          (v.disk (m.location i.ino).1)) = v.store i := by
        rw [hloc]
        rfl
      change ((v.put (m.location i.ino).1 ((Edit.splice (m.location i.ino).2 i.raw.val).on
        (v.disk (m.location i.ino).1))).inode ino).links + 1 < 2 ^ 16
      rw [hstore]
      by_cases hne : ino = i.ino
      · rw [hne, inode_store_self]
        exact hi
      · rw [inode_store_of_ne hiok hino hne]
        exact hI
    | pointers => exact hother .pointers hallows (by simp)
    | content => exact hother .content hallows (by simp)
    | superblock => exact absurd rfl huse.1
    | descriptors => exact absurd rfl huse.2
  | zeroed use b f =>
    rcases hpost with ⟨-, rfl⟩ | ⟨-, rfl⟩
    swap
    · exact hI
    obtain ⟨huse, hfits, rfl | rfl | rfl⟩ := hpre
    · exact hother .pointers hfits (by simp)
    · exact hother .content hfits (by simp)
    · exact absurd rfl huse.2
  | sync =>
    rw [hpost.2]
    exact hI
  | mem =>
    rw [hpost.2]
    exact hI
  | setMem m' =>
    have halike : v.mem.Alike m' := hv.same.toAlike.symm.trans hpre.toAlike
    have hinode : ({ v with mem := m' } : View geo).inode ino = v.inode ino :=
      inode_congr halike rfl
    rw [hpost, Growable, hinode]
    exact hI
  | clock =>
    rw [hpost]
    exact hI

/-! ### Renaming -/

section Renaming

variable {v : View geo}

/-- What an operation does within its limits. -/
theorem sound_anything {α : Type} {p : M geo α} {Q : α → Prop} (h : (anything v.mem).Safe p Q) :
    Sound p v fun a v' => v.mem.Same v'.mem ∧ Q a :=
  (sound_of_safe (I := fun _ => True) h (fun _ _ _ => trivial) ⟨.refl _, trivial⟩).mono fun _ _ h =>
    ⟨h.1.same, h.2⟩

theorem sound_growing {α : Type} {p : M geo α} {Q : α → Prop} {ino : ℕ} (hino : geo.InoOk ino)
    (hv : Growable ino v) (h : (growing v.mem).Safe p Q) :
    Sound p v fun a v' => Growable ino v' ∧ Q a :=
  (sound_of_safe h (growing_keeps _ hino) ⟨.refl _, hv⟩).mono fun _ _ h => ⟨h.1.holds, h.2⟩

theorem sound_writeInode {i : Inode geo} (hino : geo.InoOk i.ino) (hi : i.links + 1 < 2 ^ 16) :
    Sound (writeInode i) v fun _ v' => Growable i.ino v' := by
  refine (sound_of_safe_of_wlp (I := fun _ => True) (R := fun _ v' => Growable i.ino v')
    (safe_writeInode (anything_full v.mem).toOpen trivial hino) (fun _ _ _ => trivial)
      ⟨.refl _, trivial⟩
    (wlp_writeInode i (fun _ _ => ?_) fun _ _ _ h => nomatch h)).mono fun _ _ h => h.2
  unfold Growable
  rw [inode_store_self]
  exact hi

/-- **The new name of a directory that moves**: the directory it moves to is stored, with links
that can grow. -/
theorem sound_enterTarget {dstParent : Inode geo} {dst : Bytes} (hparent : geo.InoOk dstParent.ino)
    (hdst : dst.length ≤ nameMax) (ino : ℕ) {target : Option Found} {replaced : Option (Inode geo)}
    (htarget : ∀ t, target = some t → (anything v.mem).FoundOk t)
    (hreplaced : ∀ old, replaced = some old → Replaceable true old)
    (hlinks : target = none ∨ replaced = none → dstParent.links < linkMax) :
    Sound (enterTarget dstParent dst ino .directory target replaced) v
      fun _ v' => Growable dstParent.ino v' := by
  have hL := anything_full v.mem
  -- without anything to replace, the links were looked at
  have hnew : dstParent.links < linkMax →
      Sound (addEntry dstParent dst ino .directory >>= writeInode) v
      fun _ v' => Growable dstParent.ino v' := by
    intro hlt
    refine (sound_anything (safe_addEntry hL.toScratch hparent hdst ino .directory)).bind
      fun i v' ⟨_, hkin⟩ => ?_
    have hroom : i.links + 1 < 2 ^ 16 := by
      rw [hkin.links_eq]
      unfold linkMax at hlt
      omega
    rw [← hkin.ino_eq]
    exact sound_writeInode (hkin.ino_eq.symm ▸ hparent) hroom
  cases target with
  | none => exact hnew (hlinks (Or.inl rfl))
  | some t =>
    cases replaced with
    | none => exact hnew (hlinks (Or.inr rfl))
    | some old =>
      have ht := htarget t rfl
      have hold := hreplaced old rfl
      refine (sound_anything (safe_writeBlock .content hL.content ht.block_ok)).bind
        fun data v1 ⟨_, hdata⟩ => (sound_anything (safe_need ?_)).bind fun _ v2 _ =>
          (sound_anything (safe_changedDir dstParent)).bind fun i v3 ⟨_, hkin⟩ => ?_
      · rw [hdata]
        exact headerFits ht.entry_ok
      · rw [if_pos (hold.kind_eq rfl), ← hkin.ino_eq]
        have hi : geo.InoOk i.ino := hkin.ino_eq.symm ▸ hparent
        refine (sound_writeInode (i := i.setLinks (i.links - 1)) hi (links_pred_lt i)).bind
          fun _ v4 hv4 => ?_
        have hrest : (growing v4.mem).Safe (now >>= fun t => releaseInode (old.setCtime t))
            fun _ => True :=
          safe_now.bind fun t _ => safe_releaseInode (growing_open _) (by
            rw [Inode.ino_setCtime]
            exact hold.ino_ok)
        exact (sound_growing hi hv4 hrest).mono fun _ _ h => h.1

theorem sound_reparent (src : Inode geo) {toDir : Ino} (hto : Growable toDir v) :
    Sound (reparent src toDir) v fun _ _ => True := by
  have hinode : Sound (Ext2.inode toDir) v fun i v' => InUse toDir i ∧ i.links + 1 < 2 ^ 16 := by
    refine (sound_of_safe_of_wlp (I := fun _ => True) (R := fun i _ => i.links + 1 < 2 ^ 16)
      (safe_inode (L := anything v.mem) toDir) (fun _ _ _ => trivial) ⟨.refl _, trivial⟩
      (wlp_inode toDir (fun _ i hi => ?_) fun _ _ h => nomatch h)).mono fun _ _ h => ⟨h.1.2, h.2⟩
    cases hi
    exact hto
  refine hinode.bind fun i v1 ⟨hi, hlinks⟩ => ?_
  have hL := anything_full v1.mem
  refine (sound_anything (Q := fun _ => True) ?_).mono fun _ _ _ => trivial
  have hok : geo.InoOk (i.setLinks (i.links + 1)).ino := hi.ino_ok
  refine (safe_need hlinks).bind fun _ _ => (safe_writeInode hL.toOpen trivial hok).bind fun _ _ =>
    (safe_findEntry src _).bind fun found hfound => ?_
  cases found with
  | none => exact safe_throw _
  | some t =>
    have ht := hfound t rfl
    exact (safe_writeBlock .content hL.content ht.block_ok).bind fun data hdata =>
      safe_need (by rw [hdata]; exact headerFits ht.entry_ok)

theorem safe_enterTarget {L : Limits geo} (hL : L.Full) {dstParent : Inode geo} {dst : Bytes}
    (hparent : geo.InoOk dstParent.ino) (hdst : dst.length ≤ nameMax) (ino : ℕ) (kind : FileType)
    {target : Option Found} {replaced : Option (Inode geo)}
    (htarget : ∀ t, target = some t → L.FoundOk t)
    (hreplaced : ∀ old, replaced = some old → geo.InoOk old.ino) :
    L.Safe (enterTarget dstParent dst ino kind target replaced) fun _ => True := by
  have hnew : L.Safe (addEntry dstParent dst ino kind >>= writeInode) fun _ => True :=
    (safe_addEntry hL.toScratch hparent hdst ino kind).bind fun i hkin =>
      safe_writeInode hL.toOpen (hL.stored _) (hkin.ino_eq.symm ▸ hparent)
  cases target with
  | none => exact hnew
  | some t =>
    cases replaced with
    | none => exact hnew
    | some old =>
      have ht := htarget t rfl
      have hold := hreplaced old rfl
      refine (safe_writeBlock .content hL.content ht.block_ok).bind fun data hdata =>
        (safe_need (by rw [hdata]; exact headerFits ht.entry_ok)).bind fun _ _ =>
          (safe_changedDir dstParent).bind fun i hkin => ?_
      have hi : geo.InoOk i.ino := hkin.ino_eq.symm ▸ hparent
      have hi' : geo.InoOk (i.setLinks (i.links - 1)).ino := hi
      refine safe_ite (fun _ => ?_) fun _ => ?_
      · exact (safe_writeInode hL.toOpen (hL.stored _) hi').bind fun _ _ => safe_now.bind fun t _ =>
          safe_releaseInode hL.toOpen (by rw [Inode.ino_setCtime]; exact hold)
      · exact (safe_writeInode hL.toOpen (hL.stored _) hi).bind fun _ _ =>
          safe_dropLink hL.toOpen hold

theorem safe_stamp {L : Limits geo} (hL : L.Full) {moved : Inode geo} (h : geo.InoOk moved.ino) :
    L.Safe (now >>= fun t => writeInode (moved.setCtime t)) fun _ => True :=
  safe_now.bind fun t _ =>
    safe_writeInode hL.toOpen (hL.stored _) (by rw [Inode.ino_setCtime]; exact h)

end Renaming

theorem foundOk_of_same {m m' : Mem geo} (h : m.Same m') {found : Found}
    (hf : (anything m).FoundOk found) :
    (anything m').FoundOk found :=
  ⟨h.fits .content hf.block_ok, hf.entry_ok, hf.prev_ok⟩

section Moving

variable {v : View geo}

theorem sound_moveFound (fromDir : Ino) (src : Bytes) {toDir : Ino} {dst : Bytes}
    {dstParent moved : Inode geo}
    (hparent : InUse toDir dstParent) (hdst : dst.length ≤ nameMax) (kind : FileType)
    {target : Option Found}
    (htarget : ∀ t, target = some t → (anything v.mem).FoundOk t) :
    Sound (moveFound fromDir src toDir dst dstParent moved kind target) v fun _ _ => True := by
  -- the checks
  refine (sound_anything (safe_onlyIf fun _ => safe_checkParent moved fromDir)).bind
    fun _ v1 ⟨hv1, _⟩ => ?_
  refine (sound_anything (safe_onlyIf fun _ => (safe_isAncestor moved.ino toDir).bind fun above _ =>
    (safe_refuse _ _).mono fun _ _ => trivial)).bind fun _ v2 ⟨hv2, _⟩ => ?_
  refine (sound_anything (safe_replacedAt _ target toDir)).bind
    fun replaced v3 ⟨hv3, hreplaced, hnone⟩ => ?_
  refine (sound_anything (safe_refuse _ _)).bind fun _ v4 ⟨hv4, hlinks⟩ => ?_
  have htarget4 : ∀ t, target = some t → (anything v4.mem).FoundOk t := fun t ht =>
    foundOk_of_same (((hv1.trans hv2).trans hv3).trans hv4) (htarget t ht)
  have hL := anything_full v4.mem
  generalize hm : (decide (kind = .directory) && decide (fromDir ≠ toDir)) = movesDir at *
  cases movesDir with
  | false =>
    refine (sound_anything (Q := fun _ => True) ?_).mono fun _ _ _ => trivial
    refine (safe_enterTarget hL hparent.ino_ok hdst _ kind htarget4 fun old hold =>
      (hreplaced old hold).ino_ok).bind fun _ _ =>
        (safe_leaveSource hL.toOpen fromDir src false fun _ _ => trivial).bind fun _ _ =>
          (safe_inode moved.ino).bind fun i hi => (safe_onlyIf fun h => nomatch h).bind fun _ _ =>
            safe_stamp hL hi.ino_ok
  | true =>
    rw [Bool.and_eq_true, decide_eq_true_eq] at hm
    obtain rfl := hm.1
    have hto : geo.InoOk dstParent.ino := hparent.ino_ok
    refine (sound_enterTarget hto hdst _ htarget4 (by simpa using hreplaced) ?_).bind
      fun _ v5 hv5 => ?_
    · intro hnew
      have hno : replaced.isNone = true := by
        rw [Option.isNone_iff_eq_none]
        exact hnew.elim hnone id
      by_contra hge
      exact hlinks ⟨rfl, hno, not_lt.mp hge⟩
    · refine (sound_growing hto hv5 (safe_leaveSource (growing_open _) fromDir src true nofun)).bind
        fun _ v6 ⟨hv6, _⟩ => (sound_growing hto hv6 (safe_inode moved.ino)).bind
          fun i v7 ⟨hv7, hi⟩ => ?_
      have hv7' : Growable toDir v7 := hparent.ino_eq ▸ hv7
      exact (sound_reparent i hv7').bind fun _ v8 _ =>
        (sound_anything (safe_stamp (anything_full _) hi.ino_ok)).mono fun _ _ _ => trivial

theorem sound_moveEntry (fromDir : Ino) (src : Bytes) (toDir : Ino) (dst : Bytes) :
    Sound (moveEntry fromDir src toDir dst) v fun _ _ => True := by
  refine (sound_anything (safe_inode fromDir)).bind fun srcParent v1 _ =>
    (sound_anything (safe_inode toDir)).bind fun dstParent v2 ⟨_, hparent⟩ =>
      (sound_anything safe_mem).bind fun _ v3 _ =>
        (sound_anything (safe_refuse _ _)).bind fun _ v4 _ =>
        (sound_anything (Q := fun _ => True) (safe_raise fun _ _ => trivial)).bind fun _ v5 _ =>
          (sound_anything (Q := fun _ => NameOk dst)
            (safe_raise fun _ hname => checkName_ok_iff.mp hname)).bind
            fun _ v6 ⟨_, hdst⟩ => ?_
  refine (sound_anything (safe_refuse _ _)).bind fun _ v7 _ =>
    (sound_anything (safe_refuse _ _)).bind fun _ v8 _ =>
      (sound_anything (safe_entryNamed srcParent src)).bind fun found v9 _ =>
        (sound_anything (safe_entryInode found)).bind fun moved v10 ⟨_, hmoved⟩ =>
          (sound_anything (safe_findEntry dstParent dst)).bind fun target v11 ⟨hsame, htarget⟩ => ?_
  split
  · exact (sound_anything (Q := fun _ => True) (safe_pure trivial)).mono fun _ _ _ => trivial
  · split
    · rename_i hkind
      exact absurd hkind hmoved.kind_ne
    · exact sound_moveFound fromDir src hparent hdst.length_le _ fun t ht =>
        foundOk_of_same hsame (htarget t ht)

end Moving

/-! ### All operations -/

theorem sound_shutdownFs (v : View geo) : Sound shutdownFs v fun _ _ => True := by
  refine (sound_anything safe_mem).bind fun m v1 ⟨hv1, hm⟩ => ?_
  split
  · exact (sound_anything (Q := fun _ => True) (safe_pure trivial)).mono fun _ _ _ => trivial
  · have hset : Sound (onlyIf (m.readOnly = false)
        (setMem { m.setSb (m.sb.setState m.mountState) with readOnly := true })) v1
          fun _ _ => True := by
      unfold onlyIf
      split
      · have halike : v1.mem.Alike m := hv1.toAlike.symm.trans hm.toAlike
        exact ⟨halike.trans ⟨fun _ => rfl⟩, fun _ _ _ _ _ => trivial⟩
      · exact fun _ _ => trivial
    exact hset.bind fun _ v2 _ =>
      (sound_anything (safe_flush (anything_flushing _))).mono fun _ _ _ => trivial

/-- **Every operation is sound**, whatever the disk holds. -/
theorem sound_exec (op : FsOp) (v : View geo) : Sound (exec op) v fun _ _ => True := by
  have hL := anything_full v.mem
  have hsafe : ∀ {α : Type} {p : M geo α}, (anything v.mem).Safe p (fun _ => True) →
      Sound p v fun _ _ => True := fun h => (sound_anything h).mono fun _ _ _ => trivial
  cases op with
  | stat ino => exact hsafe (safe_inodeStat ino)
  | lookup dir name => exact hsafe (safe_dirLookup dir name)
  | readDir dir => exact hsafe (safe_dirList dir)
  | readLink ino => exact hsafe (safe_linkTarget ino)
  | readAt ino offset len => exact hsafe (safe_fileRead ino offset len)
  | writeAt ino offset buf => exact hsafe (safe_fileWrite hL ino offset buf)
  | truncate ino size => exact hsafe (safe_fileTruncate hL ino size)
  | touch ino => exact hsafe (safe_inodeTouch hL ino)
  | create dir name => exact hsafe (safe_make hL dir name .regular)
  | mkdir dir name => exact hsafe (safe_make hL dir name .directory)
  | unlink dir name => exact hsafe (safe_removeFile hL dir name)
  | rmdir dir name => exact hsafe (safe_removeDir hL dir name)
  | rename fromDir src toDir dst => exact sound_moveEntry fromDir src toDir dst
  | statfs => exact hsafe safe_fsStat
  | sync => exact hsafe (safe_syncFs (anything_flushing _))
  | shutdown => exact sound_shutdownFs v

end View

/-- The operations listed, one after another, whatever each of them gives. -/
def execAll : List FsOp → Prog (sig geo) Unit
  | [] => .ret ()
  | op :: ops => (exec op).run.bind fun _ => execAll ops

theorem wp_execAll (ops : List FsOp) :
    ∀ v : View geo, (execAll ops).wp (View.spec True) (fun _ _ => True) v := by
  induction ops with
  | nil => exact fun _ => trivial
  | cons op ops ih =>
    intro v
    rw [execAll, Prog.wp_bind]
    exact Prog.wp_mono (View.sound_exec op v) fun _ v' _ => ih v'

theorem Mem.isMetadata_iff_part (m : Mem geo) (b : ℕ) :
    m.groups.isMetadata geo b = true ↔ b < geo.firstDataBlock ∨
      ∃ g < geo.groups, ∃ e ∈ m.groups.metadata geo g, e.Holds b := by
  constructor
  · intro h
    unfold Groups.isMetadata at h
    split at h
    · rename_i hb
      exact Or.inl hb
    · rw [Bool.and_eq_true, decide_eq_true_eq, m.count_eq, List.any_eq_true] at h
      obtain ⟨hg, e, he, hb⟩ := h
      exact Or.inr ⟨_, hg, e, he, of_decide_eq_true hb⟩
  · rintro (hb | ⟨g, hg, e, he, hb⟩)
    · unfold Groups.isMetadata
      rw [if_pos hb]
    · exact (m.of_holds hg he hb).2.2.2

/-- **Metadata is never data.** `is_metadata` is exact; and in every sequence of operations, on a
disk that holds anything in every block and fails as it likes, no request takes metadata for file
data or for pointers, no bit is set or cleared for it in a bitmap, and it stays where it is. -/
theorem metadata_never_data (m : Mem geo) (disk : ℕ → Block geo.blockSize) (ops : List FsOp) :
    (∀ b, m.groups.isMetadata geo b = true ↔ b < geo.firstDataBlock ∨ ∃ g < geo.groups,
      (geo.groupStart g ≤ b ∧ b < geo.groupStart g + geo.superBlocks g) ∨
        b = m.groups.blockBitmap g ∨ b = m.groups.inodeBitmap g ∨
        (m.groups.inodeTable g ≤ b ∧ b < m.groups.inodeTable g + geo.inodeTableBlocks)) ∧
    (execAll ops).wp (View.spec True) (fun _ _ => True) ⟨m, disk⟩ := by
  refine ⟨fun b => (m.isMetadata_iff_part b).trans ?_, wp_execAll ops _⟩
  have hone : ∀ n : ℕ, n ≤ b ∧ b < n + 1 ↔ b = n := fun n => by omega
  simp only [Groups.metadata, List.mem_cons, List.not_mem_nil, or_false, exists_eq_or_imp,
    exists_eq_left,
    Groups.Extent.Holds, hone]

end RelayOs.Ext2
