import RelayOs.Ext2.Mount
import RelayOs.Ext2.SafeFiles

/-!
# Nothing on the disk is trusted: names, and writing everything out

The functions that change names, up to the parts of a rename, and `RelayOs.Ext2.flush`, against
the specification without a state.
-/

namespace RelayOs.Ext2

open Vfs

variable {geo : Geometry}

namespace Limits

variable {L : Limits geo}

/-! ### Entries -/

section Entries

theorem safe_changedDir (dir : Inode geo) : L.Safe (changedDir dir) fun r => r.Kin dir :=
  safe_now.bind fun t _ => safe_pure ⟨by simp, by simp⟩

/-- Room for a name: the inode it is entered in, and a place for it inside a block. -/
structure SpotOk (L : Limits geo) (dir : Inode geo) (n : ℕ) (spot : Inode geo × ℕ × Dirent.Entry) :
    Prop where
  kin : spot.1.Kin dir
  block_ok : L.base.DataBlock spot.2.1
  fits : ∀ name : Bytes, name.length = n → Dirent.InsertFits spot.2.2 name geo.blockSize

variable {n : ℕ} {dir : Inode geo}

theorem insertFits_of_room {entries : List Dirent.Entry} {e : Dirent.Entry}
    (hentries : ∀ e ∈ entries, e.Ok geo.blockSize geo.inodesCount)
    (h : Dirent.room entries n = some e)
    {name : Bytes} (hname : name.length = n) : Dirent.InsertFits e name geo.blockSize := by
  obtain ⟨⟨l1, l2, rfl⟩, hunused, hused⟩ := Dirent.room_eq_some h
  have hstop := (hentries e (by simp)).stop_le
  have hsize := Dirent.recLenFor_ge n
  unfold Dirent.InsertFits Dirent.PutFits
  split
  · rename_i hinode
    have := hunused hinode
    omega
  · rename_i hinode
    have := hused hinode
    omega

theorem safe_newDirBlock (hL : L.Scratch) (h : geo.InoOk dir.ino) (hn : n ≤ nameMax) :
    L.Safe (newDirBlock dir) (L.SpotOk dir n) := by
  have hsize := geo.blockSize_ge
  refine (safe_refuse _ _).bind fun _ _ =>
    (safe_handing (safeI_bmapAlloc hL h _)).bind fun taken htaken =>
    Safe.bind (safe_raise htaken.2) fun b hb =>
      (safe_writeBlock .content hL.content hb).bind fun old hold =>
        (safe_need (by omega)).bind fun _ _ =>
          safe_pure ⟨(Inode.Kin.setSize _ _).trans htaken.1, hb, ?_⟩
  intro name hname
  have hheader : Dirent.header = 8 := rfl
  have hmax : nameMax = 255 := rfl
  unfold Dirent.InsertFits
  rw [if_pos rfl]
  change 0 + Dirent.header + name.length ≤ geo.blockSize
  omega

theorem safe_roomInDir (hL : L.Scratch) (h : geo.InoOk dir.ino) (hn : n ≤ nameMax) :
    L.Safe (roomInDir dir n) (L.SpotOk dir n) := by
  refine (safe_searchDir dir (Q := fun spot => L.SpotOk dir n (dir, spot)) ?_).bind
    fun spot hspot => ?_
  · intro block data entries hshown x hx
    obtain ⟨e, he, rfl⟩ := Option.map_eq_some_iff.mp hx
    exact ⟨.refl dir, hshown.block_ok,
      fun name hname => insertFits_of_room hshown.entry_ok he hname⟩
  · cases spot with
    | none => exact safe_newDirBlock hL h hn
    | some spot => exact safe_pure (hspot spot rfl)

theorem safe_addEntry (hL : L.Scratch) (h : geo.InoOk dir.ino) {name : Bytes}
    (hname : name.length ≤ nameMax) (ino : ℕ) (kind : FileType) :
    L.Safe (addEntry dir name ino kind) fun r => r.Kin dir :=
  (safe_roomInDir hL h hname).bind fun spot hspot =>
    (safe_writeBlock .content hL.content hspot.block_ok).bind fun old hold =>
      (safe_need (by rw [hold]; exact hspot.fits name rfl)).bind fun _ _ =>
        (safe_changedDir _).mono fun _ hr => hr.trans hspot.kin

/-- The header of an entry lies inside its block. -/
theorem headerFits {e : Dirent.Entry} (h : e.Ok geo.blockSize geo.inodesCount) :
    e.HeaderFits geo.blockSize :=
  le_trans (Nat.add_le_add_left h.header_le _) h.stop_le

theorem safe_removeEntry (hL : L.Scratch) (dir : Inode geo) {found : Found} (h : L.FoundOk found) :
    L.Safe (removeEntry dir found) fun r => r.Kin dir := by
  refine (safe_writeBlock .content hL.content h.block_ok).bind fun old hold =>
    (safe_need ?_).bind fun _ _ => safe_changedDir dir
  rw [hold]
  exact ⟨headerFits h.entry_ok, fun e he => headerFits (h.prev_ok e he)⟩

theorem safe_entryInode (found : Found) : L.Safe (entryInode found) (InUse found.entry.inode) := by
  refine (safe_result (safe_inode _)).bind fun r hr => safe_raise fun inode h => ?_
  cases r with
  | error e => cases h
  | ok i =>
    cases h
    exact hr inode rfl

end Entries

/-! ### Making and removing -/

section Making

theorem safe_dirForChange (dir : Ino) (name : Bytes) :
    L.Safe (dirForChange dir name) fun inode => InUse dir inode ∧ NameOk name :=
  (safe_inode dir).bind fun _ h => safe_mem.bind fun _ _ => (safe_refuse _ _).bind fun _ _ =>
    Safe.bind (P := fun _ => NameOk name) (safe_raise fun _ hname => checkName_ok_iff.mp hname)
      fun _ hname => (safe_refuse _ _).bind fun _ _ => safe_pure ⟨h, hname⟩

theorem safeI_firstDirBlock (hL : L.Scratch) (parent : ℕ) {inode : Inode geo}
    (h : geo.InoOk inode.ino) :
    L.SafeI (firstDirBlock parent) inode fun _ => True := by
  have hsize := geo.blockSize_ge
  refine (safeI_bmapAlloc hL h 0).bind fun b _ _ hb => safeI_get.bind fun i j hj hi =>
    (safeI_beside (safe_writeBlock .content hL.content hb)).bind fun old k hk hold =>
      (safeI_beside (safe_need (by omega))).bind fun _ l hl _ => safeI_set ?_
  have hl' := hl.trans (hk.trans hj)
  have hi' := (Inode.Kin.setSize i geo.blockSize).trans hi
  exact ⟨hi'.ino_eq.trans hl'.ino_eq.symm, hi'.links_eq.trans hl'.links_eq.symm⟩

theorem safeI_linkNew (hL : L.Scratch) {parent : Inode geo} (hparent : geo.InoOk parent.ino)
    {name : Bytes}
    (hname : name.length ≤ nameMax) (kind : FileType) {inode : Inode geo}
    (h : geo.InoOk inode.ino) :
    L.SafeI (linkNew parent name kind) inode fun r => r.Kin parent :=
  (safeI_onlyIf fun _ => safeI_firstDirBlock hL _ h).bind fun _ _ _ _ =>
    safeI_get.bind fun _ _ _ _ =>
    safeI_beside (safe_addEntry hL hparent hname _ _)

theorem safe_make (hL : L.Full) (dir : Ino) (name : Bytes) (kind : FileType) :
    L.Safe (make dir name kind) fun _ => True := by
  refine (safe_dirForChange dir name).bind fun parent ⟨hparent, hname⟩ =>
    (safe_findEntry parent name).bind fun _ _ => (safe_refuse _ _).bind fun _ _ =>
      (safe_refuse _ _).bind fun _ hlinks => (safe_allocInode hL.toScratch hparent.ino_ok _).bind
        fun ino hino => safe_now.bind fun t _ => ?_
  refine (safe_handing (safeI_linkNew hL.toScratch hparent.ino_ok hname.length_le kind
    (by rw [Inode.ino_fresh]; exact hino))).bind fun linked hlinked => ?_
  have hino' : geo.InoOk linked.2.ino := by
    rw [hlinked.1.ino_eq, Inode.ino_fresh]
    exact hino
  split
  · -- what was allocated is given back
    exact (safe_handing (safeI_freeFrom hL.toScratch 0)).bind fun freed _ =>
      Safe.bind (P := fun _ => True) (safe_raise fun _ _ => trivial) fun _ _ =>
        (safe_freeInode hL.toScratch hino _).bind fun _ _ => safe_throw _
  · rename_i parent' hparent'
    have hkin := hlinked.2 parent' hparent'
    have hroom : decide (kind = .directory) = true → parent'.links + 1 < 2 ^ 16 := by
      intro hdir
      have : ¬linkMax ≤ parent.links := fun h => hlinks ⟨hdir, h⟩
      unfold linkMax at this
      rw [hkin.links_eq]
      omega
    refine (safe_writeInode hL.toOpen (hL.stored _) hino').bind fun _ _ =>
      (safe_need hroom).bind fun _ _ =>
      (safe_writeInode hL.toOpen (hL.stored _) ?_).bind fun _ _ => safe_pure trivial
    have hok : geo.InoOk parent'.ino := hkin.ino_eq.symm ▸ hparent.ino_ok
    split
    · exact hok
    · exact hok

theorem safe_checkParent (dir : Inode geo) (parent : Ino) :
    L.Safe (checkParent dir parent) fun _ => True := by
  refine (safe_findEntry dir _).bind fun found _ => ?_
  cases found with
  | none => exact safe_throw _
  | some found => exact (safe_refuse _ _).mono fun _ _ => trivial

theorem links_pred_lt (i : Inode geo) : (i.setLinks (i.links - 1)).links + 1 < 2 ^ 16 := by
  have := i.links_lt
  rw [Inode.links_setLinks, Nat.mod_eq_of_lt (by omega)]
  omega

theorem safe_dropLink (hL : L.Open) {inode : Inode geo} (h : geo.InoOk inode.ino) :
    L.Safe (dropLink inode) fun _ => True := by
  refine safe_now.bind fun t _ => ?_
  have hino : geo.InoOk ((inode.setLinks (inode.links - 1)).setCtime t).ino := by
    rw [Inode.ino_setCtime]
    exact h
  refine safe_ite (fun _ => safe_releaseInode hL hino) fun _ =>
    safe_writeInode hL (hL.stored_of_links ?_) hino
  rw [Inode.links_setCtime]
  exact links_pred_lt inode

theorem safe_removeFile (hL : L.Full) (dir : Ino) (name : Bytes) :
    L.Safe (removeFile dir name) fun _ => True := by
  refine (safe_dirForChange dir name).bind fun parent ⟨hparent, _⟩ =>
    (safe_entryNamed parent name).bind fun found hfound =>
      (safe_entryInode found).bind fun inode h =>
      (safe_refuse _ _).bind fun _ _ => (safe_removeEntry hL.toScratch parent hfound).bind
        fun parent' hkin => ?_
  exact (safe_writeInode hL.toOpen (hL.stored _)
    (hkin.ino_eq.symm ▸ hparent.ino_ok)).bind fun _ _ =>
    safe_dropLink hL.toOpen h.ino_ok

theorem safe_removeDir (hL : L.Full) (dir : Ino) (name : Bytes) :
    L.Safe (removeDir dir name) fun _ => True := by
  refine (safe_dirForChange dir name).bind fun parent ⟨hparent, _⟩ =>
    (safe_entryNamed parent name).bind fun found hfound =>
      (safe_entryInode found).bind fun inode h =>
      (safe_refuse _ _).bind fun _ _ => (safe_checkParent inode dir).bind fun _ _ =>
        (safe_dirIsEmpty inode).bind fun _ _ => (safe_refuse _ _).bind fun _ _ =>
          (safe_removeEntry hL.toScratch parent hfound).bind fun parent' hkin => ?_
  refine (safe_writeInode hL.toOpen (hL.stored _)
    (hkin.ino_eq.symm ▸ hparent.ino_ok)).bind fun _ _ =>
    safe_now.bind fun t _ => safe_releaseInode hL.toOpen ?_
  rw [Inode.ino_setCtime]
  exact h.ino_ok

end Making

/-! ### The parts of a rename -/

section Renaming

theorem safe_isAncestorLoop (ancestor turns : ℕ) :
    ∀ here, L.Safe (isAncestorLoop ancestor turns here) fun _ => True := by
  induction turns with
  | zero => exact fun _ => safe_throw _
  | succ turns ih =>
    intro here
    refine safe_ite (fun _ => safe_pure trivial) fun _ =>
      safe_ite (fun _ => safe_pure trivial) fun _ =>
      (safe_dirInode here).bind fun inode _ => (safe_findEntry inode _).bind fun found _ => ?_
    cases found with
    | none => exact safe_throw _
    | some parent => exact ih _

theorem safe_isAncestor (ancestor : ℕ) (dir : Ino) :
    L.Safe (isAncestor ancestor dir) fun _ => True :=
  safe_mem.bind fun _ _ => safe_isAncestorLoop _ _ _

/-- What a rename may replace: a directory, if it moves one. -/
structure Replaceable (srcIsDir : Bool) (old : Inode geo) : Prop where
  ino_ok : geo.InoOk old.ino
  kind_eq : srcIsDir = true → old.kind = some .directory

theorem safe_replacedInode (srcIsDir : Bool) (target : Found) (toDir : Ino) :
    L.Safe (replacedInode srcIsDir target toDir) (Replaceable srcIsDir) := by
  refine (safe_entryInode target).bind fun inode h =>
    (safe_onlyIf fun _ => safe_checkParent inode toDir).bind fun _ _ =>
      (safe_refuse _ _).bind fun _ hdir =>
      (safe_refuse _ _).bind fun _ _ => (safe_onlyIf fun _ => ?_).bind fun _ _ =>
        safe_pure ⟨h.ino_ok, fun hsrc => ?_⟩
  · exact (safe_dirIsEmpty inode).bind fun _ _ => (safe_refuse _ _).mono fun _ _ => trivial
  · by_contra hkind
    exact hdir ⟨hsrc, decide_eq_false hkind⟩

theorem safe_replacedAt (srcIsDir : Bool) (target : Option Found) (toDir : Ino) :
    L.Safe (replacedAt srcIsDir target toDir) fun r =>
      (∀ old, r = some old → Replaceable srcIsDir old) ∧ (target = none → r = none) := by
  cases target with
  | none => exact safe_pure ⟨nofun, fun _ => rfl⟩
  | some t =>
    refine (safe_replacedInode srcIsDir t toDir).bind fun inode h =>
      safe_pure ⟨fun old hold => ?_, nofun⟩
    cases hold
    exact h

theorem safe_leaveSource (hL : L.Open) (fromDir : Ino) (src : Bytes) (movesDir : Bool)
    (hstored : movesDir = false → ∀ i, L.stored i) :
    L.Safe (leaveSource fromDir src movesDir) fun _ => True := by
  refine (safe_inode fromDir).bind fun srcParent h =>
    (safe_findEntry srcParent src).bind fun found hfound => ?_
  cases found with
  | none => exact safe_throw _
  | some found =>
    refine (safe_removeEntry hL.toScratch srcParent (hfound found rfl)).bind fun left hkin => ?_
    have hino : geo.InoOk left.ino := hkin.ino_eq.symm ▸ h.ino_ok
    cases movesDir with
    | false => exact safe_writeInode hL (hstored rfl _) hino
    | true => exact safe_writeInode hL (hL.stored_of_links (links_pred_lt left)) hino

end Renaming

/-! ### Writing everything out -/

section Flush

/-- The program may also write the superblock and the descriptors, and flush. -/
structure Flushing (L : Limits geo) : Prop where
  superblock : L.writable .superblock
  descriptors : L.writable .descriptors
  flushes : L.flushes

variable (hL : L.Flushing)
include hL

omit hL in
theorem superLocation_le (g : ℕ) : (geo.superLocation g).2 + superblockSize ≤ geo.blockSize := by
  unfold Geometry.superLocation
  split
  · rcases geo.blockSize_cases with h | h | h <;> rw [h] <;> decide
  · exact le_trans (show 0 + superblockSize ≤ 1024 by decide) geo.blockSize_ge

theorem safe_writeCopies (sb : Superblock) (gs : List ℕ)
    (hgs : ∀ g ∈ gs, g < geo.groups ∧ geo.hasSuper g = true) :
    L.Safe (writeCopies sb gs) fun _ => True := by
  induction gs with
  | nil => exact safe_pure trivial
  | cons g gs ih =>
    obtain ⟨hg, hsuper⟩ := hgs g List.mem_cons_self
    have hstart := Geometry.groupStart_lt_pow hg
    have hfits : L.base.Fits .superblock (geo.superLocation g).1 := ⟨g, hg, hsuper, rfl⟩
    exact (safe_need ⟨by omega, geo.blockSize_pos.ne'⟩).bind fun _ _ =>
      (safe_writeBlock .superblock hL.superblock hfits).bind fun old hold =>
        (safe_need (by rw [hold]; exact superLocation_le g)).bind fun _ _ =>
          ih fun g hg => hgs g (List.mem_cons_of_mem _ hg)

theorem safe_writeSuper : L.Safe writeSuper fun _ => True := by
  refine safe_mem.bind fun m hm => safe_onlyIf fun _ => safe_now.bind fun t _ =>
    (safe_setMem (hm.trans (m.same_setSb _))).bind fun _ _ =>
      (safe_writeCopies hL _ _ fun g hg => ?_).bind fun _ _ =>
        safe_setMem (hm.trans (m.same_setSb _))
  obtain ⟨hmem, hsuper⟩ := List.mem_filter.mp hg
  exact ⟨List.mem_range.mp hmem, hsuper⟩

theorem safe_writeTable {raw : Bytes}
    (hraw : raw.length = geo.gdtBlocks * geo.blockSize) (is : List ℕ)
    (his : ∀ i ∈ is, i < geo.gdtBlocks) : L.Safe (writeTable raw is) fun _ => True := by
  induction is with
  | nil => exact safe_pure trivial
  | cons i is ih =>
    have hi := his i List.mem_cons_self
    have hfits : L.base.Fits .descriptors (geo.firstDataBlock + 1 + i) := ⟨i, hi, rfl⟩
    have hlen : (slice raw (i * geo.blockSize) geo.blockSize).length = geo.blockSize := by
      refine length_slice ?_
      have := Nat.mul_le_mul_right geo.blockSize hi
      rw [Nat.succ_mul] at this
      rw [hraw]
      exact this
    exact (safe_zeroBlock .descriptors hL.descriptors ⟨hfits, by simp⟩ _).bind fun old hold =>
      (safe_need (by rw [hold, hlen])).bind fun _ _ => ih fun i hi =>
        his i (List.mem_cons_of_mem _ hi)

theorem safe_writeGroups : L.Safe writeGroups fun _ => True := by
  refine safe_mem.bind fun m hm => safe_onlyIf fun _ =>
    (safe_need geo.blockSize_pos.ne').bind fun _ _ =>
    (safe_writeTable hL m.raw_length _ fun i hi => ?_).bind fun _ _ =>
      safe_setMem (hm.trans ⟨⟨fun _ => rfl⟩, rfl, rfl, rfl⟩)
  rw [m.raw_length, Nat.mul_div_cancel _ geo.blockSize_pos] at hi
  exact List.mem_range.mp hi

theorem safe_flush : L.Safe flush fun _ => True :=
  (safe_writeGroups hL).bind fun _ _ => (safe_writeSuper hL).bind fun _ _ => safe_sync hL.flushes

theorem safe_syncFs : L.Safe syncFs fun _ => True :=
  safe_mem.bind fun _ _ => safe_ite (fun _ => safe_pure trivial) fun _ => safe_flush hL

omit hL in
theorem overhead_lt (geo : Geometry) : geo.overhead < 2 ^ 64 := by
  have hgroups : geo.groups ≤ 65536 := geo.groups_le
  have hgdt := geo.gdtBlocks_lt
  have hfirst : geo.firstDataBlock < 2 ^ 32 := lt_trans geo.firstDataBlock_lt geo.blocksCount_lt
  have hcopies : ((List.range geo.groups).filter geo.hasSuper).length ≤ geo.groups := by
    refine le_trans (List.length_filter_le _ _) ?_
    rw [List.length_range]
  have htable : geo.inodeTableBlocks ≤ 8 * 4096 := by
    by_contra hlt
    rw [not_le, geo.inodeTableBlocks_eq, lt_divCeil geo.blockSize_pos] at hlt
    have h1 := geo.inodesPerGroup_le
    have h2 := Nat.mul_le_mul h1 geo.inodeSize_le
    have h3 := Nat.mul_le_mul_right geo.blockSize (Nat.mul_le_mul_left 8 geo.blockSize_le)
    omega
  have h1 := Nat.mul_le_mul (le_trans hcopies hgroups) (show 1 + geo.gdtBlocks ≤ 65536 by omega)
  have h2 := Nat.mul_le_mul hgroups (Nat.add_le_add_left htable 2)
  unfold Geometry.overhead
  omega

omit hL in
theorem safe_fsStat : L.Safe fsStat fun _ => True :=
  safe_mem.bind fun _ _ => (safe_need (overhead_lt geo)).bind fun _ _ => safe_pure trivial

end Flush

end Limits

end RelayOs.Ext2
