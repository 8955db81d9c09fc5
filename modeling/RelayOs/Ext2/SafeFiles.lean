import RelayOs.Ext2.DirBlock
import RelayOs.Ext2.Safety

/-!
# Nothing on the disk is trusted: files and directories

Reading and writing files and scanning directories, against the specification without a state
(`RelayOs.Ext2.Limits.spec`). The two loops over a buffer end because each turn takes at least a
byte of it; what a scan of a directory finds lies inside the block it was found in, since every
block is parsed in full first.
-/

namespace RelayOs.Ext2

open Vfs

variable {geo : Geometry}

theorem maxFileSize_lt (geo : Geometry) : maxFileSize geo.blockSize < 2 ^ 64 := by
  rcases geo.blockSize_cases with h | h | h <;> rw [h] <;> decide

namespace Limits

variable {L : Limits geo}

/-- The program may store any inode. -/
structure Full (L : Limits geo) : Prop extends L.Open where
  stored : ∀ i, L.stored i

/-! ### Reading -/

section Reading

theorem safe_readPiece {block : Option ℕ} {within len : ℕ}
    (hblock : ∀ b, block = some b → L.base.DataBlock b)
    (hfit : within + len ≤ geo.blockSize) : L.Safe (readPiece block within len) fun _ => True := by
  cases block with
  | none => exact safe_pure trivial
  | some b =>
    exact (safe_readBlock .content (hblock b rfl)).bind fun data hdata =>
      (safe_need (by rw [hdata]; exact hfit)).bind fun _ _ => safe_pure trivial

theorem turn_fits (geo : Geometry) {n done turns : ℕ} (pos : ℕ) (hturns : n ≤ done + (turns + 1))
    (hn : done < n) :
    n ≤ done + min (n - done) (geo.blockSize - pos % geo.blockSize) + turns ∧
      pos % geo.blockSize + min (n - done) (geo.blockSize - pos % geo.blockSize) ≤
        geo.blockSize := by
  have := Nat.mod_lt pos geo.blockSize_pos
  omega

theorem safe_readLoop (inode : Inode geo) {offset n : ℕ} (hfit : offset + n < 2 ^ 64) (turns : ℕ) :
    ∀ done, n ≤ done + turns → L.Safe (readLoop inode offset n turns done) fun _ => True := by
  induction turns with
  | zero => exact fun done hdone => (safe_need hdone).bind fun _ _ => safe_pure trivial
  | succ turns ih =>
    intro done hdone
    refine safe_ite (fun _ => safe_pure trivial) fun hn => (safe_need (by omega)).bind fun _ _ => ?_
    obtain ⟨hturns, hwithin⟩ := turn_fits geo (offset + done) hdone (not_le.mp hn)
    exact (safe_bmap inode _).bind fun block hblock =>
      (safe_readPiece hblock hwithin).bind fun _ _ =>
      (ih _ hturns).bind fun _ _ => safe_pure trivial

theorem safe_fileRead (ino : Ino) (offset n : ℕ) :
    L.Safe (fileRead ino offset n) fun _ => True := by
  refine (safe_inode ino).bind fun inode h => (safe_refuse _ _).bind fun _ _ =>
    (safe_refuse _ _).bind fun _ _ => safe_ite (fun _ => safe_pure trivial) fun hoff => ?_
  have hsize := h.size_le
  have hmax := maxFileSize_lt geo
  exact safe_readLoop inode (by omega) _ 0 (by omega)

theorem safe_linkTarget (ino : Ino) : L.Safe (linkTarget ino) fun _ => True := by
  refine (safe_inode ino).bind fun inode h => (safe_refuse _ _).bind fun _ _ =>
    safe_ite (fun _ => (safe_refuse _ _).bind fun _ _ => safe_pure trivial) fun _ =>
      (safe_refuse _ _).bind fun _ hsize => (safe_bmap inode 0).bind fun block hblock => ?_
  cases block with
  | none => exact safe_throw _
  | some b =>
    refine (safe_readBlock .content (hblock b rfl)).bind fun data hdata => ?_
    exact (safe_need (by omega)).bind fun _ _ => safe_pure trivial

end Reading

/-! ### Writing -/

section Writing

theorem safe_fileForChange (ino : Ino) : L.Safe (fileForChange ino) (InUse ino) :=
  (safe_inode ino).bind fun _ h => safe_mem.bind fun _ _ => (safe_refuse _ _).bind fun _ _ =>
    (safe_refuse _ _).bind fun _ _ => (safe_refuse _ _).bind fun _ _ => safe_pure h

theorem safe_zeroTail (hL : L.Scratch) (inode : Inode geo) (size : ℕ) :
    L.Safe (zeroTail inode size) fun _ => True := by
  refine safe_ite (fun _ => safe_pure trivial) fun _ =>
    (safe_bmap inode _).bind fun block hblock => ?_
  cases block with
  | none => exact safe_pure trivial
  | some b =>
    have hb := hblock b rfl
    have := Nat.mod_lt size geo.blockSize_pos
    exact (safe_writeBlock .content hL.content hb).bind fun old hold => safe_need (by omega)

theorem safe_setFileSize (inode : Inode geo) (size : ℕ) :
    L.Safe (setFileSize inode size) fun r => r.Kin inode :=
  safe_mem.bind fun m hm =>
    (safe_onlyIf fun _ => safe_setMem (hm.trans (m.same_setSb _))).bind fun _ _ =>
    safe_pure (.setSize inode size)

theorem safeI_writeLoop (hL : L.Scratch) {offset : ℕ} {buf : Bytes}
    (hfit : offset + buf.length < 2 ^ 64)
    (turns : ℕ) : ∀ (inode : Inode geo) (done : ℕ), geo.InoOk inode.ino →
      buf.length ≤ done + turns →
      L.SafeI (writeLoop offset buf turns done) inode fun _ => True := by
  induction turns with
  | zero =>
    exact fun inode done _ hdone => (safeI_beside (safe_need hdone)).bind fun _ _ _ _ =>
      safeI_pure trivial
  | succ turns ih =>
    intro inode done hino hdone
    refine safeI_ite (fun _ => safeI_pure trivial) fun hn =>
      (safeI_beside (safe_need (by omega))).bind fun _ j hj _ => ?_
    obtain ⟨hturns, hwithin⟩ := turn_fits geo (offset + done) hdone (not_le.mp hn)
    have hino' : geo.InoOk j.ino := hj.ino_eq.symm ▸ hino
    refine (safeI_attempt (safeI_bmapAlloc hL hino' _)).bind fun block k hk hblock => ?_
    cases block with
    | error e => exact safeI_pure trivial
    | ok b =>
      have hb := hblock b rfl
      refine (safeI_attempt (safeI_beside (safe_ite
        (fun _ => safe_zeroBlock .content hL.content ⟨hb, by simp⟩ _)
        fun _ => safe_writeBlock .content hL.content hb))).bind fun data l hl hdata => ?_
      cases data with
      | error e => exact safeI_pure trivial
      | ok d =>
        have hd : d.length = geo.blockSize := hdata d rfl
        refine (safeI_beside (safe_need (by rw [hd]; exact hwithin))).bind fun _ o ho _ => ?_
        refine ih o _ ?_ hturns
        rw [ho.ino_eq, hl.ino_eq, hk.ino_eq]
        exact hino'

theorem safe_grown (inode : Inode geo) (done stop : ℕ) :
    L.Safe (grown inode done stop) fun r => r.Kin inode :=
  safe_ite (fun _ => (safe_setFileSize inode stop).bind fun r hr => safe_now.bind fun t _ =>
    safe_pure ⟨by rw [Inode.ino_touch, hr.ino_eq], by rw [Inode.links_touch, hr.links_eq]⟩)
    fun _ => safe_pure (.refl inode)

theorem safe_fileWrite (hL : L.Full) (ino : Ino) (offset : ℕ) (buf : Bytes) :
    L.Safe (fileWrite ino offset buf) fun _ => True := by
  refine (safe_fileForChange ino).bind fun before h =>
    safe_ite (fun _ => safe_pure trivial) fun _ =>
    (safe_refuse _ _).bind fun _ hsize => (safe_onlyIf fun _ => safe_zeroTail hL.toScratch _ _).bind
      fun _ _ => ?_
  have hmax := maxFileSize_lt geo
  refine (safe_handing (safeI_writeLoop hL.toScratch (by omega) _ before 0 h.ino_ok
    (by omega))).bind
    fun wrote hwrote => Safe.bind (P := fun _ => True) (safe_raise fun _ _ => trivial)
      fun written _ =>
      (safe_grown _ _ _).bind fun inode hinode => ?_
  have hino : geo.InoOk inode.ino := by
    rw [hinode.ino_eq, hwrote.1.ino_eq]
    exact h.ino_ok
  refine (safe_onlyIf fun _ => safe_writeInode hL.toOpen (hL.stored _) hino).bind fun _ _ => ?_
  split
  · exact safe_ite (fun _ => safe_pure trivial) fun _ => safe_throw _
  · exact safe_pure trivial

theorem safe_resizeData (hL : L.Scratch) (inode : Inode geo) (size : ℕ) :
    L.Safe (resizeData inode size) fun r => r.2.Kin inode :=
  safe_ite (fun _ => (safe_zeroTail hL _ _).bind fun _ _ => safe_pure (.refl inode)) fun _ =>
    safe_ite (fun _ => (safe_zeroTail hL _ _).bind fun _ _ =>
      (safe_handing (safeI_freeFrom hL _)).mono fun _ h => h.1) fun _ => safe_pure (.refl inode)

theorem safe_resized (freed : Except Errno Unit) (inode : Inode geo) (size : ℕ) :
    L.Safe (resized freed inode size) fun r => r.Kin inode := by
  cases freed with
  | error e => exact safe_pure (.refl inode)
  | ok u => exact safe_setFileSize inode size

theorem safe_fileTruncate (hL : L.Full) (ino : Ino) (size : ℕ) :
    L.Safe (fileTruncate ino size) fun _ => True := by
  refine (safe_fileForChange ino).bind fun inode h => (safe_refuse _ _).bind fun _ _ =>
    (safe_resizeData hL.toScratch _ _).bind fun freed hfreed =>
      (safe_resized freed.1 freed.2 size).bind fun left hleft => safe_now.bind fun t _ => ?_
  have hino : geo.InoOk (left.touch t).ino := by
    rw [Inode.ino_touch, hleft.ino_eq, hfreed.ino_eq]
    exact h.ino_ok
  exact (safe_writeInode hL.toOpen (hL.stored _) hino).bind fun _ _ => safe_raise fun _ _ => trivial

theorem safe_inodeTouch (hL : L.Full) (ino : Ino) : L.Safe (inodeTouch ino) fun _ => True := by
  refine (safe_inode ino).bind fun inode h => safe_mem.bind fun _ _ =>
    (safe_refuse _ _).bind fun _ _ =>
    safe_now.bind fun t _ => safe_writeInode hL.toOpen (hL.stored _) ?_
  rw [Inode.ino_touch]
  exact h.ino_ok

end Writing

/-! ### Scanning directories -/

section Scanning

/-- **What a scan shows of a block**: it may be file data, and its entries lie inside it. -/
structure Shown (L : Limits geo) (block : ℕ) (data : Bytes)
    (entries : List Dirent.Entry) : Prop where
  block_ok : L.base.DataBlock block
  length_data : data.length = geo.blockSize
  entry_ok : ∀ e ∈ entries, e.Ok geo.blockSize geo.inodesCount

theorem safe_dirInode (ino : Ino) : L.Safe (dirInode ino) (InUse ino) :=
  (safe_inode ino).bind fun _ h => (safe_refuse _ _).bind fun _ _ => safe_pure h

theorem safe_dirEntries {data : Bytes} (hdata : data.length = geo.blockSize) (first : Bool) :
    L.Safe (dirEntries data first) fun entries => ∀ e ∈ entries,
      e.Ok geo.blockSize geo.inodesCount := by
  rw [dirEntries]
  split
  · exact safe_throw _
  · rename_i entries hparse
    have hok : ∀ e ∈ entries, e.Ok geo.blockSize geo.inodesCount := fun e he =>
      hdata ▸ ((Dirent.parse_eq_ok.mp hparse).ok he).1
    refine (safe_need fun e he => ?_).bind fun _ _ => ?_
    · rw [hdata]
      exact le_trans (hok e he).name_stop_le (hok e he).stop_le
    · split
      · exact safe_throw _
      · exact safe_pure hok

theorem safe_scanLoop {α τ : Type} (dir : Inode geo) {Q : τ → Prop}
    {f : α → ℕ → Bytes → List Dirent.Entry → α × Option τ}
    (hf : ∀ a {block data entries}, L.Shown block data entries →
      ∀ x, (f a block data entries).2 = some x → Q x)
    (blocks : ℕ) : ∀ lb seen a,
      L.Safe (scanLoop dir f blocks lb seen a) fun r => ∀ x, r.2 = some x → Q x := by
  induction blocks with
  | zero => exact fun _ _ _ => safe_pure nofun
  | succ blocks ih =>
    intro lb seen a
    refine (safe_bmap dir lb).bind fun block hblock => ?_
    cases block with
    | none => exact safe_throw _
    | some b =>
      refine (safe_refuse _ _).bind fun _ _ =>
        (safe_readBlock .content (hblock b rfl)).bind fun data hdata =>
        (safe_dirEntries hdata _).bind fun entries hentries => ?_
      have hshown := hf a (Shown.mk (hblock b rfl) hdata hentries)
      rcases hfound : f a b data entries with ⟨a', _ | x⟩
      · exact ih _ _ _
      · rw [hfound] at hshown
        exact safe_pure hshown

theorem safe_scanDir {α τ : Type} (dir : Inode geo) {Q : τ → Prop}
    {f : α → ℕ → Bytes → List Dirent.Entry → α × Option τ}
    (hf : ∀ a {block data entries}, L.Shown block data entries →
      ∀ x, (f a block data entries).2 = some x → Q x)
    (a : α) : L.Safe (scanDir dir f a) fun r => ∀ x, r.2 = some x → Q x := by
  have hsize : geo.blockSize / 512 ≠ 0 := by
    have := geo.blockSize_ge
    omega
  exact (safe_need hsize).bind fun _ _ => (safe_refuse _ _).bind fun _ _ =>
    (safe_refuse _ _).bind fun _ _ => safe_scanLoop dir hf _ _ _ _

theorem safe_searchDir {τ : Type} (dir : Inode geo) {Q : τ → Prop}
    {f : ℕ → Bytes → List Dirent.Entry → Option τ}
    (hf : ∀ {block data entries}, L.Shown block data entries →
      ∀ x, f block data entries = some x → Q x) :
    L.Safe (searchDir dir f) fun r => ∀ x, r = some x → Q x :=
  (safe_scanDir dir (fun _ _ _ _ hshown => hf hshown) ()).bind fun _ hr => safe_pure hr

/-- **An entry a search found**: it and the one before it lie inside its block. -/
structure FoundOk (L : Limits geo) (found : Found) : Prop where
  block_ok : L.base.DataBlock found.block
  entry_ok : found.entry.Ok geo.blockSize geo.inodesCount
  prev_ok : ∀ e, found.prev = some e → e.Ok geo.blockSize geo.inodesCount

theorem foundOk_of_findIn {name : Bytes} {block : ℕ} {data : Bytes} (hb : L.base.DataBlock block)
    (entries : List Dirent.Entry) :
    ∀ {prev : Option Dirent.Entry} {found : Found},
      (∀ e ∈ entries, e.Ok geo.blockSize geo.inodesCount) →
      (∀ e, prev = some e → e.Ok geo.blockSize geo.inodesCount) →
      findIn name block data prev entries = some found → L.FoundOk found := by
  induction entries with
  | nil => exact fun _ _ h => by cases h
  | cons e entries ih =>
    intro prev found hok hprev h
    rw [findIn] at h
    split at h
    · cases h
      exact ⟨hb, hok e List.mem_cons_self, hprev⟩
    · exact ih (fun e he => hok e (List.mem_cons_of_mem _ he))
        (fun e' he' => by cases he'; exact hok e List.mem_cons_self) h

theorem safe_findEntry (dir : Inode geo) (name : Bytes) :
    L.Safe (findEntry dir name) fun r => ∀ found, r = some found → L.FoundOk found :=
  safe_searchDir dir fun hshown _ h =>
    foundOk_of_findIn hshown.block_ok _ hshown.entry_ok (by simp) h

theorem safe_entryNamed (dir : Inode geo) (name : Bytes) :
    L.Safe (entryNamed dir name) L.FoundOk := by
  refine (safe_findEntry dir name).bind fun found hfound => ?_
  cases found with
  | none => exact safe_throw _
  | some found => exact safe_pure (hfound found rfl)

theorem safe_dirLookup (dir : Ino) (name : Bytes) : L.Safe (dirLookup dir name) fun _ => True := by
  refine (safe_dirInode dir).bind fun inode _ => safe_ite (fun _ => safe_pure trivial) fun _ =>
    (safe_findEntry inode name).bind fun found _ => ?_
  cases found with
  | none => exact safe_throw _
  | some found => exact safe_pure trivial

theorem safe_dirList (dir : Ino) : L.Safe (dirList dir) fun _ => True :=
  (safe_dirInode dir).bind fun inode _ =>
    (safe_scanDir (Q := fun _ => True) inode (fun _ _ _ _ _ _ _ => trivial) []).bind fun _ _ =>
      safe_pure trivial

theorem safe_dirIsEmpty (dir : Inode geo) : L.Safe (dirIsEmpty dir) fun _ => True :=
  (safe_searchDir (Q := fun _ => True) dir fun _ _ _ => trivial).bind fun _ _ => safe_pure trivial

end Scanning

end Limits

end RelayOs.Ext2
