import RelayOs.Ext2.Directory
import RelayOs.Ext2.Layout

/-!
# Nothing on the disk is trusted

Whatever the device holds, no function of the driver stops dead, and every block it asks
for lies inside the filesystem. For this, nothing need be known about the disk: a block
may hold anything of the right length, at every read. So the programs are read against a
specification without any state, `RelayOs.Ext2.Limits.spec`, that answers a read with
arbitrary bytes and foresees a failure of every request.
-/

namespace RelayOs.Ext2

open Vfs

/-- **What a program has to keep to**: the memory it finds, up to its counts, the kinds of block it
may change and the inodes it may store. -/
structure Limits (geo : Geometry) where
  base : Mem geo
  writable : Use → Prop
  stored : Inode geo → Prop
  flushes : Prop

variable {geo : Geometry}

/-- The same inode, with the same links. -/
structure Inode.Kin (j i : Inode geo) : Prop where
  ino_eq : j.ino = i.ino
  links_eq : j.links = i.links

namespace Inode.Kin

theorem refl (i : Inode geo) : i.Kin i := ⟨rfl, rfl⟩

theorem trans {i j k : Inode geo} (h : k.Kin j) (h' : j.Kin i) : k.Kin i :=
  ⟨h.ino_eq.trans h'.ino_eq, h.links_eq.trans h'.links_eq⟩

variable (i : Inode geo)

theorem addBlocks (d : ℤ) : (i.addBlocks d).Kin i := ⟨rfl, i.links_addBlocks d⟩

theorem setBlock (n b : ℕ) : (i.setBlock n b).Kin i := ⟨rfl, i.links_setBlock n b⟩

theorem setSize (n : ℕ) : (i.setSize n).Kin i := ⟨i.ino_setSize n, i.links_setSize n⟩

end Inode.Kin

/-- **What may be changed in a block** taken for something. -/
def Mem.Allows (m : Mem geo) (stored : Inode geo → Prop) : Use → ℕ → Edit → Prop
  | .bitmap, b, f => ∃ g < geo.groups, ∃ i, (f = setBit i ∨ f = clearBit i) ∧
      (b = m.groups.blockBitmap g ∧ i < geo.groupBlocks g ∧ m.DataBlock (geo.groupStart g + i) ∨
        b = m.groups.inodeBitmap g ∧ i < geo.inodesPerGroup)
  | .inodes, b, f => ∃ i, stored i ∧ geo.InoOk i.ino ∧ b = (m.location i.ino).1 ∧
      f = .splice (m.location i.ino).2 i.raw.val
  | .pointers, b, _ => m.Fits .pointers b
  | .content, b, _ => m.Fits .content b
  | .superblock, b, _ => m.Fits .superblock b
  | .descriptors, b, _ => m.Fits .descriptors b

namespace Limits

/-- **The specification without a state**: any content may be read, anything may fail. -/
def spec (L : Limits geo) : Spec (sig geo) Unit where
  pre r _ := match r with
    | .read use b => L.base.Fits use b
    | .write use b f => L.writable use ∧ L.base.Allows L.stored use b f
    | .zeroed use b _ => L.writable use ∧ L.base.Overwritable use b
    | .sync => L.flushes
    | .setMem m => L.base.Same m
    | .mem => True
    | .clock => True
  post r _ x _ := match r, x with
    | .read _ _, x => ∀ d : Bytes, x = .ok d → d.length = geo.blockSize
    | .write _ _ _, x => ∀ d : Bytes, x = .ok d → d.length = geo.blockSize
    | .zeroed _ _ _, x => ∀ d : Bytes, x = .ok d → d.length = geo.blockSize
    | .mem, m => L.base.Same m
    | .sync, _ => True
    | .setMem _, _ => True
    | .clock, _ => True

/-- The program may change bitmaps, and blocks that hold no metadata. -/
structure Scratch (L : Limits geo) : Prop where
  bitmap : L.writable .bitmap
  pointers : L.writable .pointers
  content : L.writable .content

/-- The program may change inode tables, too, and store any inode whose links can still grow. -/
structure Open (L : Limits geo) : Prop extends L.Scratch where
  inodes : L.writable .inodes
  stored_of_links : ∀ {i}, i.links + 1 < 2 ^ 16 → L.stored i

variable (L : Limits geo) {α β : Type}

/-- **The program is safe**, and if it succeeds its result satisfies `Q`. -/
def Safe (p : M geo α) (Q : α → Prop) : Prop :=
  p.run.wp L.spec (fun r _ => ∀ a, r = .ok a → Q a) ()

/-- **The program handed `inode` is safe**; it keeps the inode's number and links, and if it
succeeds its result satisfies `Q`. -/
def SafeI (p : MI geo α) (inode : Inode geo) (Q : α → Prop) : Prop :=
  (p.run.run inode).wp L.spec (fun r _ => r.2.Kin inode ∧ ∀ a, r.1 = .ok a → Q a) ()

variable {L}

/-! ### Rules -/

section Rules

variable {P Q : α → Prop}

theorem Safe.mono {p : M geo α} (h : L.Safe p P) (hPQ : ∀ a, P a → Q a) : L.Safe p Q :=
  Prog.wp_mono h fun _ _ hr a ha => hPQ a (hr a ha)

theorem Safe.bind {Q : β → Prop} {x : M geo α} {f : α → M geo β} (hx : L.Safe x P)
    (hf : ∀ a, P a → L.Safe (f a) Q) : L.Safe (x >>= f) Q := by
  unfold Safe
  rw [Prog.wp_except_bind]
  refine Prog.wp_mono hx fun r _ hr => ?_
  cases r with
  | error e => exact fun a ha => by cases ha
  | ok a => exact hf a (hr a rfl)

theorem safe_pure {a : α} (h : Q a) : L.Safe (pure a) Q := fun b hb => by
  cases hb
  exact h

theorem safe_throw (e : Errno) : L.Safe (throw e : M geo α) Q := fun _ hb => by cases hb

theorem safe_raise {r : Except Errno α} (h : ∀ a, r = .ok a → Q a) : L.Safe (raise r) Q := h

theorem safe_ite {c : Prop} [Decidable c] {x y : M geo α} (hx : c → L.Safe x Q)
    (hy : ¬c → L.Safe y Q) : L.Safe (if c then x else y) Q := by
  split
  · rename_i hc
    exact hx hc
  · rename_i hc
    exact hy hc

theorem safe_need {c : Prop} [Decidable c] (hc : c) : L.Safe (need c) fun _ => True := by
  unfold Safe need
  change ((Prog.need c).bind _).wp _ _ _
  rw [Prog.wp_bind, Prog.wp_need]
  exact ⟨hc, fun _ _ => trivial⟩

theorem safe_refuse (c : Prop) [Decidable c] (e : Errno) : L.Safe (refuse c e) fun _ => ¬c :=
  safe_ite (fun _ => safe_throw e) fun hc => safe_pure hc

theorem safe_onlyIf {c : Prop} [Decidable c] {x : M geo Unit} (hx : c → L.Safe x fun _ => True) :
    L.Safe (onlyIf c x) fun _ => True :=
  safe_ite hx fun _ => safe_pure trivial

theorem safe_result {p : M geo α} (h : L.Safe p Q) :
    L.Safe (result p) fun r => ∀ a, r = .ok a → Q a := by
  unfold Safe result
  change (p.run.bind _).wp _ _ _
  rw [Prog.wp_bind]
  refine Prog.wp_mono h fun r _ hr r' hr' => ?_
  cases hr'
  exact hr

theorem safe_readBlock (use : Use) {b : ℕ} (hb : L.base.Fits use b) :
    L.Safe (readBlock use b) fun d => d.length = geo.blockSize :=
  ⟨hb, fun _ _ h => h⟩

theorem safe_writeBlock (use : Use) {b : ℕ} {f : Edit} (hw : L.writable use)
    (hf : L.base.Allows L.stored use b f) :
    L.Safe (writeBlock use b f) fun d => d.length = geo.blockSize :=
  ⟨⟨hw, hf⟩, fun _ _ h => h⟩

theorem safe_zeroBlock (use : Use) {b : ℕ} (hw : L.writable use)
    (hf : L.base.Overwritable use b) (f : Edit) :
    L.Safe (zeroBlock use b f) fun d => d.length = geo.blockSize :=
  ⟨⟨hw, hf⟩, fun _ _ h => h⟩

theorem safe_mem : L.Safe mem fun m => L.base.Same m :=
  ⟨trivial, fun _ _ h a ha => by cases ha; exact h⟩

theorem safe_setMem {m : Mem geo} (h : L.base.Same m) : L.Safe (setMem m) fun _ => True :=
  ⟨h, fun _ _ _ _ _ => trivial⟩

theorem safe_now : L.Safe now fun _ => True := ⟨trivial, fun _ _ _ _ _ => trivial⟩

theorem safe_sync (h : L.flushes) : L.Safe syncCache fun _ => True :=
  ⟨h, fun _ _ _ _ _ => trivial⟩

end Rules

section RulesI

variable {P Q : α → Prop} {i : Inode geo}

theorem SafeI.bind {Q : β → Prop} {x : MI geo α} {f : α → MI geo β} (hx : L.SafeI x i P)
    (hf : ∀ a (j : Inode geo), j.Kin i → P a → L.SafeI (f a) j Q) : L.SafeI (x >>= f) i Q := by
  unfold SafeI
  rw [Prog.wp_carrying_bind]
  refine Prog.wp_mono hx fun r _ hr => ?_
  obtain ⟨r, j⟩ := r
  cases r with
  | error e => exact ⟨hr.1, fun a ha => by cases ha⟩
  | ok a =>
    refine Prog.wp_mono (hf a j hr.1 (hr.2 a rfl)) fun r' _ hr' => ?_
    exact ⟨hr'.1.trans hr.1, hr'.2⟩

theorem safeI_pure {a : α} (h : Q a) : L.SafeI (pure a) i Q :=
  ⟨.refl i, fun b hb => by cases hb; exact h⟩

theorem safeI_throw (e : Errno) : L.SafeI (throw e : MI geo α) i Q :=
  ⟨.refl i, fun _ hb => by cases hb⟩

theorem safeI_ite {c : Prop} [Decidable c] {x y : MI geo α} (hx : c → L.SafeI x i Q)
    (hy : ¬c → L.SafeI y i Q) : L.SafeI (if c then x else y) i Q := by
  split
  · rename_i hc
    exact hx hc
  · rename_i hc
    exact hy hc

theorem safeI_onlyIf {c : Prop} [Decidable c] {x : MI geo Unit}
    (hx : c → L.SafeI x i fun _ => True) : L.SafeI (onlyIf c x) i fun _ => True :=
  safeI_ite hx fun _ => safeI_pure trivial

theorem safeI_get : L.SafeI get i fun j => j.Kin i :=
  ⟨.refl i, fun j hj => by cases hj; exact .refl i⟩

theorem safeI_modify {f : Inode geo → Inode geo} (h : (f i).Kin i) :
    L.SafeI (modify f) i fun _ => True :=
  ⟨h, fun _ _ => trivial⟩

theorem safeI_set {j : Inode geo} (h : j.Kin i) : L.SafeI (set j) i fun _ => True :=
  ⟨h, fun _ _ => trivial⟩

theorem safeI_beside {x : M geo α} (h : L.Safe x Q) : L.SafeI (Prog.beside x) i Q := by
  unfold SafeI Prog.beside
  change (x.run.bind _).wp _ _ _
  rw [Prog.wp_bind]
  exact Prog.wp_mono h fun r _ hr => ⟨.refl i, hr⟩

theorem safeI_attempt {x : MI geo α} (h : L.SafeI x i Q) :
    L.SafeI (Prog.attempt x) i fun r => ∀ a, r = .ok a → Q a := by
  unfold SafeI Prog.attempt
  change ((x.run.run i).bind _).wp _ _ _
  rw [Prog.wp_bind]
  exact Prog.wp_mono h fun r _ hr => ⟨hr.1, fun r' hr' => by cases hr'; exact hr.2⟩

theorem safe_handing {x : MI geo α} (h : L.SafeI x i Q) :
    L.Safe (Prog.handing x i) fun r => r.2.Kin i ∧ ∀ a, r.1 = .ok a → Q a := by
  unfold Safe Prog.handing
  change ((x.run.run i).bind _).wp _ _ _
  rw [Prog.wp_bind]
  exact Prog.wp_mono h fun r _ hr r' hr' => by cases hr'; exact hr

end RulesI

/-! ### Blocks and inodes -/

section Blocks

theorem safe_isMetadata (b : ℕ) :
    L.Safe (isMetadata b) fun bad => bad = L.base.groups.isMetadata geo b :=
  safe_mem.bind fun m hm => (safe_need (m.metadataFits b)).bind fun _ _ =>
    safe_pure (hm.isMetadata_eq b)

theorem safe_badBlock (b : ℕ) : L.Safe (badBlock b) fun bad => bad = false → L.base.DataBlock b :=
  safe_ite (fun _ => safe_pure nofun) fun hb => (safe_isMetadata b).mono fun _ hbad h =>
    ⟨not_le.mp hb, hbad.symm.trans h⟩

theorem safe_checkBlock (b : ℕ) : L.Safe (checkBlock b) fun _ => L.base.DataBlock b :=
  (safe_refuse _ _).bind fun _ hb => (safe_isMetadata b).bind fun bad hbad =>
    (safe_refuse _ _).mono fun _ h =>
      ⟨not_le.mp hb, by rw [← hbad]; exact Bool.eq_false_of_not_eq_true h⟩

theorem firstDataBlock_le {m : Mem geo} {b : ℕ} (h : m.DataBlock b) : geo.firstDataBlock ≤ b := by
  by_contra hlt
  have := (m.isMetadata_iff h.1).mpr (Or.inl (not_le.mp hlt))
  rw [h.2] at this
  cases this

theorem safe_blockGroup {b : ℕ} (h : geo.firstDataBlock ≤ b) :
    L.Safe (blockGroup b) fun loc => loc = (geo.groupOf b, geo.indexOf b) :=
  (safe_need ⟨h, geo.blocksPerGroup_pos.ne'⟩).bind fun _ _ => safe_pure rfl

theorem safe_inodeLocation {ino : ℕ} (h : geo.InoOk ino) :
    L.Safe (inodeLocation ino) fun loc => loc = L.base.location ino :=
  safe_mem.bind fun m hm => (safe_need ⟨h.1, geo.inodesPerGroup_pos.ne'⟩).bind fun _ _ =>
    (safe_need ⟨by rw [m.count_eq]; exact Geometry.inoGroup_lt h, geo.blockSize_pos.ne'⟩).bind
      fun _ _ => safe_pure (hm.location_eq ino)

theorem safe_readInode (ino : Ino) :
    L.Safe (readInode ino) fun inode => inode.ino = ino ∧ geo.InoOk ino := by
  refine (safe_refuse _ _).bind fun _ h => ?_
  have hino : geo.InoOk ino := not_not.mp h
  refine (safe_inodeLocation hino).bind fun loc hloc => ?_
  subst hloc
  refine (safe_readBlock .inodes (Mem.tableBlock_location hino)).bind fun data hdata => ?_
  have hfit : (L.base.location ino).2 + geo.inodeSize ≤ data.length := by
    rw [hdata]
    exact geo.inoByte_mod_add_le ino
  exact (safe_need ⟨hfit, geo.inodeSize_ge⟩).bind fun _ _ => safe_pure ⟨rfl, hino⟩

/-- An inode in use, as `inode` gives it. -/
structure InUse (ino : ℕ) (inode : Inode geo) : Prop where
  ino_eq : inode.ino = ino
  ino_ok : geo.InoOk inode.ino
  kind_ne : inode.kind ≠ none
  size_le : inode.size ≤ maxFileSize geo.blockSize

theorem safe_inode (ino : Ino) : L.Safe (inode ino) (InUse ino) :=
  (safe_readInode ino).bind fun _ h => (safe_refuse _ _).bind fun _ _ =>
    (safe_refuse _ _).bind fun _ hkind => (safe_refuse _ _).bind fun _ hsize =>
      safe_pure ⟨h.1, h.1.symm ▸ h.2, hkind, not_lt.mp hsize⟩

theorem safe_writeInode (hL : L.Open) {inode : Inode geo} (hstored : L.stored inode)
    (h : geo.InoOk inode.ino) :
    L.Safe (writeInode inode) fun _ => True := by
  refine (safe_inodeLocation h).bind fun loc hloc => ?_
  subst hloc
  refine (safe_writeBlock .inodes hL.inodes ⟨inode, hstored, h, rfl, rfl⟩).bind
    fun old hold => safe_need ?_
  rw [hold, inode.raw.property]
  exact geo.inoByte_mod_add_le inode.ino

theorem safe_inodeStat (ino : Ino) : L.Safe (inodeStat ino) fun _ => True :=
  (safe_inode ino).bind fun inode h => by
    rcases hk : inode.kind with _ | kind
    · exact absurd hk h.kind_ne
    · exact safe_pure trivial

end Blocks

/-! ### Allocation -/

section Allocation

variable (hL : L.Scratch)
include hL

omit hL in
theorem block_lt {g i : ℕ} (hg : g < geo.groups) (hi : i < geo.groupBlocks g) :
    geo.groupStart g + i < geo.blocksCount := by
  have := Geometry.groupStart_add_groupBlocks_le hg
  omega

theorem safe_allocBlockLoop {first index : ℕ} (hfirst : first < geo.groups) (steps : List ℕ)
    (hsteps : ∀ k ∈ steps, k < geo.groups) :
    L.Safe (allocBlockLoop first index steps) L.base.DataBlock := by
  induction steps with
  | nil => exact safe_throw _
  | cons step steps ih =>
    have hstep := hsteps step List.mem_cons_self
    have hrest := ih fun k hk => hsteps k (List.mem_cons_of_mem _ hk)
    have hle := geo.groups_le
    unfold maxGroups at hle
    refine safe_mem.bind fun m hm => (safe_need ⟨geo.groups_pos.ne', by omega⟩).bind fun _ _ => ?_
    have hg : (first + step) % geo.groups < geo.groups := Nat.mod_lt _ geo.groups_pos
    refine (safe_need (by rw [m.count_eq]; exact hg)).bind fun _ _ =>
      safe_ite (fun _ => hrest) fun _ => ?_
    refine (safe_need (Geometry.groupStart_lt hg).le).bind fun _ _ =>
      (safe_readBlock .bitmap ⟨_, hg, Or.inl (hm.blockBitmap_eq _)⟩).bind fun bits hbits => ?_
    have hfit : BitsFit (geo.groupBlocks ((first + step) % geo.groups)) bits.length := by
      rw [hbits]
      exact geo.groupBlocks_le _
    refine (safe_need hfit).bind fun _ _ => ?_
    rcases hfound : Bitmap.findZero bits _ _ with _ | i
    · exact hrest
    · have hi := (Bitmap.of_findZero hfound).1
      have hlt := block_lt hg hi
      have hpow := geo.blocksCount_lt
      refine (safe_need (by omega)).bind fun _ _ => (safe_isMetadata _).bind fun bad hbad =>
        (safe_refuse _ _).bind fun _ hok => ?_
      have hdata : L.base.DataBlock (geo.groupStart ((first + step) % geo.groups) + i) := by
        refine ⟨hlt, ?_⟩
        rw [← hbad]
        exact Bool.eq_false_of_not_eq_true hok
      refine (safe_writeBlock .bitmap hL.bitmap
        ⟨_, hg, i, Or.inl rfl, Or.inl ⟨hm.blockBitmap_eq _, hi, hdata⟩⟩).bind fun old hold => ?_
      have hfit' : BitsFit (i + 1) old.length := by
        rw [hold, ← hbits]
        exact le_trans hi hfit
      exact (safe_need hfit').bind fun _ _ =>
        (safe_setMem (hm.trans (m.same_countFreeBlocks _ _))).bind fun _ _ => safe_pure hdata

theorem safe_allocBlock (goal : ℕ) : L.Safe (allocBlock goal) L.base.DataBlock := by
  have hlt := geo.firstDataBlock_lt
  refine safe_mem.bind fun m _ => (safe_refuse _ _).bind fun _ _ =>
    (safe_need ⟨by omega, by omega⟩).bind fun _ _ =>
      (safe_blockGroup (le_max_left _ _)).bind fun loc hloc => ?_
  subst hloc
  refine safe_allocBlockLoop hL (Geometry.groupOf_lt (le_max_left _ _) ?_) _ fun k hk =>
    List.mem_range.mp hk
  omega

theorem safe_freeBlock (b : ℕ) : L.Safe (freeBlock b) fun _ => True := by
  refine (safe_badBlock b).bind fun bad hbad =>
    safe_ite (fun _ => safe_pure trivial) fun hgood => ?_
  have hdata := hbad (Bool.eq_false_of_not_eq_true hgood)
  have hfirst := firstDataBlock_le hdata
  have hg := Geometry.groupOf_lt hfirst hdata.1
  refine (safe_blockGroup hfirst).bind fun loc hloc => ?_
  subst hloc
  refine safe_mem.bind fun m hm => (safe_need (by rw [m.count_eq]; exact hg)).bind fun _ _ =>
    (safe_readBlock .bitmap ⟨_, hg, Or.inl (hm.blockBitmap_eq _)⟩).bind fun bits hbits => ?_
  have hfit : geo.indexOf b + 1 ≤ 8 * geo.blockSize :=
    le_trans (Geometry.indexOf_lt hfirst hdata.1) (geo.groupBlocks_le _)
  refine (safe_need (by rw [hbits]; exact hfit)).bind fun _ _ =>
    safe_ite (fun _ => ?_) fun _ => safe_pure trivial
  have hbit : L.base.DataBlock (geo.groupStart (geo.groupOf b) + geo.indexOf b) :=
    (Geometry.groupStart_groupOf hfirst).symm ▸ hdata
  exact (safe_writeBlock .bitmap hL.bitmap ⟨_, hg, geo.indexOf b, Or.inr rfl,
      Or.inl ⟨hm.blockBitmap_eq _, Geometry.indexOf_lt hfirst hdata.1, hbit⟩⟩).bind fun old hold =>
    (safe_need (by rw [hold]; exact hfit)).bind fun _ _ =>
      safe_setMem (hm.trans (m.same_countFreeBlocks _ _))

theorem safe_allocInodeLoop {first : ℕ} (hfirst : first < geo.groups) (dir : Bool) (steps : List ℕ)
    (hsteps : ∀ k ∈ steps, k < geo.groups) :
    L.Safe (allocInodeLoop first dir steps) geo.InoOk := by
  induction steps with
  | nil => exact safe_throw _
  | cons step steps ih =>
    have hstep := hsteps step List.mem_cons_self
    have hrest := ih fun k hk => hsteps k (List.mem_cons_of_mem _ hk)
    have hle := geo.groups_le
    unfold maxGroups at hle
    refine safe_mem.bind fun m hm => (safe_need ⟨geo.groups_pos.ne', by omega⟩).bind fun _ _ => ?_
    have hg : (first + step) % geo.groups < geo.groups := Nat.mod_lt _ geo.groups_pos
    refine (safe_need (by rw [m.count_eq]; exact hg)).bind fun _ _ =>
      safe_ite (fun _ => hrest) fun _ => ?_
    have hmul := Nat.mul_le_mul_right geo.inodesPerGroup hg.le
    rw [geo.inodes_eq] at hmul
    have hpow := geo.inodesCount_lt
    have hino := geo.firstIno_gt
    refine (safe_need ⟨by omega, by omega⟩).bind fun _ _ =>
      (safe_readBlock .bitmap ⟨_, hg, Or.inr (hm.inodeBitmap_eq _)⟩).bind fun bits hbits => ?_
    have hfit : BitsFit geo.inodesPerGroup bits.length := by
      rw [hbits]
      exact geo.inodesPerGroup_le
    refine (safe_need hfit).bind fun _ _ => ?_
    rcases hfound : Bitmap.firstZero bits _ _ with _ | i
    · exact hrest
    · have hi := (Bitmap.of_firstZero hfound).2.1
      have hok := Geometry.inoOk_of_group hg hi
      have hlt : (first + step) % geo.groups * geo.inodesPerGroup + i + 1 < 2 ^ 32 :=
        lt_of_le_of_lt hok.2 hpow
      refine (safe_writeBlock .bitmap hL.bitmap
        ⟨_, hg, i, Or.inl rfl, Or.inr ⟨hm.inodeBitmap_eq _, hi⟩⟩).bind fun old hold => ?_
      have hfit' : BitsFit (i + 1) old.length := by
        rw [hold, ← hbits]
        exact le_trans hi hfit
      exact (safe_need hfit').bind fun _ _ =>
        (safe_setMem (hm.trans (m.same_countFreeInodes _ _ _))).bind fun _ _ =>
          (safe_need hlt).bind fun _ _ => safe_pure hok

omit hL in
theorem mostFreeInodes_lt (m : Mem geo) : mostFreeInodes m < geo.groups := by
  simp only [mostFreeInodes]
  rcases hf : List.find? _ (List.range geo.groups) with _ | g
  · exact geo.groups_pos
  · exact List.mem_range.mp (List.mem_of_find?_eq_some hf)

theorem safe_allocInode {parent : ℕ} (h : geo.InoOk parent) (dir : Bool) :
    L.Safe (allocInode parent dir) geo.InoOk := by
  refine safe_mem.bind fun m _ => (safe_refuse _ _).bind fun _ _ =>
    (safe_need ⟨h.1, geo.inodesPerGroup_pos.ne'⟩).bind fun _ _ =>
      safe_allocInodeLoop hL ?_ dir _ fun k hk => List.mem_range.mp hk
  split
  · exact mostFreeInodes_lt m
  · exact Geometry.inoGroup_lt h

theorem safe_freeInode {ino : ℕ} (h : geo.InoOk ino) (dir : Bool) :
    L.Safe (freeInode ino dir) fun _ => True := by
  have hg := Geometry.inoGroup_lt h
  have hfit : geo.inoIndex ino + 1 ≤ 8 * geo.blockSize :=
    le_trans (geo.inoIndex_lt ino) geo.inodesPerGroup_le
  refine (safe_need ⟨h.1, geo.inodesPerGroup_pos.ne'⟩).bind fun _ _ => safe_mem.bind fun m hm =>
    (safe_need (by rw [m.count_eq]; exact hg)).bind fun _ _ =>
      (safe_readBlock .bitmap ⟨_, hg, Or.inr (hm.inodeBitmap_eq _)⟩).bind fun bits hbits =>
        (safe_need (by rw [hbits]; exact hfit)).bind fun _ _ =>
          safe_ite (fun _ => ?_) fun _ => safe_pure trivial
  exact (safe_writeBlock .bitmap hL.bitmap ⟨_, hg, geo.inoIndex ino, Or.inr rfl,
      Or.inr ⟨hm.inodeBitmap_eq _, geo.inoIndex_lt ino⟩⟩).bind fun old hold =>
    (safe_need (by rw [hold]; exact hfit)).bind fun _ _ =>
      safe_setMem (hm.trans (m.same_countFreeInodes _ _ _))

end Allocation

/-! ### The block map -/

section BlockMap

/-- The indices of a path lie inside an indirect block. -/
def IndicesFit (geo : Geometry) (is : List ℕ) : Prop := ∀ i ∈ is, i < geo.perBlock

theorem entry_fits {d : Bytes} {i : ℕ} (hd : d.length = geo.blockSize) (hi : i < geo.perBlock) :
    i * 4 + 4 ≤ d.length := by
  unfold Geometry.perBlock at hi
  omega

theorem of_mapPathLoop {p : ℕ} (hp : 0 < p) (depths : List ℕ) (hd : ∀ d ∈ depths, 1 ≤ d ∧ d ≤ 3) :
    ∀ {span rest : ℕ} {path : MapPath}, mapPathLoop p depths span rest = some path →
      path.slot < 15 ∧ ∀ i ∈ path.index, i < p := by
  induction depths with
  | nil => exact fun h => by cases h
  | cons d depths ih =>
    intro span rest path h
    have hd' := hd d List.mem_cons_self
    unfold mapPathLoop at h
    split at h
    · cases h
      refine ⟨?_, fun i hi => ?_⟩
      · change nDirect + d - 1 < 15
        unfold nDirect
        omega
      · obtain ⟨level, -, rfl⟩ := List.mem_map.mp hi
        exact Nat.mod_lt _ hp
    · exact ih (fun d hd' => hd d (List.mem_cons_of_mem _ hd')) h

theorem of_mapPath {lb : ℕ} {path : MapPath} (h : mapPath lb geo.perBlock = some path) :
    path.slot < 15 ∧ IndicesFit geo path.index := by
  unfold mapPath at h
  split at h
  · rename_i hlb
    cases h
    unfold nDirect at hlb
    exact ⟨by change lb < 15; omega, nofun⟩
  · exact of_mapPathLoop geo.perBlock_pos _ (by decide) h

theorem slotFits {i : ℕ} (h : i < 15) : SlotFits geo i := by
  have := geo.inodeSize_ge
  unfold SlotFits
  omega

theorem safe_bmapLoop (is : List ℕ) (his : IndicesFit geo is) :
    ∀ ptr, L.Safe (bmapLoop ptr is) fun r => ∀ b, r = some b → L.base.DataBlock b := by
  induction is with
  | nil =>
    intro ptr
    refine safe_ite (fun _ => safe_pure nofun) fun _ => (safe_checkBlock ptr).bind fun _ h =>
      safe_pure fun b hb => ?_
    cases hb
    exact h
  | cons i is ih =>
    intro ptr
    refine safe_ite (fun _ => safe_pure nofun) fun _ => (safe_checkBlock ptr).bind fun _ h =>
      (safe_readBlock .pointers h).bind fun data hdata => ?_
    exact (safe_need (entry_fits hdata (his i List.mem_cons_self))).bind fun _ _ =>
      ih (fun j hj => his j (List.mem_cons_of_mem _ hj)) _

theorem safe_bmap (inode : Inode geo) (lb : ℕ) :
    L.Safe (bmap inode lb) fun r => ∀ b, r = some b → L.base.DataBlock b := by
  unfold bmap
  split
  · exact safe_pure nofun
  · rename_i path hpath
    obtain ⟨hslot, hindex⟩ := of_mapPath hpath
    exact (safe_need (slotFits hslot)).bind fun _ _ => safe_bmapLoop _ hindex _

theorem safe_blockGoal {inode : Inode geo} (h : geo.InoOk inode.ino) (lb : ℕ) :
    L.Safe (blockGoal inode lb) fun _ => True := by
  have hprev : L.Safe (blockBefore inode lb) fun _ => True :=
    safe_ite (fun _ => (safe_bmap inode _).mono fun _ _ => trivial) fun _ => safe_pure trivial
  refine hprev.bind fun prev _ => ?_
  cases prev with
  | some b => exact safe_pure trivial
  | none =>
    have hstart := Geometry.groupStart_lt_pow (Geometry.inoGroup_lt h)
    have hfit : geo.groupStart (geo.inoGroup inode.ino) < 2 ^ 64 := by omega
    exact (safe_need ⟨h.1, geo.inodesPerGroup_pos.ne'⟩).bind fun _ _ =>
      (safe_need hfit).bind fun _ _ => safe_pure trivial

/-- A place a pointer may be written to. -/
def PlaceOk (L : Limits geo) : Place → Prop
  | .slot _ => True
  | .entry block i => L.base.DataBlock block ∧ i < geo.perBlock

theorem safe_followPath (is : List ℕ) (his : IndicesFit geo is) :
    ∀ (place : Place), PlaceOk L place → ∀ ptr,
      L.Safe (followPath place ptr is) fun r => PlaceOk L r.1 ∧ IndicesFit geo r.2.2 := by
  induction is with
  | nil => exact fun place hplace ptr => safe_pure ⟨hplace, nofun⟩
  | cons i is ih =>
    intro place hplace ptr
    have hi := his i List.mem_cons_self
    refine safe_ite (fun _ => safe_pure ⟨hplace, his⟩) fun _ =>
      (safe_checkBlock ptr).bind fun _ h =>
      (safe_readBlock .pointers h).bind fun data hdata => ?_
    exact (safe_need (entry_fits hdata hi)).bind fun _ _ =>
      ih (fun j hj => his j (List.mem_cons_of_mem _ hj)) (.entry ptr i) ⟨h, hi⟩ _

variable (hL : L.Scratch) {inode : Inode geo}
include hL

theorem safeI_enterBlock {place : Place} (h : PlaceOk L place) (b : ℕ) :
    L.SafeI (enterBlock place b) inode fun _ => True := by
  cases place with
  | slot i => exact safeI_modify (.setBlock inode i b)
  | entry block i =>
    exact (safeI_beside (safe_writeBlock .pointers hL.pointers h.1)).bind fun old _ _ hold =>
      safeI_beside (safe_need (entry_fits hold h.2))

theorem safeI_buildPath (is : List ℕ) (his : IndicesFit geo is) :
    ∀ (inode : Inode geo) (goal : ℕ) (place : Place), PlaceOk L place →
      L.SafeI (buildPath goal place is) inode L.base.DataBlock := by
  induction is with
  | nil =>
    intro inode goal place hplace
    exact (safeI_beside (safe_allocBlock hL goal)).bind fun b _ _ hb =>
      (safeI_beside (safe_zeroBlock .content hL.content ⟨hb, by simp⟩ _)).bind fun _ _ _ _ =>
        (safeI_enterBlock hL hplace b).bind fun _ _ _ _ =>
          (safeI_modify (.addBlocks _ 1)).bind fun _ _ _ _ => safeI_pure hb
  | cons i is ih =>
    intro inode goal place hplace
    exact (safeI_beside (safe_allocBlock hL goal)).bind fun b _ _ hb =>
      (safeI_beside (safe_zeroBlock .pointers hL.pointers ⟨hb, by simp⟩ _)).bind fun _ _ _ _ =>
        (safeI_enterBlock hL hplace b).bind fun _ _ _ _ =>
          (safeI_modify (.addBlocks _ 1)).bind fun _ j _ _ =>
            ih (fun k hk => his k (List.mem_cons_of_mem _ hk)) j _ _ ⟨hb, his i List.mem_cons_self⟩

theorem safeI_bmapAlloc (h : geo.InoOk inode.ino) (lb : ℕ) :
    L.SafeI (bmapAlloc lb) inode L.base.DataBlock := by
  unfold bmapAlloc
  split
  · exact safeI_throw _
  · rename_i path hpath
    obtain ⟨hslot, hindex⟩ := of_mapPath hpath
    refine (safeI_beside (safe_need (slotFits hslot))).bind fun _ j hj _ =>
      safeI_get.bind fun i j' hj' hi => ?_
    refine (safeI_beside (safe_followPath _ hindex (.slot path.slot) trivial _)).bind
      fun found j'' hj'' hfound => safeI_ite (fun _ => ?_) fun _ => ?_
    · exact (safeI_beside (safe_checkBlock _)).bind fun _ _ _ hb => safeI_pure hb
    · refine (safeI_beside safe_mem).bind fun m _ _ _ =>
        (safeI_beside (safe_refuse _ _)).bind fun _ _ _ _ => ?_
      have hino : geo.InoOk i.ino := by rw [hi.ino_eq, hj.ino_eq]; exact h
      exact (safeI_beside (safe_blockGoal hino lb)).bind fun goal k _ _ =>
        safeI_buildPath hL _ hfound.2 k goal _ hfound.1

end BlockMap

/-! ### Freeing -/

section Freeing

variable (hL : L.Scratch) {inode : Inode geo}
include hL

theorem safeI_freeOwned (b : ℕ) : L.SafeI (freeOwned b) inode fun _ => True :=
  (safeI_beside (safe_freeBlock hL b)).bind fun _ _ _ _ =>
    safeI_modify (.addBlocks _ (-1))

theorem safeI_freeEntries {freeOne : ℕ → ℕ → MI geo Bool} {block : ℕ} (hb : L.base.DataBlock block)
    (hone : ∀ i ptr (inode : Inode geo), L.SafeI (freeOne i ptr) inode fun _ => True)
    (entries : List (ℕ × ℕ)) (hfit : ∀ e ∈ entries, e.1 < geo.perBlock) :
    ∀ (inode : Inode geo) (kept : Bool),
      L.SafeI (freeEntries freeOne block entries kept) inode fun _ => True := by
  induction entries with
  | nil => exact fun _ _ => safeI_pure trivial
  | cons e entries ih =>
    intro inode kept
    obtain ⟨i, ptr⟩ := e
    have hi : i < geo.perBlock := hfit (i, ptr) List.mem_cons_self
    have hrest := ih fun e he => hfit e (List.mem_cons_of_mem _ he)
    refine safeI_ite (fun _ => hrest _ _) fun _ => (hone i ptr inode).bind fun freed _ _ _ =>
      safeI_ite (fun _ => ?_) fun _ => hrest _ _
    exact (safeI_beside (safe_writeBlock .pointers hL.pointers hb)).bind fun old _ _ hold =>
      (safeI_beside (safe_need (entry_fits hold hi))).bind fun _ _ _ _ => hrest _ _

omit hL in
theorem pointers_fit {d : Bytes} (hd : d.length = geo.blockSize) (first : ℕ) :
    ∀ e ∈ ((pointers d).zipIdx.map Prod.swap).drop first, e.1 < geo.perBlock := by
  intro e he
  obtain ⟨⟨ptr, i⟩, hmem, rfl⟩ := List.mem_map.mp (List.mem_of_mem_drop he)
  have := (List.mem_zipIdx' hmem).1
  rw [pointers, List.length_map, List.length_range, hd] at this
  exact this

theorem safeI_freeNode (level : ℕ) {freeOne : ℕ → ℕ → MI geo Bool}
    (hone : ∀ ptr start (inode : Inode geo), L.SafeI (freeOne ptr start) inode fun _ => True)
    (block start : ℕ) : L.SafeI (freeNode level freeOne block start) inode fun _ => True := by
  refine (safeI_beside (safe_badBlock block)).bind fun bad _ _ hbad =>
    safeI_ite (fun _ => safeI_pure trivial) fun hgood => ?_
  have hb := hbad (Bool.eq_false_of_not_eq_true hgood)
  refine (safeI_beside (safe_readBlock .pointers hb)).bind fun data _ _ hdata =>
    (safeI_beside (safe_need (pow_pos geo.perBlock_pos level).ne')).bind fun _ _ _ _ => ?_
  refine (safeI_freeEntries hL hb (fun i ptr inode => hone ptr _ inode) _
    (pointers_fit hdata _) _ _).bind fun kept _ _ _ =>
      safeI_ite (fun _ => safeI_pure trivial) fun _ => ?_
  exact (safeI_freeOwned hL block).bind fun _ _ _ _ => safeI_pure trivial

theorem safeI_freeTree (level : ℕ) :
    ∀ (ptr start : ℕ) (inode : Inode geo),
      L.SafeI (freeTree level ptr start) inode fun _ => True := by
  induction level with
  | zero =>
    exact fun ptr start inode => safeI_freeNode hL 0 (fun b _ j =>
      (safeI_freeOwned hL b).bind fun _ _ _ _ => safeI_pure trivial) ptr start
  | succ level ih => exact fun ptr start inode => safeI_freeNode hL _ ih ptr start

theorem safeI_freeDirect (is : List ℕ) :
    ∀ (inode : Inode geo), L.SafeI (freeDirect is) inode fun _ => True := by
  induction is with
  | nil => exact fun _ => safeI_pure trivial
  | cons i is ih =>
    intro inode
    refine safeI_get.bind fun j _ _ _ => SafeI.bind (P := fun _ => True) (safeI_onlyIf fun _ => ?_)
      fun _ k _ _ => ih k
    exact (safeI_beside (safe_freeBlock hL _)).bind fun _ _ _ _ => safeI_modify
      ((Inode.Kin.addBlocks _ (-1)).trans (.setBlock _ i 0))

theorem safeI_freeIndirect (first : ℕ) (levels : List ℕ) :
    ∀ (inode : Inode geo) (start span : ℕ),
      L.SafeI (freeIndirect first levels start span) inode fun _ => True := by
  induction levels with
  | nil => exact fun _ _ _ => safeI_pure trivial
  | cons level levels ih =>
    intro inode start span
    refine safeI_get.bind fun j _ _ _ => SafeI.bind (P := fun _ => True) (safeI_onlyIf fun _ => ?_)
      fun _ k _ _ => ih k _ _
    exact (safeI_freeTree hL level _ _ _).bind fun freed _ _ _ => safeI_onlyIf fun _ =>
      safeI_modify (.setBlock _ _ 0)

theorem safeI_freeFrom (first : ℕ) : L.SafeI (freeFrom first) inode fun _ => True :=
  (safeI_freeDirect hL _ _).bind fun _ j _ _ => safeI_freeIndirect hL first _ j _ _

theorem safe_dropEaBlock (b : ℕ) : L.Safe (dropEaBlock b) fun _ => True := by
  refine (safe_badBlock b).bind fun bad hbad =>
    safe_ite (fun _ => safe_pure trivial) fun hgood => ?_
  have hb := hbad (Bool.eq_false_of_not_eq_true hgood)
  have hsize := geo.blockSize_ge
  refine (safe_readBlock .content hb).bind fun data hdata => (safe_need (by omega)).bind fun _ _ =>
    safe_ite (fun _ => safe_pure trivial) fun _ => safe_ite (fun _ => ?_) fun _ =>
      safe_freeBlock hL b
  exact (safe_writeBlock .content hL.content hb).bind fun _ _ => safe_pure trivial

theorem safe_releaseEaBlock : L.Safe (releaseEaBlock inode) fun left => left.ino = inode.ino :=
  safe_ite (fun _ => safe_pure rfl) fun _ => (safe_dropEaBlock hL _).bind fun _ _ => safe_pure rfl

theorem safe_releaseData : L.Safe (releaseData inode) fun r => r.2.ino = inode.ino :=
  safe_ite (fun _ => (safe_handing (safeI_freeFrom hL 0)).mono fun _ h => h.1.ino_eq)
    fun _ => safe_pure rfl

theorem safe_releaseRest (freed : Except Errno Unit) :
    L.Safe (releaseRest freed inode) fun left => left.ino = inode.ino := by
  cases freed with
  | error e => exact safe_pure rfl
  | ok u => exact (safe_releaseEaBlock hL).bind fun left h => safe_pure (by simpa using h)

omit hL in
theorem safe_releaseInode (hL : L.Open) (h : geo.InoOk inode.ino) :
    L.Safe (releaseInode inode) fun _ => True := by
  refine (safe_releaseData hL.toScratch).bind fun freed hfreed =>
    (safe_releaseRest hL.toScratch freed.1).bind fun left hleft => safe_now.bind fun t _ => ?_
  have hino : ((left.setLinks 0).setDtime t).ino = inode.ino := hleft.trans hfreed
  have hlinks : ((left.setLinks 0).setDtime t).links + 1 < 2 ^ 16 := by
    rw [Inode.setDtime, Inode.links_setU32 _ _ (by omega), Inode.links_setLinks]
    decide
  exact (safe_writeInode hL (hL.stored_of_links hlinks) (by rw [hino]; exact h)).bind fun _ _ =>
    Safe.bind (P := fun _ => True) (safe_raise fun _ _ => trivial) fun _ _ =>
      safe_freeInode hL.toScratch h _

end Freeing

end Limits

end RelayOs.Ext2
