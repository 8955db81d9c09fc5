import RelayOs.Ext2.Safety

/-!
# The disk as the driver sees it

What the driver reads is what it last wrote: over the cache, a mounted filesystem is what it keeps
in memory and a plain map of blocks, `RelayOs.Ext2.View`. `RelayOs.Ext2.View.spec` says what such a
filesystem answers: a request may fail, and then nothing changed; it says nothing of the device,
the cache and when anything reaches the disk.
-/

namespace RelayOs

/-- The change made to a byte string of fixed length. -/
def Edit.on {n : ℕ} (f : Edit) (d : Block n) : Block n :=
  ⟨f.apply d.val, (f.length_apply _).trans d.property⟩

namespace Ext2

open Vfs

variable {geo : Geometry}

/-- **The request spares the metadata**: what it takes for file data is none, what it changes
in the metadata is what is kept there of a block or an inode of the filesystem, and where the
metadata is stays as it is. -/
def Mem.Grants (m : Mem geo) : Request geo → Prop
  | .read use b => m.Fits use b
  | .write use b f => m.Allows (fun _ => True) use b f
  | .zeroed use b _ => m.Overwritable use b
  | .sync => True
  | .mem => True
  | .setMem m' => m.Alike m'
  | .clock => True

/-- **A mounted filesystem as its driver sees it.** -/
structure View (geo : Geometry) where
  mem : Mem geo
  disk : ℕ → Block geo.blockSize

namespace View

/-- The view with a block replaced. -/
def put (v : View geo) (b : ℕ) (d : Block geo.blockSize) : View geo :=
  { v with disk := Function.update v.disk b d }

@[simp] theorem disk_put_self (v : View geo) (b : ℕ) (d : Block geo.blockSize) :
    (v.put b d).disk b = d :=
  Function.update_self _ _ _

theorem disk_put_of_ne {v : View geo} {b c : ℕ} (h : c ≠ b) (d : Block geo.blockSize) :
    (v.put b d).disk c = v.disk c := Function.update_of_ne h _ _

/-- A block of zeros. -/
def zeros (geo : Geometry) : Block geo.blockSize :=
  ⟨List.replicate geo.blockSize 0, List.length_replicate⟩

/-- **What is answered from a view** to requests that spare the metadata, and may fail if it is
`faulty`. -/
def spec (faulty : Prop) : Spec (sig geo) (View geo) where
  pre r v := v.mem.Grants r
  post r v x v' := match r, x with
    | .read _ b, x => (x = .ok (v.disk b).val ∨ faulty ∧ ∃ e, x = .error e) ∧ v' = v
    | .write _ b f, x => x = .ok (v.disk b).val ∧ v' = v.put b (f.on (v.disk b)) ∨
        (faulty ∧ ∃ e, x = .error e) ∧ v' = v
    | .zeroed _ b f, x => x = .ok (zeros geo).val ∧ v' = v.put b (f.on (zeros geo)) ∨
        (faulty ∧ ∃ e, x = .error e) ∧ v' = v
    | .sync, x => (x = .ok () ∨ faulty ∧ ∃ e, x = .error e) ∧ v' = v
    | .mem, m => m = v.mem ∧ v' = v
    | .setMem m, _ => v' = { v with mem := m }
    | .clock, _ => v' = v

/-! ### Stored inodes -/

/-- **Inode `ino`** as it is stored. -/
def inode (v : View geo) (ino : ℕ) : Inode geo :=
  ⟨ino, sector geo.inodeSize ((v.disk (v.mem.location ino).1).val.drop (v.mem.location ino).2)⟩

variable {v : View geo} {ino b : ℕ}

theorem location_add_le (v : View geo) (ino b : ℕ) :
    (v.mem.location ino).2 + geo.inodeSize ≤ (v.disk b).val.length := by
  rw [(v.disk b).property]
  exact geo.inoByte_mod_add_le ino

theorem raw_inode (v : View geo) (ino : ℕ) :
    (v.inode ino).raw.val = slice (v.disk (v.mem.location ino).1).val (v.mem.location ino).2
      geo.inodeSize := by
  refine fit_of_length_ge ?_
  have := v.location_add_le ino (v.mem.location ino).1
  rw [List.length_drop]
  omega

theorem inode_congr {v v' : View geo} (hmem : v.mem.Alike v'.mem)
    (h : v'.disk (v.mem.location ino).1 = v.disk (v.mem.location ino).1) :
    v'.inode ino = v.inode ino := by
  unfold inode
  rw [hmem.location_eq, h]

theorem inode_put_of_ne (hb : b ≠ (v.mem.location ino).1) (d : Block geo.blockSize) :
    (v.put b d).inode ino = v.inode ino :=
  inode_congr ⟨fun _ => rfl⟩ (disk_put_of_ne hb.symm d)

/-- The view with an inode stored. -/
def store (v : View geo) (i : Inode geo) : View geo :=
  v.put (v.mem.location i.ino).1
    ((Edit.splice (v.mem.location i.ino).2 i.raw.val).on (v.disk (v.mem.location i.ino).1))

theorem disk_store (i : Inode geo) : ((v.store i).disk (v.mem.location i.ino).1).val =
    RelayOs.splice (v.disk (v.mem.location i.ino).1).val (v.mem.location i.ino).2 i.raw.val := by
  rw [store, disk_put_self]
  rfl

/-- **What was stored is there.** -/
theorem inode_store_self (i : Inode geo) : (v.store i).inode i.ino = i := by
  have hraw : ((v.store i).inode i.ino).raw.val = i.raw.val := by
    rw [raw_inode]
    change slice ((v.store i).disk (v.mem.location i.ino).1).val (v.mem.location i.ino).2
        geo.inodeSize = _
    have hfit := v.location_add_le i.ino (v.mem.location i.ino).1
    rw [← i.raw.property] at hfit
    have hslice := slice_splice_same hfit
    rw [i.raw.property] at hslice
    rw [disk_store]
    exact hslice
  have hraw' : ((v.store i).inode i.ino).raw = i.raw := Subtype.ext hraw
  calc (v.store i).inode i.ino = ⟨i.ino, ((v.store i).inode i.ino).raw⟩ := rfl
    _ = i := by rw [hraw']

theorem location_apart {m : Mem geo} {i j : ℕ} (hi : geo.InoOk i) (hj : geo.InoOk j) (hne : i ≠ j)
    (hb : (m.location i).1 = (m.location j).1) :
    (m.location i).2 + geo.inodeSize ≤ (m.location j).2 ∨
      (m.location j).2 + geo.inodeSize ≤ (m.location i).2 := by
  have hholds : ∀ ino : ℕ, (⟨m.groups.inodeTable (geo.inoGroup ino), geo.inodeTableBlocks,
      .inodeTable⟩ :
      Groups.Extent).Holds (m.location ino).1 := fun ino => by
    have := geo.inoByte_div_lt ino
    exact ⟨Nat.le_add_right _ _, Nat.add_lt_add_left this _⟩
  have hgi := (m.of_holds (Geometry.inoGroup_lt hi) (m.mem_inodeTable _) (hholds i)).2.2.1
  have hgj := (m.of_holds (Geometry.inoGroup_lt hj) (m.mem_inodeTable _) (hholds j)).2.2.1
  have hg : geo.inoGroup i = geo.inoGroup j := by rw [← hgi, ← hgj, hb]
  refine Geometry.inoByte_disjoint hi.1 hj.1 hg ?_ hne
  change m.groups.inodeTable (geo.inoGroup i) + _ = m.groups.inodeTable (geo.inoGroup j) + _ at hb
  rw [hg] at hb
  exact Nat.add_left_cancel hb

/-- **Storing an inode leaves the others alone.** -/
theorem inode_store_of_ne {i : Inode geo} (hi : geo.InoOk i.ino) (h : geo.InoOk ino)
    (hne : ino ≠ i.ino) :
    (v.store i).inode ino = v.inode ino := by
  by_cases hb : (v.mem.location ino).1 = (v.mem.location i.ino).1
  swap
  · exact inode_put_of_ne (fun h => hb h.symm) _
  have hraw : ((v.store i).inode ino).raw.val = (v.inode ino).raw.val := by
    rw [raw_inode, raw_inode]
    change slice ((v.store i).disk (v.mem.location ino).1).val _ _ = _
    rw [hb, disk_store]
    refine slice_splice_of_disjoint _ ?_
    rw [i.raw.property]
    exact location_apart h hi hne hb
  have hraw' : ((v.store i).inode ino).raw = (v.inode ino).raw := Subtype.ext hraw
  calc (v.store i).inode ino = ⟨ino, ((v.store i).inode ino).raw⟩ := rfl
    _ = v.inode ino := by rw [hraw']; rfl

end View

/-! ### From limits to views -/

theorem Mem.Alike.fits {m m' : Mem geo} (h : m.Alike m') (use : Use) {b : ℕ} (hb : m.Fits use b) :
    m'.Fits use b := by
  have hdata : m.DataBlock b → m'.DataBlock b := fun hb => ⟨hb.1, (h.isMetadata_eq b).trans hb.2⟩
  cases use with
  | bitmap =>
    obtain ⟨g, hg, hb⟩ := hb
    exact ⟨g, hg, by rwa [h.blockBitmap_eq, h.inodeBitmap_eq]⟩
  | inodes =>
    obtain ⟨g, hg, hb⟩ := hb
    exact ⟨g, hg, by rwa [h.inodeTable_eq]⟩
  | pointers => exact hdata hb
  | content => exact hdata hb
  | superblock => exact hb
  | descriptors => exact hb

theorem Mem.Alike.allows {m m' : Mem geo} (h : m.Alike m') {stored stored' : Inode geo → Prop}
    (hstored : ∀ i, stored i → stored' i) {use : Use} {b : ℕ} {f : Edit}
    (hf : m.Allows stored use b f) :
    m'.Allows stored' use b f := by
  cases use with
  | bitmap =>
    obtain ⟨g, hg, i, hbit, hplace⟩ := hf
    refine ⟨g, hg, i, hbit, ?_⟩
    rw [h.blockBitmap_eq, h.inodeBitmap_eq]
    exact hplace.imp (fun hb => ⟨hb.1, hb.2.1, h.fits .content hb.2.2⟩) id
  | inodes =>
    obtain ⟨i, hi, hino, hb, hf⟩ := hf
    exact ⟨i, hstored i hi, hino, by rw [h.location_eq, hb], by rw [h.location_eq, hf]⟩
  | pointers => exact h.fits .pointers hf
  | content => exact h.fits .content hf
  | superblock => exact hf
  | descriptors => exact hf

namespace Limits

variable {L : Limits geo}

/-- A view within the limits. -/
structure Kept (L : Limits geo) (I : View geo → Prop) (v : View geo) : Prop where
  same : L.base.Same v.mem
  holds : I v

/-- No request within the limits destroys `I`. -/
def Keeps (L : Limits geo) (I : View geo → Prop) : Prop :=
  ∀ {v v' : View geo} {r x}, L.Kept I v → L.spec.pre r () →
    (View.spec True).post r v x v' → I v'

/-- **The view refines the specification without a state.** -/
theorem refines {I : View geo → Prop} (hI : L.Keeps I) (faulty : Prop) :
    (View.spec faulty).Refines L.spec fun _ v => L.Kept I v := by
  intro r _ v hv hpre
  have hsame := hv.same
  -- a view in which nothing fails answers like one in which something may
  have hfaulty : ∀ {x v'}, (View.spec faulty).post r v x v' →
      (View.spec True).post r v x v' := by
    intro x v' h
    cases r with
    | read use b => exact ⟨h.1.imp id fun h => ⟨trivial, h.2⟩, h.2⟩
    | write use b f => exact h.imp id fun h => ⟨⟨trivial, h.1.2⟩, h.2⟩
    | zeroed use b f => exact h.imp id fun h => ⟨⟨trivial, h.1.2⟩, h.2⟩
    | sync => exact ⟨h.1.imp id fun h => ⟨trivial, h.2⟩, h.2⟩
    | mem => exact h
    | setMem m => exact h
    | clock => exact h
  have hkept : ∀ {x v'}, (View.spec faulty).post r v x v' →
      L.base.Same v'.mem → L.Kept I v' := fun h hsame' => ⟨hsame', hI hv hpre (hfaulty h)⟩
  cases r with
  | read use b =>
    refine ⟨hsame.fits use hpre, fun x v' h => ⟨(), fun d hd => ?_, hkept h ?_⟩⟩
    · rcases h.1 with rfl | ⟨-, e, rfl⟩
      · cases hd
        exact (v.disk b).property
      · cases hd
    · rw [h.2]
      exact hsame
  | write use b f =>
    refine ⟨hsame.allows (fun _ _ => trivial) hpre.2,
      fun x v' h => ⟨(), fun d hd => ?_, hkept h ?_⟩⟩
    · rcases h with ⟨rfl, -⟩ | ⟨⟨-, e, rfl⟩, -⟩
      · cases hd
        exact (v.disk b).property
      · cases hd
    · rcases h with ⟨-, rfl⟩ | ⟨-, rfl⟩
      · exact hsame
      · exact hsame
  | zeroed use b f =>
    refine ⟨⟨hsame.fits use hpre.2.1, hpre.2.2⟩, fun x v' h => ⟨(), fun d hd => ?_, hkept h ?_⟩⟩
    · rcases h with ⟨rfl, -⟩ | ⟨⟨-, e, rfl⟩, -⟩
      · cases hd
        exact (View.zeros geo).property
      · cases hd
    · rcases h with ⟨-, rfl⟩ | ⟨-, rfl⟩
      · exact hsame
      · exact hsame
  | sync =>
    refine ⟨trivial, fun x v' h => ⟨(), trivial, hkept h ?_⟩⟩
    rw [h.2]
    exact hsame
  | mem =>
    refine ⟨trivial, fun x v' h => ⟨(), ?_, hkept h ?_⟩⟩
    · rw [h.1]
      exact hsame
    · rw [h.2]
      exact hsame
  | setMem m =>
    have halike : v.mem.Alike m := hsame.toAlike.symm.trans hpre.toAlike
    refine ⟨halike, fun x v' h => ⟨(), trivial, hkept h ?_⟩⟩
    rw [h]
    exact hpre
  | clock =>
    refine ⟨trivial, fun x v' h => ⟨(), trivial, hkept h ?_⟩⟩
    rw [h]
    exact hsame

/-- **What was shown without a state holds of a view**, and what no request within the limits
destroys is kept. -/
theorem Safe.view {α : Type} {p : M geo α} {Q : α → Prop} (h : L.Safe p Q) {I : View geo → Prop}
    (hI : L.Keeps I)
    (faulty : Prop) {v : View geo} (hv : L.Kept I v) :
    p.run.wp (View.spec faulty)
      (fun r v' => L.Kept I v' ∧ ∀ a, r = .ok a → Q a) v :=
  Prog.wp_mono (Prog.wp_refine (refines hI faulty) (s := ()) hv h) fun _ _ ⟨_, hv', hQ⟩ => ⟨hv', hQ⟩

end Limits

/-! ### What programs do to a view -/

namespace View

section Rules

variable {faulty : Prop} {v : View geo} {α : Type}

theorem wlp_mem {Q : Except Errno (Mem geo) → View geo → Prop} :
    Ext2.mem.run.wlp (spec faulty) Q v ↔ Q (.ok v.mem) v := by
  constructor
  · exact fun h => h _ _ ⟨rfl, rfl⟩
  · rintro h m v' ⟨rfl, rfl⟩
    exact h

theorem wlp_readBlock (use : Use) (b : ℕ) {Q : Except Errno Bytes → View geo → Prop} :
    (readBlock use b).run.wlp (spec faulty) Q v ↔
      Q (.ok (v.disk b).val) v ∧ (faulty → ∀ e, Q (.error e) v) := by
  constructor
  · exact fun h => ⟨h _ _ ⟨Or.inl rfl, rfl⟩, fun hf e => h _ _ ⟨Or.inr ⟨hf, e, rfl⟩, rfl⟩⟩
  · rintro ⟨hok, herror⟩ x v' ⟨rfl | ⟨hf, e, rfl⟩, rfl⟩
    · exact hok
    · exact herror hf e

theorem wlp_writeBlock (use : Use) (b : ℕ) (f : Edit) {Q : Except Errno Bytes → View geo → Prop} :
    (writeBlock use b f).run.wlp (spec faulty) Q v ↔
      Q (.ok (v.disk b).val) (v.put b (f.on (v.disk b))) ∧ (faulty → ∀ e, Q (.error e) v) := by
  constructor
  · exact fun h => ⟨h _ _ (Or.inl ⟨rfl, rfl⟩), fun hf e => h _ _ (Or.inr ⟨⟨hf, e, rfl⟩, rfl⟩)⟩
  · rintro ⟨hok, herror⟩ x v' (⟨rfl, rfl⟩ | ⟨⟨hf, e, rfl⟩, rfl⟩)
    · exact hok
    · exact herror hf e

variable {Q : Except Errno Unit → View geo → Prop}

theorem wlp_need {c : Prop} [Decidable c] :
    (need c).run.wlp (spec faulty) Q v ↔ (c → Q (.ok ()) v) := by
  change ((Prog.need c).bind _).wlp _ _ _ ↔ _
  rw [Prog.wlp_bind, Prog.wlp_need]
  rfl

theorem wlp_refuse {c : Prop} [Decidable c] {e : Errno} :
    (refuse c e).run.wlp (spec faulty) Q v ↔ (c → Q (.error e) v) ∧ (¬c → Q (.ok ()) v) := by
  rw [refuse, ← ite_prop_iff_and]
  split <;> rfl

theorem wlp_inodeLocation (ino : ℕ) {Q : Except Errno (ℕ × ℕ) → View geo → Prop}
    (h : Q (.ok (v.mem.location ino)) v) :
    (inodeLocation ino).run.wlp (spec faulty) Q v := by
  refine (Prog.wlp_except_bind _ _).mpr (wlp_mem.mpr ?_)
  refine (Prog.wlp_except_bind _ _).mpr (wlp_need.mpr fun _ => ?_)
  exact (Prog.wlp_except_bind _ _).mpr (wlp_need.mpr fun _ => h)

/-- **An inode is read as it is stored.** -/
theorem wlp_readInode (ino : Ino) {Q : Except Errno (Inode geo) → View geo → Prop}
    (hok : geo.InoOk ino → Q (.ok (v.inode ino)) v) (herror : ∀ e, Q (.error e) v) :
    (readInode ino).run.wlp (spec faulty) Q v := by
  refine (Prog.wlp_except_bind _ _).mpr (wlp_refuse.mpr ⟨fun _ => herror _, fun hino => ?_⟩)
  refine (Prog.wlp_except_bind _ _).mpr (wlp_inodeLocation ino ?_)
  refine (Prog.wlp_except_bind _ _).mpr ((wlp_readBlock _ _).mpr ⟨?_, fun _ => herror⟩)
  exact (Prog.wlp_except_bind _ _).mpr (wlp_need.mpr fun _ => hok (not_not.mp hino))

theorem wlp_inode (ino : Ino) {Q : Except Errno (Inode geo) → View geo → Prop}
    (hok : geo.InoOk ino → Q (.ok (v.inode ino)) v) (herror : ∀ e, Q (.error e) v) :
    (Ext2.inode ino).run.wlp (spec faulty) Q v := by
  refine (Prog.wlp_except_bind _ _).mpr (wlp_readInode ino (fun hino => ?_) herror)
  refine (Prog.wlp_except_bind _ _).mpr (wlp_refuse.mpr ⟨fun _ => herror _, fun _ => ?_⟩)
  refine (Prog.wlp_except_bind _ _).mpr (wlp_refuse.mpr ⟨fun _ => herror _, fun _ => ?_⟩)
  exact (Prog.wlp_except_bind _ _).mpr (wlp_refuse.mpr ⟨fun _ => herror _, fun _ => hok hino⟩)

/-- **Writing an inode stores it.** -/
theorem wlp_writeInode (i : Inode geo) (hok : Q (.ok ()) (v.store i))
    (herror : faulty → ∀ e, Q (.error e) v) : (writeInode i).run.wlp (spec faulty) Q v := by
  refine (Prog.wlp_except_bind _ _).mpr (wlp_inodeLocation i.ino ?_)
  exact (Prog.wlp_except_bind _ _).mpr
    ((wlp_writeBlock _ _ _).mpr ⟨wlp_need.mpr fun _ => hok, herror⟩)

end Rules

/-! ### Sound programs -/

section Sound

variable {α β : Type} {v : View geo}

/-- **The program is sound on the view**: whatever fails, it does not stop dead and spares the
metadata; and if it succeeds, its result and the view it leaves satisfy `Q`. -/
def Sound (p : M geo α) (v : View geo) (Q : α → View geo → Prop) : Prop :=
  p.run.wp (spec True) (fun r v' => ∀ a, r = .ok a → Q a v') v

theorem Sound.mono {p : M geo α} {P Q : α → View geo → Prop} (h : Sound p v P)
    (hPQ : ∀ a v', P a v' → Q a v') : Sound p v Q :=
  Prog.wp_mono h fun _ v' hr a ha => hPQ a v' (hr a ha)

theorem Sound.bind {P : α → View geo → Prop} {Q : β → View geo → Prop} {x : M geo α}
    {f : α → M geo β}
    (hx : Sound x v P) (hf : ∀ a v', P a v' → Sound (f a) v' Q) : Sound (x >>= f) v Q := by
  rw [Sound, Prog.wp_except_bind]
  refine Prog.wp_mono hx fun r v' hr => ?_
  cases r with
  | error e => exact fun a ha => by cases ha
  | ok a => exact hf a v' (hr a rfl)

variable {L : Limits geo} {p : M geo α} {Q : α → Prop} {I : View geo → Prop}

theorem sound_of_safe (h : L.Safe p Q) (hI : L.Keeps I) (hv : L.Kept I v) :
    Sound p v fun a v' => L.Kept I v' ∧ Q a :=
  Prog.wp_mono (h.view hI True hv) fun _ _ hr a ha => ⟨hr.1, hr.2 a ha⟩

theorem sound_of_safe_of_wlp (h : L.Safe p Q) (hI : L.Keeps I) (hv : L.Kept I v)
    {R : α → View geo → Prop}
    (hR : p.run.wlp (spec True) (fun r v' => ∀ a, r = .ok a → R a v') v) :
    Sound p v fun a v' => (L.Kept I v' ∧ Q a) ∧ R a v' :=
  Prog.wp_mono (Prog.wp_and (sound_of_safe h hI hv) hR) fun _ _ hr a ha => ⟨hr.1 a ha, hr.2 a ha⟩

end Sound

end View

end Ext2

end RelayOs
