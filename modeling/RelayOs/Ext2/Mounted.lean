import RelayOs.Ext2.CacheRun
import RelayOs.Ext2.Operations

/-!
# The filesystem on its device

The driver is proved against a view of the disk, and the cache against its device. Here the two are
put together: the store of a mounted filesystem answers as the view's specification foresees
(`RelayOs.Ext2.handler_keeps`), so that mounting and every run of operations end, whatever the
device holds and whatever fails (`RelayOs.Ext2.mounted_answers`).
-/

namespace RelayOs.Ext2

open Vfs

variable {geo : Geometry}

/-! ### The store keeps the view's specification -/

namespace Store

/-- The cache is sound, and has the filesystem's blocks. -/
structure Ok (s : Store geo) : Prop where
  inv : s.cache.Inv
  size_eq : s.cache.blockSize = geo.blockSize

/-- What the driver sees of the store. -/
def view (s : Store geo) (h : s.Ok) : View geo :=
  ⟨s.mem, fun b => ⟨s.cache.view b, (h.inv.length_view b).trans h.size_eq⟩⟩

/-- **The store shows the view** to its driver. -/
def Shows (s : Store geo) (v : View geo) : Prop := ∃ h : s.Ok, s.view h = v

variable {s : Store geo} {c : BlockCache}

theorem Ok.quiet (h : s.Ok) (hq : s.cache.Quiet c) : Shows { s with cache := c } (s.view h) :=
  ⟨⟨hq.inv, hq.blockSize_eq.trans h.size_eq⟩, by simp only [view, hq.view_eq]⟩

/-- **A block is changed** from what the cache presents as `old`, or the call fails. -/
theorem Ok.edit {b : ℕ} {f : Edit} {x : Except Errno Bytes} (h : s.Ok) (old : Block geo.blockSize)
    (herr : ∀ e, x = .error e → s.cache.Quiet c)
    (hok : ∀ d, x = .ok d → d = old.val ∧ s.cache.Opens c b (f.apply d)) :
    ∃ v', (x = .ok old.val ∧ v' = (s.view h).put b (f.on old) ∨
      (True ∧ ∃ e, x = .error e) ∧ v' = s.view h) ∧ Shows { s with cache := c } v' := by
  cases x with
  | error e => exact ⟨_, Or.inr ⟨⟨trivial, e, rfl⟩, rfl⟩, h.quiet (herr e rfl)⟩
  | ok d =>
    obtain ⟨rfl, ho⟩ := hok d rfl
    refine ⟨_, Or.inl ⟨rfl, rfl⟩, ⟨ho.inv, ho.blockSize_eq.trans h.size_eq⟩, ?_⟩
    simp only [view, View.put, ho.view_eq, View.mk.injEq, true_and]
    funext b'
    refine Subtype.ext ?_
    rw [Function.update_apply]
    split <;> rfl

end Store

/-- **The store of a mounted filesystem answers** as its view does. -/
theorem handler_keeps : (handler geo).Keeps (View.spec True) Store.Shows := by
  rintro r s _ ⟨h, rfl⟩ -
  cases r with
  | read use b =>
    obtain ⟨x, c, hx, hq, hok, -⟩ := BlockCache.read_spec h.inv b
    refine ⟨x, _, _, by rw [handler, hx]; rfl, ⟨?_, rfl⟩, h.quiet hq⟩
    cases x with
    | error e => exact Or.inr ⟨trivial, e, rfl⟩
    | ok d => exact Or.inl (by rw [hok d rfl]; rfl)
  | write use b f =>
    obtain ⟨x, c, hx, herr, hok, -⟩ := BlockCache.writeWith_spec h.inv b f
    obtain ⟨v', hpost, hv'⟩ := h.edit ((s.view h).disk b) herr hok
    exact ⟨x, _, v', by rw [handler, hx]; rfl, hpost, hv'⟩
  | zeroed use b f =>
    obtain ⟨x, c, hx, herr, hok, -⟩ := BlockCache.zeroedWith_spec h.inv b f
    rw [h.size_eq] at hok
    obtain ⟨v', hpost, hv'⟩ := h.edit (View.zeros geo) herr hok
    exact ⟨x, _, v', by rw [handler, hx]; rfl, hpost, hv'⟩
  | sync =>
    obtain ⟨x, c, hx, hq, -, -⟩ := BlockCache.sync_spec h.inv
    refine ⟨x, _, _, by rw [handler, hx]; rfl, ⟨?_, rfl⟩, h.quiet hq⟩
    cases x with
    | error e => exact Or.inr ⟨trivial, e, rfl⟩
    | ok u => exact Or.inl rfl
  | mem => exact ⟨s.mem, s, _, rfl, ⟨rfl, rfl⟩, h, rfl⟩
  | setMem m => exact ⟨(), _, _, rfl, rfl, ⟨h.inv, h.size_eq⟩, rfl⟩
  | clock => exact ⟨_, _, _, rfl, rfl, ⟨h.inv, h.size_eq⟩, rfl⟩

/-- **A sound program ends**, and leaves the store in order. -/
theorem Fs.perform_spec {α : Type} {fs : Fs} (h : fs.store.Ok) {p : M fs.geo α}
    {Q : α → View fs.geo → Prop}
    (hp : View.Sound p (fs.store.view h) Q) :
    ∃ r fs', fs.perform p = some (r, fs') ∧ fs'.store.Ok := by
  obtain ⟨r, s, -, hrun, -, h', -⟩ := Prog.wp_run handler_keeps ⟨h, rfl⟩ hp
  exact ⟨r, ⟨fs.geo, s⟩, by rw [Fs.perform, hrun]; rfl, h'⟩

/-! ### Mounting -/

theorem le_divCeil_mul (n : ℕ) {d : ℕ} (hd : 0 < d) : n ≤ divCeil n d * d :=
  not_lt.mp fun h => lt_irrefl _ ((lt_divCeil hd).mpr h)

theorem readSuperblock_ends (dev : Device) : ∃ r dev', readSuperblock dev = some (r, dev') := by
  unfold readSuperblock
  split
  · exact ⟨_, _, rfl⟩
  rename_i hpos
  simp only
  split
  · exact ⟨_, _, rfl⟩
  rename_i buf dev' hread
  obtain ⟨-, rfl, hbuf⟩ := Device.read_ok hread
  have hlen : superblockSize ≤
      (buf.drop (superblockOffset - superblockOffset / dev.blockSize * dev.blockSize)).length := by
    have hstart := Nat.div_mul_le_self superblockOffset dev.blockSize
    have hstop := le_divCeil_mul (superblockOffset + superblockSize) (Nat.pos_of_ne_zero hpos)
    rw [List.length_drop, hbuf, Nat.sub_mul]
    omega
  rw [Superblock.new, dif_pos hlen]
  exact ⟨_, _, rfl⟩

theorem ends_dif {α : Type} {c : Prop} [Decidable c] {a : α} {x : ¬c → Option α}
    (h : ∀ hc, ∃ r, x hc = some r) : ∃ r, (if hc : c then some a else x hc) = some r := by
  split
  · exact ⟨a, rfl⟩
  · rename_i hc
    exact h hc

theorem Superblock.check_ends (sb : Superblock) (n : ℕ) : ∃ r, sb.check n = some r := by
  refine ends_dif fun _ => ends_dif fun _ => ends_dif fun _ => ends_dif fun hlog =>
    ends_dif fun hsize =>
    ends_dif fun _ => ends_dif fun _ => ends_dif fun _ => ends_dif fun hipg => ends_dif fun _ =>
      ends_dif fun _ => ends_dif fun _ => ends_dif fun _ => ends_dif fun _ => ?_
  -- past the refusals only the bytes of a group's inode table could overflow
  have hblock := Nat.mul_le_mul_left 1024 (Nat.pow_le_pow_right two_pos (not_lt.mp hlog))
  have hmul : sb.u32 40 * sb.u16 88 ≤ 8 * (1024 * 2 ^ 2) * (1024 * 2 ^ 2) :=
    Nat.mul_le_mul (by omega) (by omega)
  rw [if_neg (not_not.mpr (by omega))]
  exact ⟨_, rfl⟩

theorem readTable_ends (geo : Geometry) (is : List ℕ) : ∀ {c : BlockCache}, c.Inv →
    ∃ r c', readTable geo is c = some (r, c') ∧ c'.Inv ∧ c'.blockSize = c.blockSize ∧
      ∀ raw, r = .ok raw → raw.length = is.length * c.blockSize := by
  induction is with
  | nil => exact fun {c} hc => ⟨_, c, rfl, hc, rfl, by simp⟩
  | cons i is ih =>
    intro c hc
    obtain ⟨r, c1, hr, hq, hok, -⟩ := BlockCache.read_spec hc (geo.firstDataBlock + 1 + i)
    simp only [readTable, hr, Option.bind_eq_bind, Option.bind_some]
    cases r with
    | error e => exact ⟨_, c1, rfl, hq.inv, hq.blockSize_eq, by simp⟩
    | ok d =>
      obtain ⟨rest, c', hrest, hc', hsize, hlen⟩ := ih hq.inv
      simp only [hrest, Option.bind_some]
      refine ⟨_, c', rfl, hc', hsize.trans hq.blockSize_eq, fun raw hraw => ?_⟩
      cases rest with
      | error e => cases hraw
      | ok rest =>
        cases hraw
        rw [List.length_append, hlen rest rfl, hok d rfl, hc.length_view, hq.blockSize_eq,
          List.length_cons]
        ring

/-- **The group check never goes wrong** on a table with a descriptor for every group. -/
theorem checkable_of_count {t : Groups} (h : t.count = geo.groups) : t.Checkable geo := by
  intro g hg
  rw [h] at hg
  refine ⟨(Geometry.groupStart_lt hg).le, geo.superBlocks_lt g, fun e he => ?_⟩
  have hextent : e.first < 2 ^ 32 ∧ e.len < 2 ^ 32 := by
    simp only [Groups.metadata, List.mem_cons, List.not_mem_nil, or_false] at he
    rcases he with rfl | rfl | rfl | rfl
    · exact ⟨Geometry.groupStart_lt_pow hg, geo.superBlocks_lt g⟩
    · exact ⟨u32At_lt _ _, Nat.one_lt_two_pow (by decide)⟩
    · exact ⟨u32At_lt _ _, Nat.one_lt_two_pow (by decide)⟩
    · exact ⟨u32At_lt _ _, geo.inodeTableBlocks_lt⟩
  omega

theorem assemble_ends (sb : Superblock) {raw : Bytes} (readOnly : Bool) {c : BlockCache}
    (clock : ℕ → ℕ) (hc : c.Inv) (hsize : c.blockSize = geo.blockSize)
    (hraw : raw.length = geo.gdtBlocks * geo.blockSize) :
    ∃ r, assemble geo sb raw readOnly c clock = some r ∧ ∀ fs, r = .ok fs → fs.store.Ok := by
  have hcount : geo.groups * descSize ≤ raw.length := by
    rw [hraw, geo.gdtBlocks_eq]
    exact le_divCeil_mul _ geo.blockSize_pos
  unfold assemble
  rw [Groups.new, dif_pos hcount]
  dsimp only
  rw [if_neg (not_not.mpr (checkable_of_count rfl))]
  split
  · exact ⟨_, rfl, by simp⟩
  · rw [dif_pos ⟨rfl, hraw⟩]
    exact ⟨_, rfl, fun _ h => by cases h; exact ⟨hc, hsize⟩⟩

theorem sound_markMounted (v : View geo) : View.Sound markMounted v fun _ _ => True :=
  (View.sound_anything (Limits.safe_mem.bind fun m hm => Limits.safe_now.bind fun _ _ =>
    (Limits.safe_setMem (hm.trans (m.same_setSb _))).bind fun _ _ =>
      Limits.safe_flush (Limits.anything_flushing _))).mono fun _ _ _ => trivial

theorem mount_ends (dev : Device) (clock : ℕ → ℕ) (opts : MountOptions) :
    ∃ r, mount dev clock opts = some r ∧ ∀ fs, r = .ok fs → fs.store.Ok := by
  unfold mount
  simp only
  split
  · exact ⟨_, rfl, by simp⟩
  obtain ⟨r, dev', hr⟩ := readSuperblock_ends dev
  simp only [hr, Option.bind_eq_bind, Option.bind_some]
  cases r with
  | error e => exact ⟨_, rfl, by simp⟩
  | ok sb =>
    obtain ⟨r, hr⟩ := sb.check_ends (min (dev.blockCount * dev.blockSize) (2 ^ 64 - 1))
    simp only [hr, Option.bind_some]
    cases r with
    | error e => exact ⟨_, rfl, by simp⟩
    | ok geo =>
      simp only
      split
      · exact ⟨_, rfl, by simp⟩
      rename_i c hnew
      obtain ⟨hc, -, -, hsize, -⟩ := BlockCache.new_spec hnew
      obtain ⟨r, c', hr, hc', hsize', hlen⟩ := readTable_ends geo (List.range geo.gdtBlocks) hc
      simp only [hr, Option.bind_some]
      cases r with
      | error e => exact ⟨_, rfl, by simp⟩
      | ok raw =>
        obtain ⟨r, hr, hok⟩ := assemble_ends sb
            (opts.readOnly || sb.unsupportedRoCompat != 0) clock hc'
          (hsize'.trans hsize) (by rw [hlen raw rfl, List.length_range, hsize])
        simp only [hr, Option.bind_some]
        cases r with
        | error e => exact ⟨_, rfl, by simp⟩
        | ok fs =>
          simp only
          split
          · exact ⟨_, rfl, fun _ h => by cases h; exact hok fs rfl⟩
          obtain ⟨r, fs', hr, h'⟩ := fs.perform_spec (hok fs rfl) (sound_markMounted _)
          simp only [hr, Option.bind_some]
          cases r with
          | error e => exact ⟨_, rfl, by simp⟩
          | ok u => exact ⟨_, rfl, fun _ h => by cases h; exact h'⟩

/-- **No device stops the filesystem dead.** Whatever a device holds and whichever of its requests
fail, mounting it comes to an end; and if it is mounted, so does every run of operations. -/
theorem mounted_answers (dev : Device) (clock : ℕ → ℕ) (opts : MountOptions) :
    ∃ r, mount dev clock opts = some r ∧
      ∀ fs, r = .ok fs → ∀ ops, ∃ rs fs', ext2.run ops fs = some (rs, fs') := by
  obtain ⟨r, hr, hok⟩ := mount_ends dev clock opts
  refine ⟨r, hr, fun fs hfs ops => ?_⟩
  obtain ⟨rs, fs', hrun, -⟩ := ext2.run_follows (A := fun _ _ _ _ => True) (fun op h => by
    obtain ⟨x, fs', hx, h'⟩ := Fs.perform_spec h (View.sound_exec op _)
    exact ⟨x, fs', hx, h', trivial⟩) ops (hok fs hfs)
  exact ⟨rs, fs', hrun⟩

/-- A disk of 64 blocks with nothing on it but the metadata of one group. -/
def emptyDisk : Device :=
  let super := [(0, 16), (4, 64), (20, 1), (32, 8192), (40, 16), (56, 0xEF53), (76, 1),
      (84, 11), (88, 128)]
  let block i := if i = 1 then super else if i = 2 then [(0, 3), (4, 4), (8, 5)] else []
  ⟨1024, 64, fun i => sector 1024
    ((block i).foldl (fun b f => setU32 b f.1 f.2) (List.replicate 1024 0)),
    fun _ => none, 0, []⟩

example : (mount emptyDisk id ⟨false, 8192⟩).map Except.isOk = some true := by decide +kernel

end RelayOs.Ext2
