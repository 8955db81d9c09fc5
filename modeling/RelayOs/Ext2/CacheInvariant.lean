import RelayOs.Ext2.Cache

/-!
# The invariant of the block cache

What holds of the cache between two calls, whatever the device does:

* the eviction index `lru` names the clean cached blocks, each by its tick, and no
  two blocks share a tick;
* `dirty` counts the dirty blocks;
* **a clean cached block is what the device holds** – so throwing it away loses
  nothing.
-/

namespace RelayOs.Ext2

open Vfs

/-! ### Lookups in an updated map -/

section Map

variable {β : Type} (t : Std.TreeMap ℕ β) (k a : ℕ)

theorem get_insert (v : β) : (t.insert k v)[a]? = if k = a then some v else t[a]? := by
  rw [Std.TreeMap.getElem?_insert]
  simp only [Nat.compare_eq_eq]

theorem get_erase : (t.erase k)[a]? = if k = a then none else t[a]? := by
  rw [Std.TreeMap.getElem?_erase]
  simp only [Nat.compare_eq_eq]

theorem get_insert_unique {t : Std.TreeMap ℕ ℕ} {k b : ℕ} (hkey : ∀ b', t[k]? = some b' → b' = b)
    (hval : ∀ k', t[k']? = some b → k' = k) (k' b' : ℕ) :
    (t.insert k b)[k']? = some b' ↔ (b' = b ∧ k = k') ∨ (b' ≠ b ∧ t[k']? = some b') := by
  rw [get_insert]
  by_cases hk : k = k'
  · subst hk
    rw [if_pos rfl]
    constructor
    · intro h
      cases h
      exact Or.inl ⟨rfl, rfl⟩
    · rintro (⟨rfl, -⟩ | ⟨hb, h⟩)
      · rfl
      · exact absurd (hkey b' h) hb
  · rw [if_neg hk]
    constructor
    · intro h
      refine Or.inr ⟨?_, h⟩
      rintro rfl
      exact hk (hval k' h).symm
    · rintro (⟨-, h⟩ | ⟨-, h⟩)
      · exact absurd h hk
      · exact h

theorem get_erase_unique {t : Std.TreeMap ℕ ℕ} {k b : ℕ} (hkey : ∀ b', t[k]? = some b' → b' = b)
    (hval : ∀ k', t[k']? = some b → k' = k) (k' b' : ℕ) :
    (t.erase k)[k']? = some b' ↔ b' ≠ b ∧ t[k']? = some b' := by
  rw [get_erase]
  by_cases hk : k = k'
  · subst hk
    rw [if_pos rfl]
    constructor
    · intro h
      cases h
    · rintro ⟨hb, h⟩
      exact absurd (hkey b' h) hb
  · rw [if_neg hk]
    refine ⟨fun h => ⟨?_, h⟩, fun h => h.2⟩
    rintro rfl
    exact hk (hval k' h).symm

end Map

namespace BlockCache

/-- What the device holds of filesystem block `b`. -/
def onDevice (c : BlockCache) (b : ℕ) : Bytes := c.dev.span (b * c.scale) c.scale

/-- **What the cache presents** as block `b`. -/
def view (c : BlockCache) (b : ℕ) : Bytes :=
  match c.entries[b]? with
  | some e => e.data
  | none => c.onDevice b

/-- Block `b` is cached and dirty. -/
def DirtyAt (c : BlockCache) (b : ℕ) : Prop := ∃ e, c.entries[b]? = some e ∧ e.dirty = true

/-- **The invariant of the cache**, except that the blocks in `x` may be cached clean
with something else than the device holds. -/
structure InvBut (x : ℕ → Prop) (c : BlockCache) : Prop where
  dev_pos : 0 < c.dev.blockSize
  scale_pos : 0 < c.scale
  size_eq : c.blockSize = c.scale * c.dev.blockSize
  capacity_ge : minBlocks ≤ c.capacity
  data_length : ∀ (b : ℕ) (e : Entry), c.entries[b]? = some e → e.data.length = c.blockSize
  tick_le : ∀ (b : ℕ) (e : Entry), c.entries[b]? = some e → e.tick ≤ c.tick
  tick_inj : ∀ (b b' : ℕ) (e e' : Entry), c.entries[b]? = some e → c.entries[b']? = some e' →
    e.tick = e'.tick → b = b'
  lru_iff : ∀ t b, c.lru[t]? = some b ↔
    ∃ e : Entry, c.entries[b]? = some e ∧ e.dirty = false ∧ e.tick = t
  dirty_eq : c.dirty = c.dirtyList.length
  clean : ∀ (b : ℕ) (e : Entry), ¬x b → c.entries[b]? = some e → e.dirty = false →
    e.data = c.onDevice b

/-- The invariant of the cache between two calls. -/
def Inv (c : BlockCache) : Prop := c.InvBut fun _ => False

variable {x : ℕ → Prop}

/-! ### The list of dirty blocks -/

variable {c c' : BlockCache} {b : ℕ} {e : Entry}

theorem mem_dirtyList : b ∈ c.dirtyList ↔ c.DirtyAt b := by
  simp only [dirtyList, List.mem_map, List.mem_filter, DirtyAt]
  constructor
  · rintro ⟨⟨b', e⟩, ⟨hmem, hd⟩, rfl⟩
    exact ⟨e, Std.TreeMap.mem_toList_iff_getElem?_eq_some.mp hmem, hd⟩
  · rintro ⟨e, he, hd⟩
    exact ⟨(b, e), ⟨Std.TreeMap.mem_toList_iff_getElem?_eq_some.mpr he, hd⟩, rfl⟩

theorem dirtyList_sorted (c : BlockCache) : c.dirtyList.Pairwise (· < ·) := by
  have h : c.entries.toList.Pairwise fun a b => a.1 < b.1 :=
    (Std.TreeMap.ordered_keys_toList (t := c.entries)).imp fun h => Nat.compare_eq_lt.mp h
  exact List.pairwise_map.mpr (h.filter _)

theorem dirtyList_nodup (c : BlockCache) : c.dirtyList.Nodup :=
  c.dirtyList_sorted.imp fun h => ne_of_lt h

theorem length_dirtyList_congr (h : ∀ b, c'.DirtyAt b ↔ c.DirtyAt b) :
    c'.dirtyList.length = c.dirtyList.length := by
  refine ((List.perm_ext_iff_of_nodup c'.dirtyList_nodup c.dirtyList_nodup).mpr
    fun b => ?_).length_eq
  rw [mem_dirtyList, mem_dirtyList, h]

theorem length_dirtyList_succ {k : ℕ} (hk : ¬c.DirtyAt k)
    (h : ∀ b, c'.DirtyAt b ↔ b = k ∨ c.DirtyAt b) :
    c'.dirtyList.length = c.dirtyList.length + 1 := by
  have hperm : c'.dirtyList.Perm (k :: c.dirtyList) := by
    refine (List.perm_ext_iff_of_nodup c'.dirtyList_nodup ?_).mpr fun b => ?_
    · exact List.nodup_cons.mpr ⟨fun hm => hk (mem_dirtyList.mp hm), c.dirtyList_nodup⟩
    · rw [List.mem_cons, mem_dirtyList, mem_dirtyList, h]
  exact hperm.length_eq

/-! ### Changing the device, an entry or the clock -/

/-- **The device may change behind dirty blocks**: the invariant only speaks about
the device where a block is cached clean. -/
theorem InvBut.of_dev (hc : c.InvBut x) {dev : Device} (hsize : dev.blockSize = c.dev.blockSize)
    (hdev : ∀ (b : ℕ) (e : Entry), ¬x b → c.entries[b]? = some e → e.dirty = false →
      dev.span (b * c.scale) c.scale = c.onDevice b) :
    ({ c with dev := dev } : BlockCache).InvBut x where
  dev_pos := by
    change 0 < dev.blockSize
    rw [hsize]
    exact hc.dev_pos
  scale_pos := hc.scale_pos
  size_eq := by
    change c.blockSize = c.scale * dev.blockSize
    rw [hsize]
    exact hc.size_eq
  capacity_ge := hc.capacity_ge
  data_length := hc.data_length
  tick_le := hc.tick_le
  tick_inj := hc.tick_inj
  lru_iff := hc.lru_iff
  dirty_eq := hc.dirty_eq
  clean := fun b e hx he hd => (hc.clean b e hx he hd).trans (hdev b e hx he hd).symm

/-- The cache with block `b`'s entry set to `e`, and the index and counters set to match: the shape
of every update of one block. -/
def setEntry (c : BlockCache) (b : ℕ) (e : Entry) (lru : Std.TreeMap ℕ ℕ) (tick dirty : ℕ) :
    BlockCache :=
  { c with entries := c.entries.insert b e, lru := lru, tick := tick, dirty := dirty }

section SetEntry

variable {c : BlockCache} {b : ℕ} {e : Entry} {lru : Std.TreeMap ℕ ℕ} {tick dirty : ℕ}

theorem entries_setEntry (b' : ℕ) :
    (c.setEntry b e lru tick dirty).entries[b']? = if b = b' then some e else c.entries[b']? :=
  get_insert c.entries b b' e

theorem dirtyAt_setEntry (b' : ℕ) :
    (c.setEntry b e lru tick dirty).DirtyAt b' ↔
      (b' = b ∧ e.dirty = true) ∨ (b' ≠ b ∧ c.DirtyAt b') := by
  unfold DirtyAt
  rw [entries_setEntry]
  by_cases hb : b = b'
  · subst hb
    simp
  · have hb' : b' ≠ b := fun h => hb h.symm
    simp [hb, hb']

theorem view_setEntry (b' : ℕ) :
    (c.setEntry b e lru tick dirty).view b' = if b' = b then e.data else c.view b' := by
  unfold view
  rw [entries_setEntry]
  by_cases hb : b = b'
  · subst hb
    simp
  · rw [if_neg hb, if_neg fun h => hb h.symm]
    rfl

/-- **Updating one block keeps the invariant**, if its tick is its own, the index
names it exactly when it is clean, the count is right, and a clean block is the
device's. -/
theorem InvBut.setEntry (hc : c.InvBut x) (hlen : e.data.length = c.blockSize)
    (htick : c.tick ≤ tick)
    (hetick : e.tick ≤ tick)
    (hfresh : ∀ (b' : ℕ) (e' : Entry), b' ≠ b → c.entries[b']? = some e' → e'.tick ≠ e.tick)
    (hlru : ∀ t b', lru[t]? = some b' ↔
      (b' = b ∧ e.dirty = false ∧ e.tick = t) ∨ (b' ≠ b ∧ c.lru[t]? = some b'))
    (hdirty : dirty = (c.setEntry b e lru tick dirty).dirtyList.length)
    (hclean : ¬x b → e.dirty = false → e.data = c.onDevice b) :
    (c.setEntry b e lru tick dirty).InvBut x where
  dev_pos := hc.dev_pos
  scale_pos := hc.scale_pos
  size_eq := hc.size_eq
  capacity_ge := hc.capacity_ge
  data_length := fun b' e' he' => by
    rw [entries_setEntry] at he'
    split at he'
    · cases he'
      exact hlen
    · exact hc.data_length b' e' he'
  tick_le := fun b' e' he' => by
    rw [entries_setEntry] at he'
    split at he'
    · cases he'
      exact hetick
    · exact (hc.tick_le b' e' he').trans htick
  tick_inj := fun b1 b2 e1 e2 h1 h2 heq => by
    rw [entries_setEntry] at h1 h2
    split at h1 <;> split at h2
    · exact (by assumption : b = b1).symm.trans (by assumption)
    · cases h1
      exact absurd heq.symm (hfresh b2 e2 (fun h => (by assumption : ¬b = b2) h.symm) h2)
    · cases h2
      exact absurd heq (hfresh b1 e1 (fun h => (by assumption : ¬b = b1) h.symm) h1)
    · exact hc.tick_inj b1 b2 e1 e2 h1 h2 heq
  lru_iff := fun t b' => by
    refine (hlru t b').trans ?_
    rw [entries_setEntry, hc.lru_iff]
    by_cases hb : b = b'
    · subst hb
      simp
    · have hb' : b' ≠ b := fun h => hb h.symm
      simp [hb, hb']
  dirty_eq := hdirty
  clean := fun b' e' hx he' hd' => by
    rw [entries_setEntry] at he'
    split at he'
    · rename_i hb
      subst hb
      cases he'
      exact hclean hx hd'
    · exact hc.clean b' e' hx he' hd'

end SetEntry

/-! ### Writing dirty blocks out -/

/-- What the cache presents as block `i` of the device. -/
def deviceView (c : BlockCache) (i : ℕ) : Bytes :=
  ((c.view (i / c.scale)).drop (i % c.scale * c.dev.blockSize)).take c.dev.blockSize

/-- **What the device may hold while dirty blocks are written out**: something else than
before only where a block is dirty, and on a tearing device that is then what the
cache presents there. -/
structure Reaches (c : BlockCache) (h : ℕ → Bytes) : Prop where
  outside : ∀ i, ¬c.DirtyAt (i / c.scale) → h i = c.dev.contents i
  torn : c.dev.Tears → ∀ i, h i = c.dev.contents i ∨ h i = c.deviceView i

theorem Reaches.refl (c : BlockCache) : Reaches c c.dev.contents :=
  ⟨fun _ _ => rfl, fun _ _ => Or.inl rfl⟩

/-- A write request that covers dirty blocks only. -/
structure WritesOut (c : BlockCache) (w : DeviceWrite) : Prop where
  pos : 0 < w.count
  covers : ∀ i, w.lba ≤ i → i < w.lba + w.count → c.DirtyAt (i / c.scale)
  reaches : Reaches c w.after

/-- **What a call may do to the device**: it keeps its kind, and every write request it
makes covers dirty blocks only. -/
structure DeviceSteps (c c' : BlockCache) : Prop where
  blockSize_eq : c'.blockSize = c.blockSize
  scale_eq : c'.scale = c.scale
  capacity_eq : c'.capacity = c.capacity
  devSize_eq : c'.dev.blockSize = c.dev.blockSize
  devCount_eq : c'.dev.blockCount = c.dev.blockCount
  reliable : c.dev.Reliable → c'.dev.Reliable
  tears : c.dev.Tears → c'.dev.Tears
  reaches : Reaches c c'.dev.contents
  history : ∃ new, c'.dev.history = new ++ c.dev.history ∧ ∀ w ∈ new, c.WritesOut w

/-- A call that leaves the device alone. -/
theorem DeviceSteps.of_dev_eq (hsize : c'.blockSize = c.blockSize)
    (hscale : c'.scale = c.scale) (hcap : c'.capacity = c.capacity) (hdev : c'.dev = c.dev) :
    DeviceSteps c c' where
  blockSize_eq := hsize
  scale_eq := hscale
  capacity_eq := hcap
  devSize_eq := by rw [hdev]
  devCount_eq := by rw [hdev]
  reliable := fun h => hdev ▸ h
  tears := fun h => hdev ▸ h
  reaches := hdev ▸ Reaches.refl c
  history := ⟨[], by rw [hdev]; rfl, fun w hw => by cases hw⟩

section Trans

variable {c c' c'' : BlockCache} (h : DeviceSteps c c') (hdirty : ∀ b, c'.DirtyAt b → c.DirtyAt b)
  (hview : ∀ b, c'.DirtyAt b → c'.view b = c.view b)

include h hdirty hview

/-- What is reached later is reached now, if no block becomes dirty and the dirty ones keep their
content. -/
theorem DeviceSteps.reaches_of {g : ℕ → Bytes} (hg : Reaches c' g) : Reaches c g where
  outside := fun i hi => by
    rw [hg.outside i fun hd => hi (h.scale_eq ▸ hdirty _ hd)]
    exact h.reaches.outside i hi
  torn := fun ht i => by
    by_cases hd : c'.DirtyAt (i / c'.scale)
    · rcases hg.torn (h.tears ht) i with hi | hi
      · rw [hi]
        exact h.reaches.torn ht i
      · right
        rw [hi, deviceView, deviceView, hview _ hd, h.scale_eq, h.devSize_eq]
    · rw [hg.outside i hd]
      exact h.reaches.torn ht i

theorem DeviceSteps.trans (h' : DeviceSteps c' c'') : DeviceSteps c c'' where
  blockSize_eq := h'.blockSize_eq.trans h.blockSize_eq
  scale_eq := h'.scale_eq.trans h.scale_eq
  capacity_eq := h'.capacity_eq.trans h.capacity_eq
  devSize_eq := h'.devSize_eq.trans h.devSize_eq
  devCount_eq := h'.devCount_eq.trans h.devCount_eq
  reliable := fun hd => h'.reliable (h.reliable hd)
  tears := fun hd => h'.tears (h.tears hd)
  reaches := h.reaches_of hdirty hview h'.reaches
  history := by
    obtain ⟨new, hnew, hw⟩ := h.history
    obtain ⟨new', hnew', hw'⟩ := h'.history
    refine ⟨new' ++ new, by rw [hnew', hnew, List.append_assoc], fun w hmem => ?_⟩
    rcases List.mem_append.mp hmem with hmem | hmem
    · refine ⟨(hw' w hmem).pos, fun i hi hi' => ?_, h.reaches_of hdirty hview (hw' w hmem).reaches⟩
      have hd := hdirty _ ((hw' w hmem).covers i hi hi')
      rwa [h.scale_eq] at hd
    · exact hw w hmem

end Trans

/-- **What writing dirty blocks out may do to the cache**: no cached byte changes and
blocks only get cleaner. -/
structure Cleans (c c' : BlockCache) : Prop extends DeviceSteps c c' where
  tick_eq : c'.tick = c.tick
  entry : ∀ (b : ℕ) (e : Entry), c.entries[b]? = some e →
    ∃ d, c'.entries[b]? = some { e with dirty := d } ∧ (d = true → e.dirty = true)
  absent : ∀ b : ℕ, c.entries[b]? = none → c'.entries[b]? = none

theorem block_of_lba {scale j : ℕ} (hj : j < scale) : (b * scale + j) / scale = b := by
  rw [Nat.mul_comm, Nat.mul_add_div (by omega), Nat.div_eq_of_lt hj, Nat.add_zero]

namespace Cleans

theorem refl (c : BlockCache) : Cleans c c where
  toDeviceSteps := .of_dev_eq rfl rfl rfl rfl
  tick_eq := rfl
  entry := fun _ e he => ⟨e.dirty, he, id⟩
  absent := fun _ h => h

variable {c c' c'' : BlockCache}

theorem dirtyAt_imp (h : Cleans c c') {b : ℕ} (hb : c'.DirtyAt b) : c.DirtyAt b := by
  obtain ⟨e', he', hd'⟩ := hb
  rcases hcb : c.entries[b]? with _ | e
  · rw [h.absent b hcb] at he'
    cases he'
  · obtain ⟨d, hd, himp⟩ := h.entry b e hcb
    rw [hd] at he'
    cases he'
    exact ⟨e, hcb, himp hd'⟩

/-- A block that is not dirty stays as it is on the device. -/
theorem device (h : Cleans c c') (b : ℕ) (hb : ¬c.DirtyAt b) : c'.onDevice b = c.onDevice b := by
  unfold onDevice
  rw [h.scale_eq]
  refine List.flatMap_congr fun j hj => ?_
  refine h.reaches.outside _ ?_
  rw [block_of_lba (List.mem_range.mp hj)]
  exact hb

/-- **Writing out is invisible**: the cache presents what it did before. -/
theorem view_eq (h : Cleans c c') (b : ℕ) : c'.view b = c.view b := by
  unfold view
  rcases hcb : c.entries[b]? with _ | e
  · rw [h.absent b hcb]
    refine h.device b ?_
    rintro ⟨e, he, -⟩
    rw [hcb] at he
    cases he
  · obtain ⟨d, hd, -⟩ := h.entry b e hcb
    rw [hd]

theorem trans (h : Cleans c c') (h' : Cleans c' c'') : Cleans c c'' where
  toDeviceSteps := h.toDeviceSteps.trans (fun _ => h.dirtyAt_imp) (fun b _ => h.view_eq b)
    h'.toDeviceSteps
  tick_eq := h'.tick_eq.trans h.tick_eq
  entry := fun b e he => by
    obtain ⟨d, hd, himp⟩ := h.entry b e he
    obtain ⟨d', hd', himp'⟩ := h'.entry b _ hd
    exact ⟨d', hd', fun ht => himp (himp' ht)⟩
  absent := fun b hb => h'.absent b (h.absent b hb)

end Cleans

section

variable (hc : c.InvBut x) (he : c.entries[b]? = some e)

include hc he

/-- A clean block's tick is in the index under that tick only. -/
theorem InvBut.lru_tick (t : ℕ) :
    c.lru[t]? = some b ↔ e.dirty = false ∧ e.tick = t := by
  rw [hc.lru_iff]
  constructor
  · rintro ⟨e', he', hd, ht⟩
    rw [he] at he'
    cases he'
    exact ⟨hd, ht⟩
  · rintro ⟨hd, ht⟩
    exact ⟨e, he, hd, ht⟩

/-- Two blocks never share a tick. -/
theorem InvBut.tick_ne {b' : ℕ} {e' : Entry} (hb : b' ≠ b) (he' : c.entries[b']? = some e') :
    e'.tick ≠ e.tick :=
  fun h => hb (hc.tick_inj b' b e' e he' he h)

theorem InvBut.eq_of_lru (b' : ℕ) (hl : c.lru[e.tick]? = some b') : b' = b := by
  obtain ⟨e', he', -, ht'⟩ := (hc.lru_iff _ _).mp hl
  exact hc.tick_inj b' b e' e he' he ht'

theorem markClean_spec (hd : e.dirty = true) (hdev : e.data = c.onDevice b) :
    ∃ c', c.markClean b = some c' ∧ c'.InvBut x ∧ Cleans c c' ∧ c'.dev = c.dev ∧
      ∀ b', c'.DirtyAt b' ↔ b' ≠ b ∧ c.DirtyAt b' := by
  have hmem : c.DirtyAt b := ⟨e, he, hd⟩
  have hpos : c.dirty ≠ 0 := by
    rw [hc.dirty_eq]
    exact fun h0 => List.ne_nil_of_mem (mem_dirtyList.mpr hmem) (List.eq_nil_of_length_eq_zero h0)
  have hdirtyAt : ∀ b', (c.setEntry b { e with dirty := false } (c.lru.insert e.tick b) c.tick
      (c.dirty - 1)).DirtyAt b' ↔ b' ≠ b ∧ c.DirtyAt b' := fun b' => by
    rw [dirtyAt_setEntry]
    simp
  refine ⟨c.setEntry b { e with dirty := false } (c.lru.insert e.tick b) c.tick (c.dirty - 1),
    ?_, ?_, ?_, rfl, hdirtyAt⟩
  · simp only [markClean, he, if_neg hpos]
    rfl
  · refine hc.setEntry (hc.data_length b e he) le_rfl (hc.tick_le b e he)
      (fun b' e' hb he' => hc.tick_ne (e := e) he hb he') (fun t b' => ?_) ?_ fun _ _ => hdev
    · rw [get_insert_unique (hc.eq_of_lru he) (fun t ht => ((hc.lru_tick he t).mp ht).2.symm)]
      simp
    · have hlen : c.dirtyList.length = (c.setEntry b { e with dirty := false }
          (c.lru.insert e.tick b) c.tick (c.dirty - 1)).dirtyList.length + 1 := by
        refine length_dirtyList_succ (k := b) (fun h => ((hdirtyAt b).mp h).1 rfl) fun b' => ?_
        rw [hdirtyAt]
        by_cases hb : b' = b
        · subst hb
          simp [hmem]
        · simp [hb]
      have hcount := hc.dirty_eq
      omega
  · refine ⟨.of_dev_eq rfl rfl rfl rfl, rfl, fun b' e' he' => ?_, fun b' hb' => ?_⟩
    · rw [entries_setEntry]
      by_cases hb : b = b'
      · subst hb
        rw [he] at he'
        cases he'
        exact ⟨false, if_pos rfl, nofun⟩
      · rw [if_neg hb]
        exact ⟨e'.dirty, he', id⟩
    · rw [entries_setEntry, if_neg]
      · exact hb'
      · rintro rfl
        rw [he] at hb'
        cases hb'

end

theorem foldlM_markClean_spec (run : List ℕ) :
    ∀ {c : BlockCache}, c.InvBut x → run.Nodup →
      (∀ b ∈ run, c.DirtyAt b ∧ c.view b = c.onDevice b) →
      ∃ c', run.foldlM markClean c = some c' ∧ c'.InvBut x ∧ Cleans c c' ∧ c'.dev = c.dev ∧
        ∀ b', c'.DirtyAt b' ↔ b' ∉ run ∧ c.DirtyAt b' := by
  induction run with
  | nil =>
    intro c hc _ _
    exact ⟨c, rfl, hc, Cleans.refl c, rfl, fun b' => by simp⟩
  | cons b rest ih =>
    intro c hc hnd hrun
    obtain ⟨hb, hnd'⟩ := List.nodup_cons.mp hnd
    obtain ⟨⟨e, he, hd⟩, hv⟩ := hrun b List.mem_cons_self
    have hdata : e.data = c.onDevice b := by
      rw [← hv, view, he]
    obtain ⟨c1, h1, hc1, hf1, hdev1, hdirty1⟩ := markClean_spec hc he hd hdata
    have hrest : ∀ b' ∈ rest, c1.DirtyAt b' ∧ c1.view b' = c1.onDevice b' := fun b' hb' => by
      obtain ⟨hd', hv'⟩ := hrun b' (List.mem_cons_of_mem b hb')
      refine ⟨(hdirty1 b').mpr ⟨fun h => hb (h ▸ hb'), hd'⟩, ?_⟩
      rw [hf1.view_eq, hv', onDevice, onDevice, hdev1, hf1.scale_eq]
    obtain ⟨c2, h2, hc2, hf2, hdev2, hdirty2⟩ := ih hc1 hnd' hrest
    refine ⟨c2, ?_, hc2, hf1.trans hf2, hdev2.trans hdev1, fun b' => ?_⟩
    · rw [List.foldlM_cons, h1]
      exact h2
    · rw [hdirty2, hdirty1, List.mem_cons, not_or]
      tauto

/-! ### A run on the device -/

theorem mapM_data (run : List ℕ) (h : ∀ b ∈ run, c.DirtyAt b) :
    run.mapM (fun b => (c.entries[b]?).map Entry.data) = some (run.map c.view) := by
  induction run with
  | nil => rfl
  | cons b rest ih =>
    obtain ⟨e, he, -⟩ := h b List.mem_cons_self
    rw [List.mapM_cons, ih fun b' hb' => h b' (List.mem_cons_of_mem b hb')]
    simp [he, view]

/-- The blocks of a run are all of the cache's block size. -/
theorem InvBut.length_view (hc : c.InvBut x) (b : ℕ) : (c.view b).length = c.blockSize := by
  unfold view
  rcases hb : c.entries[b]? with _ | e
  · simp only [onDevice, Device.length_span, hc.size_eq]
  · exact hc.data_length b e hb

theorem InvBut.length_flatten (hc : c.InvBut x) (run : List ℕ) :
    (run.map c.view).flatten.length = run.length * c.scale * c.dev.blockSize := by
  induction run with
  | nil => simp
  | cons b rest ih =>
    rw [List.map_cons, List.flatten_cons, List.length_append, ih, hc.length_view, hc.size_eq,
      List.length_cons]
    ring

theorem InvBut.flatten_block (hc : c.InvBut x) (run : List ℕ) (k : ℕ) (hk : k < run.length) :
    ((run.map c.view).flatten.drop (k * c.blockSize)).take c.blockSize = c.view run[k] := by
  induction run generalizing k with
  | nil => simp at hk
  | cons b rest ih =>
    rw [List.map_cons, List.flatten_cons]
    cases k with
    | zero =>
      have hlen := hc.length_view b
      simp only [Nat.zero_mul, List.drop_zero, List.getElem_cons_zero]
      rw [← hlen, List.take_left]
    | succ k =>
      have hlen := hc.length_view b
      have hdrop : (k + 1) * c.blockSize = (c.view b).length + k * c.blockSize := by
        rw [hlen, Nat.succ_mul, Nat.add_comm]
      rw [hdrop, List.drop_length_add_append, ih k (by simpa using hk)]
      rfl

/-- The write request `w` covers filesystem block `b` and went through. -/
def Reached (c : BlockCache) (w : DeviceWrite) (b : ℕ) : Prop :=
  w.ok = true ∧ w.lba ≤ b * c.scale ∧ b * c.scale + c.scale ≤ w.lba + w.count

/-- **A dirty block stays dirty** until a device write of it goes through. -/
def Kept (c c' : BlockCache) : Prop :=
  ∃ new, c'.dev.history = new ++ c.dev.history ∧
    ∀ b, c.DirtyAt b → c'.DirtyAt b ∨ ∃ w ∈ new, c.Reached w b

theorem Kept.of_dev_eq (hdev : c'.dev = c.dev) (h : ∀ b, c.DirtyAt b → c'.DirtyAt b) : Kept c c' :=
  ⟨[], by rw [hdev]; rfl, fun b hb => Or.inl (h b hb)⟩

theorem Kept.trans {c'' : BlockCache} (h : Kept c c') (h' : Kept c' c'')
    (hscale : c'.scale = c.scale) : Kept c c'' := by
  obtain ⟨new, hnew, hkept⟩ := h
  obtain ⟨new', hnew', hkept'⟩ := h'
  refine ⟨new' ++ new, by rw [hnew', hnew, List.append_assoc], fun b hb => ?_⟩
  rcases hkept b hb with hb' | ⟨w, hw, hreach⟩
  · rcases hkept' b hb' with hb'' | ⟨w, hw, hreach⟩
    · exact Or.inl hb''
    · rw [Reached, hscale] at hreach
      exact Or.inr ⟨w, List.mem_append_left _ hw, hreach⟩
  · exact Or.inr ⟨w, List.mem_append_right _ hw, hreach⟩

/-- **What writing dirty blocks out does**: `RelayOs.Ext2.BlockCache.Cleans`, where a
block only gets clean because the device took it. -/
structure Flushes (c c' : BlockCache) : Prop extends Cleans c c' where
  kept : Kept c c'

theorem Flushes.refl (c : BlockCache) : Flushes c c :=
  ⟨Cleans.refl c, Kept.of_dev_eq rfl fun _ h => h⟩

theorem Flushes.trans {c'' : BlockCache} (h : Flushes c c') (h' : Flushes c' c'') : Flushes c c'' :=
  ⟨h.toCleans.trans h'.toCleans, h.kept.trans h'.kept h.scale_eq⟩

/-- Block `b` lies inside the device. -/
def Fits (c : BlockCache) (b : ℕ) : Prop :=
  b * c.scale + c.scale ≤ c.dev.blockCount ∧ c.dev.blockCount < 2 ^ 64

theorem Cleans.fits (h : Cleans c c') (hb : c.Fits b) : c'.Fits b := by
  rw [Fits, h.scale_eq, h.devCount_eq]
  exact hb

section

variable (hc : c.InvBut x)

include hc

theorem mem_run_iff (first len i : ℕ) :
    (first * c.scale ≤ i ∧ i < first * c.scale + len * c.scale) ↔
      i / c.scale ∈ List.range' first len := by
  rw [List.mem_range'_1, Nat.le_div_iff_mul_le hc.scale_pos, Nat.div_lt_iff_lt_mul hc.scale_pos,
    Nat.add_mul]

theorem InvBut.run_sector {first len i : ℕ}
    (hi : i / c.scale ∈ List.range' first len) :
    fit c.dev.blockSize ((((List.range' first len).map c.view).flatten).drop
      ((i - first * c.scale) * c.dev.blockSize)) = c.deviceView i := by
  rw [List.mem_range'_1] at hi
  obtain ⟨k, hk⟩ := Nat.exists_eq_add_of_le hi.1
  have hklen : k < len := by omega
  have hmod : i % c.scale < c.scale := Nat.mod_lt _ hc.scale_pos
  have hidx : i - first * c.scale = k * c.scale + i % c.scale := by
    have hdiv := Nat.div_add_mod i c.scale
    rw [hk, Nat.mul_comm, Nat.add_mul] at hdiv
    omega
  have hoff : (i - first * c.scale) * c.dev.blockSize =
      k * c.blockSize + i % c.scale * c.dev.blockSize := by
    rw [hidx, hc.size_eq]
    ring
  have hblock := hc.flatten_block (List.range' first len) k (by simpa using hklen)
  rw [List.getElem_range', Nat.one_mul, ← hk] at hblock
  have hin : i % c.scale * c.dev.blockSize + c.dev.blockSize ≤ c.blockSize := by
    rw [hc.size_eq, ← Nat.succ_mul]
    exact Nat.mul_le_mul_right _ hmod
  have hlen : (((List.range' first len).map c.view).flatten.drop (k * c.blockSize)).length ≥
      c.blockSize := by
    have := congrArg List.length hblock
    rw [List.length_take, hc.length_view] at this
    omega
  rw [hoff, ← List.drop_drop, fit_of_length_ge, deviceView, ← hblock, List.drop_take,
    List.take_take, Nat.min_eq_left]
  · omega
  · rw [List.length_drop]
    omega

theorem cleans_write (first len : ℕ) (hlen : 0 < len)
    (hrun : ∀ b ∈ List.range' first len, c.DirtyAt b) :
    Cleans c { c with
      dev := (c.dev.write (first * c.scale) ((List.range' first len).map c.view).flatten).2 } := by
  set buf := ((List.range' first len).map c.view).flatten with hbuf
  have hn : buf.length / c.dev.blockSize = len * c.scale := by
    rw [hbuf, hc.length_flatten, List.length_range', Nat.mul_div_cancel _ hc.dev_pos]
  have hreach : Reaches c (c.dev.write (first * c.scale) buf).2.contents := by
    refine ⟨fun i hi => ?_, fun ht i => ?_⟩
    · refine c.dev.write_outside _ _ ?_
      have hnot : ¬(first * c.scale ≤ i ∧ i < first * c.scale + len * c.scale) :=
        fun h => hi (hrun _ ((mem_run_iff hc first len i).mp h))
      rw [hn]
      omega
    · rcases Device.write_torn ht (first * c.scale) buf i with h | ⟨hge, hlt, h⟩
      · exact Or.inl h
      · rw [hn] at hlt
        exact Or.inr (h.trans (hc.run_sector ((mem_run_iff hc first len i).mp ⟨hge, hlt⟩)))
  exact
    { blockSize_eq := rfl
      scale_eq := rfl
      capacity_eq := rfl
      tick_eq := rfl
      devSize_eq := c.dev.write_blockSize _ _
      devCount_eq := c.dev.write_blockCount _ _
      reliable := fun h => Device.write_reliable h _ _
      tears := fun h => Device.write_tears h _ _
      entry := fun _ e he => ⟨e.dirty, he, id⟩
      absent := fun _ h => h
      reaches := hreach
      history := by
        refine ⟨[_], c.dev.write_history _ _, fun w hw => ?_⟩
        obtain rfl := List.mem_singleton.mp hw
        refine ⟨?_, fun i hi hi' => hrun _ ((mem_run_iff hc first len i).mp ⟨hi, ?_⟩), hreach⟩
        · rw [hn]
          exact Nat.mul_pos hlen hc.scale_pos
        · rwa [← hn] }

/-- **A run written to the device** is there. -/
theorem onDevice_of_write_ok (first len : ℕ) {dev : Device}
    (hw : c.dev.write (first * c.scale) ((List.range' first len).map c.view).flatten =
      (.ok (), dev)) (hb : b ∈ List.range' first len) :
    dev.span (b * c.scale) c.scale = c.view b := by
  have hlen := hc.length_flatten (List.range' first len)
  rw [List.length_range'] at hlen
  have hn : ((List.range' first len).map c.view).flatten.length / c.dev.blockSize =
      len * c.scale := by
    rw [hlen, Nat.mul_div_cancel _ hc.dev_pos]
  unfold Device.write at hw
  simp only [hn] at hw
  split at hw
  · cases hw
  split at hw
  · cases hw
  cases hw
  rw [List.mem_range'_1] at hb
  obtain ⟨k, rfl⟩ := Nat.exists_eq_add_of_le hb.1
  have hk : k < len := by omega
  have hoff : (first + k) * c.scale = first * c.scale + k * c.scale := by ring
  have hover := Device.span_overlay c.dev (first * c.scale) (len * c.scale)
    (k * c.scale) c.scale hlen (by
      calc k * c.scale + c.scale = (k + 1) * c.scale := by ring
        _ ≤ len * c.scale := Nat.mul_le_mul_right _ hk)
  rw [hoff]
  refine hover.trans ?_
  have hblock := hc.flatten_block (List.range' first len) k (by simpa using hk)
  rw [List.getElem_range', Nat.one_mul] at hblock
  rw [← hblock, hc.size_eq, Nat.mul_assoc]

theorem InvBut.covers_run {first len : ℕ} (hb : b ∈ List.range' first len) :
    first * c.scale ≤ b * c.scale ∧ b * c.scale + c.scale ≤ first * c.scale +
      ((List.range' first len).map c.view).flatten.length / c.dev.blockSize := by
  rw [List.mem_range'_1] at hb
  rw [hc.length_flatten, List.length_range', Nat.mul_div_cancel _ hc.dev_pos, ← Nat.add_mul,
    ← Nat.succ_mul]
  exact ⟨Nat.mul_le_mul_right _ hb.1, Nat.mul_le_mul_right _ hb.2⟩

theorem write_run_ok (first len : ℕ) (hlen : 0 < len)
    (hrel : c.dev.Reliable) (hfit : ∀ b ∈ List.range' first len, c.Fits b) :
    (c.dev.write (first * c.scale) ((List.range' first len).map c.view).flatten).1 = .ok () := by
  obtain ⟨hlast, hcount⟩ := hfit (first + (len - 1)) (by
    rw [List.mem_range'_1]
    omega)
  refine Device.write_ok hrel ?_
  rw [hc.length_flatten, List.length_range']
  refine Device.checkRequest_of_le hc.dev_pos hcount ?_
  calc first * c.scale + len * c.scale = (first + (len - 1) + 1) * c.scale := by
        rw [← Nat.add_mul]
        congr 1
        omega
    _ ≤ c.dev.blockCount := by
        rw [Nat.succ_mul]
        exact hlast

/-- **`write_run`**: on success the run is clean and on the device; on failure every
block of it is still cached and dirty. -/
theorem writeRun_spec (first len : ℕ) (hlen : 0 < len)
    (hrun : ∀ b ∈ List.range' first len, c.DirtyAt b) :
    ∃ r c', c.writeRun (List.range' first len) = some (r, c') ∧ c'.InvBut x ∧ Flushes c c' ∧
      (r = .ok () → ∀ b, c'.DirtyAt b ↔ b ∉ List.range' first len ∧ c.DirtyAt b) ∧
      (∀ e, r = .error e → ∀ b, c'.DirtyAt b ↔ c.DirtyAt b) ∧
      (c.dev.Reliable → (∀ b ∈ List.range' first len, c.Fits b) → r = .ok ()) := by
  obtain ⟨n, rfl⟩ : ∃ n, len = n + 1 := ⟨len - 1, by omega⟩
  have hcons : List.range' first (n + 1) = first :: List.range' (first + 1) n :=
    List.range'_succ
  unfold writeRun
  rw [hcons]
  simp only [lba]
  rw [← hcons]
  by_cases hlba : first * c.scale < 2 ^ 64
  swap
  · rw [if_neg hlba]
    refine ⟨_, c, rfl, hc, Flushes.refl c, nofun, fun _ _ b => Iff.rfl, fun _ hfit => ?_⟩
    obtain ⟨hle, hcount⟩ := hfit first (by simp [hcons])
    omega
  rw [if_pos hlba]
  simp only [mapM_data _ hrun, Option.bind_eq_bind, Option.bind_some]
  have hflush := cleans_write hc first (n + 1) hlen hrun
  have hhist := c.dev.write_history (first * c.scale)
      ((List.range' first (n + 1)).map c.view).flatten
  have hok := write_run_ok hc first (n + 1) hlen
  rcases hw : c.dev.write (first * c.scale) ((List.range' first (n + 1)).map c.view).flatten with
    ⟨r, dev⟩
  rw [hw] at hflush hok hhist
  have hinv : ({ c with dev := dev } : BlockCache).InvBut x :=
    hc.of_dev hflush.devSize_eq fun b e _ he hd => hflush.device b (by
      rintro ⟨e', he', hd'⟩
      rw [he] at he'
      cases he'
      rw [hd] at hd'
      cases hd')
  cases r with
  | error e =>
    refine ⟨_, _, rfl, hinv, ⟨hflush, [_], hhist, fun b hb => Or.inl hb⟩, nofun,
      fun _ _ b => Iff.rfl, fun hrel hfit => ?_⟩
    cases hok hrel hfit
  | ok u =>
    have hclean : ∀ b ∈ List.range' first (n + 1),
        ({ c with dev := dev } : BlockCache).DirtyAt b ∧
          ({ c with dev := dev } : BlockCache).view b =
            ({ c with dev := dev } : BlockCache).onDevice b := fun b hb =>
      ⟨hrun b hb, (hflush.view_eq b).trans (onDevice_of_write_ok hc first (n + 1) hw hb).symm⟩
    obtain ⟨c', hfold, hc', hf', hdev', hdirty⟩ :=
      foldlM_markClean_spec _ hinv List.nodup_range' hclean
    simp only [hfold, Option.bind_some]
    refine ⟨_, c', rfl, hc', ⟨hflush.trans hf', [_], by rw [hdev']; exact hhist, fun b hb => ?_⟩,
      fun _ b => hdirty b, nofun, fun _ _ => rfl⟩
    by_cases hmem : b ∈ List.range' first (n + 1)
    · exact Or.inr ⟨_, List.mem_singleton_self _, rfl, hc.covers_run hmem⟩
    · exact Or.inl ((hdirty b).mpr ⟨hmem, hb⟩)

end

theorem retry_spec (run : List ℕ) :
    ∀ {c : BlockCache} (result : Except Errno Unit), c.InvBut x → run.Nodup →
      (∀ b ∈ run, c.DirtyAt b) →
      ∃ r c', retry result run c = some (r, c') ∧ c'.InvBut x ∧ Flushes c c' ∧
        (∀ b, b ∉ run → (c'.DirtyAt b ↔ c.DirtyAt b)) ∧
        (r = .ok () → result = .ok () ∧ ∀ b ∈ run, ¬c'.DirtyAt b) := by
  induction run with
  | nil =>
    intro c result hc _ _
    exact ⟨result, c, rfl, hc, Flushes.refl c, fun b _ => Iff.rfl,
      fun h => ⟨h, fun b hb => by cases hb⟩⟩
  | cons b rest ih =>
    intro c result hc hnd hrun
    obtain ⟨hb, hnd'⟩ := List.nodup_cons.mp hnd
    obtain ⟨r1, c1, h1, hc1, hf1, hok1, herr1, -⟩ := writeRun_spec hc b 1
      Nat.one_pos (fun b' hb' => by
        have : b' = b := by simpa using hb'
        exact this ▸ hrun b List.mem_cons_self)
    have hone : List.range' b 1 = [b] := rfl
    rw [hone] at h1 hok1
    -- the blocks still to come are as dirty as they were
    have hsame : ∀ b', b' ≠ b → (c1.DirtyAt b' ↔ c.DirtyAt b') := fun b' hne => by
      cases r1 with
      | ok u => rw [hok1 rfl]; simp [hne]
      | error e => exact herr1 e rfl b'
    have hrest : ∀ b' ∈ rest, c1.DirtyAt b' := fun b' hb' =>
      (hsame b' fun h => hb (h ▸ hb')).mpr (hrun b' (List.mem_cons_of_mem b hb'))
    obtain ⟨r2, c2, h2, hc2, hf2, hother2, hok2⟩ :=
      ih (match r1 with | .ok () => result | .error _ => .error Errno.EIO) hc1 hnd' hrest
    refine ⟨r2, c2, ?_, hc2, hf1.trans hf2, fun b' hb' => ?_, fun h => ?_⟩
    · cases r1 <;> simpa only [retry, h1, Option.bind_eq_bind, Option.bind_some] using h2
    · rw [List.mem_cons, not_or] at hb'
      rw [hother2 b' hb'.2, hsame b' hb'.1]
    · obtain ⟨hres, hclean⟩ := hok2 h
      cases r1 with
      | error e => cases hres
      | ok u =>
        refine ⟨hres, fun b' hb' => ?_⟩
        rcases List.mem_cons.mp hb' with rfl | hb'
        · rw [hother2 b' hb, hok1 rfl]
          simp
        · exact hclean b' hb'

/-! ### Writing everything back -/

theorem take_runLen (room want : ℕ) (rest : List ℕ) :
    rest.take (runLen room want rest) = List.range' want (runLen room want rest) := by
  induction room generalizing want rest with
  | zero => cases rest <;> simp [runLen]
  | succ room ih =>
    cases rest with
    | nil => simp [runLen]
    | cons b rest =>
      by_cases hb : b = want
      · subst hb
        simp only [runLen, if_true]
        rw [Nat.add_comm 1, List.take_succ_cons, ih, List.range'_succ]
      · simp [runLen, hb]

theorem writeBackLoop_spec (turns : ℕ) :
    ∀ {c : BlockCache} (result : Except Errno Unit) (rest : List ℕ), c.InvBut x →
      rest.length ≤ turns → rest.Pairwise (· < ·) → (∀ b ∈ rest, c.DirtyAt b) →
      ∃ r c', writeBackLoop turns result rest c = some (r, c') ∧ c'.InvBut x ∧ Flushes c c' ∧
        (∀ b, b ∉ rest → (c'.DirtyAt b ↔ c.DirtyAt b)) ∧
        (r = .ok () → result = .ok () ∧ ∀ b ∈ rest, ¬c'.DirtyAt b) ∧
        (c.dev.Reliable → (∀ b ∈ rest, c.Fits b) → r = result) := by
  induction turns with
  | zero =>
    intro c result rest hc hlen _ _
    obtain rfl : rest = [] := List.eq_nil_of_length_eq_zero (by omega)
    exact ⟨result, c, rfl, hc, Flushes.refl c, fun b _ => Iff.rfl,
      fun h => ⟨h, fun b hb => by cases hb⟩, fun _ _ => rfl⟩
  | succ turns ih =>
    intro c result rest hc hlen hsorted hdirty
    cases rest with
    | nil =>
      exact ⟨result, c, by simp [writeBackLoop], hc, Flushes.refl c, fun b _ => Iff.rfl,
        fun h => ⟨h, fun b hb => by cases hb⟩, fun _ _ => rfl⟩
    | cons first tail =>
      -- the run taken now, and what it leaves
      set k := runLen (max (maxWrite / c.blockSize) 1 - 1) (first + 1) tail with hk
      have htake : (first :: tail).take (1 + k) = List.range' first (1 + k) := by
        rw [Nat.add_comm 1, List.take_succ_cons, take_runLen, ← hk, List.range'_succ]
      have hsplit : first :: tail = List.range' first (1 + k) ++ (first :: tail).drop (1 + k) := by
        rw [← htake, List.take_append_drop]
      have hrunmem : ∀ b ∈ List.range' first (1 + k), b ∈ first :: tail := fun b hb => by
        rw [hsplit]
        exact List.mem_append_left _ hb
      have hrestmem : ∀ b ∈ (first :: tail).drop (1 + k), b ∈ first :: tail := fun b hb =>
        List.mem_of_mem_drop hb
      have hdisj : ∀ b ∈ (first :: tail).drop (1 + k), b ∉ List.range' first (1 + k) := by
        intro b hb hb'
        have hnd := hsorted
        rw [hsplit, List.pairwise_append] at hnd
        exact lt_irrefl b (hnd.2.2 b hb' b hb)
      have hsorted' : ((first :: tail).drop (1 + k)).Pairwise (· < ·) :=
        hsorted.sublist (List.drop_sublist _ _)
      have hlen' : ((first :: tail).drop (1 + k)).length ≤ turns := by
        rw [List.length_drop]
        omega
      have hnotin : ∀ b, b ∉ first :: tail →
          b ∉ List.range' first (1 + k) ∧ b ∉ (first :: tail).drop (1 + k) := fun b hb =>
        ⟨fun h => hb (hrunmem b h), fun h => hb (hrestmem b h)⟩
      -- whatever happened to the run, the rest of the loop goes on from there
      have hgo : ∀ {c1 : BlockCache} (result1 : Except Errno Unit), c1.InvBut x → Flushes c c1 →
          (∀ b, b ∉ List.range' first (1 + k) → (c1.DirtyAt b ↔ c.DirtyAt b)) →
          (result1 = .ok () → result = .ok () ∧
            ∀ b ∈ List.range' first (1 + k), ¬c1.DirtyAt b) →
          (c.dev.Reliable → (∀ b ∈ first :: tail, c.Fits b) → result1 = result) →
          ∃ r c', writeBackLoop turns result1 ((first :: tail).drop (1 + k)) c1 = some (r, c') ∧
            c'.InvBut x ∧ Flushes c c' ∧ (∀ b, b ∉ first :: tail → (c'.DirtyAt b ↔ c.DirtyAt b)) ∧
            (r = .ok () → result = .ok () ∧ ∀ b ∈ first :: tail, ¬c'.DirtyAt b) ∧
            (c.dev.Reliable → (∀ b ∈ first :: tail, c.Fits b) → r = result) := by
        intro c1 result1 hc1 hf1 hother1 hok1 hrel1
        obtain ⟨r, c', hloop, hc', hf', hother', hok', hrel'⟩ := ih result1 _ hc1 hlen' hsorted'
          fun b hb => (hother1 b (hdisj b hb)).mpr (hdirty b (hrestmem b hb))
        refine ⟨r, c', hloop, hc', hf1.trans hf', fun b hb => ?_, fun h => ?_, fun hrel hfit => ?_⟩
        · rw [hother' b (hnotin b hb).2, hother1 b (hnotin b hb).1]
        · obtain ⟨hres, hclean⟩ := hok' h
          refine ⟨(hok1 hres).1, fun b hb => ?_⟩
          rw [hsplit, List.mem_append] at hb
          rcases hb with hb | hb
          · rw [hother' b fun h' => hdisj b h' hb]
            exact (hok1 hres).2 b hb
          · exact hclean b hb
        · rw [hrel' (hf1.reliable hrel) fun b hb => hf1.fits (hfit b (hrestmem b hb)),
            hrel1 hrel hfit]
      obtain ⟨r1, c1, h1, hc1, hf1, hok1, herr1, hrel1⟩ := writeRun_spec hc first (1 + k) (by omega)
        fun b hb => hdirty b (hrunmem b hb)
      simp only [writeBackLoop, ← hk, htake, h1, Option.bind_eq_bind, Option.bind_some]
      cases r1 with
      | ok u =>
        refine hgo result hc1 hf1 (fun b hb => ?_) (fun h => ⟨h, fun b hb => ?_⟩) fun _ _ => rfl
        · rw [hok1 rfl]
          exact and_iff_right hb
        · rw [hok1 rfl]
          exact fun h' => h'.1 hb
      | error e =>
        have hfails : c.dev.Reliable → ¬∀ b ∈ first :: tail, c.Fits b := fun hrel hfit => by
          cases hrel1 hrel fun b hb => hfit b (hrunmem b hb)
        by_cases hone : (List.range' first (1 + k)).length = 1
        · simp only [if_pos hone]
          exact hgo (.error Errno.EIO) hc1 hf1 (fun b _ => herr1 e rfl b) nofun
            fun hrel hfit => absurd hfit (hfails hrel)
        · simp only [if_neg hone]
          obtain ⟨r2, c2, h2, hc2, hf2, hother2, hok2⟩ := retry_spec (List.range' first (1 + k))
            result hc1 List.nodup_range'
            fun b hb => (herr1 e rfl b).mpr (hdirty b (hrunmem b hb))
          simp only [h2, Option.bind_some]
          refine hgo r2 hc2 (hf1.trans hf2) (fun b hb => ?_) hok2
            fun hrel hfit => absurd hfit (hfails hrel)
          rw [hother2 b hb, herr1 e rfl]

/-- **`write_back`**: it presents the same blocks, and if it succeeds – as it does on a
reliable device – nothing is dirty any more. -/
theorem writeBack_spec (hc : c.InvBut x) :
    ∃ r c', c.writeBack = some (r, c') ∧ c'.InvBut x ∧ Flushes c c' ∧
      (r = .ok () → ∀ b, ¬c'.DirtyAt b) ∧
      (c.dev.Reliable → (∀ b, c.DirtyAt b → c.Fits b) → r = .ok ()) := by
  obtain ⟨r, c', h, hc', hf, -, hok, hrel⟩ := writeBackLoop_spec c.dirtyList.length (.ok ())
    c.dirtyList hc le_rfl c.dirtyList_sorted fun b hb => mem_dirtyList.mp hb
  refine ⟨r, c', h, hc', hf, fun hr b hb => ?_, fun hr hfit => ?_⟩
  · exact (hok hr).2 b (mem_dirtyList.mpr (hf.dirtyAt_imp hb)) hb
  · exact hrel hr fun b hb => hfit b (mem_dirtyList.mp hb)

end BlockCache

end RelayOs.Ext2
