import RelayOs.Ext2.CacheInvariant

/-!
# The block cache is transparent

Eviction, early write-back, merged runs and retries cannot be seen through the
cache. Each call is given one specification against `RelayOs.Ext2.BlockCache.view`,
the content the cache presents:

| call | what it presents | what it may dirty |
|---|---|---|
| `read b` | the content of `b` | nothing |
| `write b` | the content of `b` | `b` |
| `zeroed b` | zeros | `b` |
| `sync` | | nothing, and nothing stays dirty if it succeeds |

None of them changes the content of any block but by the change its caller makes, and the device
fails as it likes throughout.
-/

namespace RelayOs.Ext2

open Vfs

namespace BlockCache

/-! ### What happens behind the caller's back -/

/-- **What a call may do before it changes a block**: no block becomes dirty, the dirty
ones keep their content, and only they are written. -/
structure Settles (c c' : BlockCache) : Prop extends DeviceSteps c c' where
  dirty_imp : ∀ b, c'.DirtyAt b → c.DirtyAt b
  dirty_view : ∀ b, c'.DirtyAt b → c'.view b = c.view b
  kept : Kept c c'

variable {c c' : BlockCache} {b : ℕ} {x : ℕ → Prop}

theorem Flushes.settles (h : Flushes c c') : Settles c c' where
  toDeviceSteps := h.toDeviceSteps
  dirty_imp := fun _ hb => h.dirtyAt_imp hb
  dirty_view := fun b _ => h.view_eq b
  kept := h.kept

namespace Settles

theorem refl (c : BlockCache) : Settles c c := (Flushes.refl c).settles

/-- Nothing is written and nothing gets dirty or clean. -/
theorem of_dev_eq {c c' : BlockCache} (hsize : c'.blockSize = c.blockSize)
    (hscale : c'.scale = c.scale) (hcap : c'.capacity = c.capacity) (hdev : c'.dev = c.dev)
    (hdirty : ∀ b, c'.DirtyAt b ↔ c.DirtyAt b)
    (hview : ∀ b, c'.DirtyAt b → c'.view b = c.view b) : Settles c c' where
  toDeviceSteps := .of_dev_eq hsize hscale hcap hdev
  dirty_imp := fun b => (hdirty b).mp
  dirty_view := hview
  kept := .of_dev_eq hdev fun b => (hdirty b).mpr

variable {c c' c'' : BlockCache}

theorem deviceSteps (h : Settles c c') (h' : DeviceSteps c' c'') : DeviceSteps c c'' :=
  h.toDeviceSteps.trans h.dirty_imp h.dirty_view h'

theorem trans (h : Settles c c') (h' : Settles c' c'') : Settles c c'' where
  toDeviceSteps := h.deviceSteps h'.toDeviceSteps
  dirty_imp := fun b hb => h.dirty_imp b (h'.dirty_imp b hb)
  dirty_view := fun b hb => (h'.dirty_view b hb).trans (h.dirty_view b (h'.dirty_imp b hb))
  kept := h.kept.trans h'.kept h.scale_eq

end Settles

/-- **A call that changes no content.** -/
structure Quiet (c c' : BlockCache) : Prop extends Settles c c' where
  inv : c'.Inv
  view_eq : ∀ b, c'.view b = c.view b

theorem Quiet.refl (hc : c.Inv) : Quiet c c := ⟨Settles.refl c, hc, fun _ => rfl⟩

/-- Every dirty block lies inside the device. -/
def DirtyFits (c : BlockCache) : Prop := ∀ b, c.DirtyAt b → c.Fits b

theorem DeviceSteps.fits (h : DeviceSteps c c') (hb : c.Fits b) : c'.Fits b := by
  rw [Fits, h.scale_eq, h.devCount_eq]
  exact hb

/-! ### Making room -/

theorem dirtyAt_iff {e : Entry} (he : c.entries[b]? = some e) : c.DirtyAt b ↔ e.dirty = true := by
  simp [DirtyAt, he]

theorem view_of_not_dirty (hc : c.Inv) (hb : ¬c.DirtyAt b) : c.view b = c.onDevice b := by
  unfold view
  rcases he : c.entries[b]? with _ | e
  · rfl
  · exact hc.clean b e id he (by simpa [dirtyAt_iff he] using hb)

/-- An entry that is as dirty as before. -/
theorem dirtyAt_setEntry_same {e e' : Entry} {lru : Std.TreeMap ℕ ℕ} {tick dirty : ℕ}
    (he : c.entries[b]? = some e)
    (hd : e'.dirty = e.dirty) (b' : ℕ) : (c.setEntry b e' lru tick dirty).DirtyAt b' ↔
      c.DirtyAt b' := by
  rw [dirtyAt_setEntry]
  by_cases hb : b' = b
  · simp [hb, hd, dirtyAt_iff he]
  · simp [hb]

/-- The cache without the clean block `b`. -/
def evict (c : BlockCache) (t b : ℕ) : BlockCache :=
  { c with lru := c.lru.erase t, entries := c.entries.erase b }

section Evict

variable {c : BlockCache} {t b : ℕ}

theorem dirtyAt_evict (hc : c.Inv) (hl : c.lru[t]? = some b) (b' : ℕ) :
    (c.evict t b).DirtyAt b' ↔ c.DirtyAt b' := by
  unfold DirtyAt evict
  simp only [get_erase]
  obtain ⟨e, he, hd, -⟩ := (hc.lru_iff t b).mp hl
  by_cases hb : b = b'
  · subst hb
    simp [he, hd]
  · simp [hb]

/-- **Evicting a clean block loses nothing.** -/
theorem view_evict (hc : c.Inv) (hl : c.lru[t]? = some b) (b' : ℕ) :
    (c.evict t b).view b' = c.view b' := by
  obtain ⟨e, he, hd, -⟩ := (hc.lru_iff t b).mp hl
  have hget : (c.evict t b).entries[b']? = if b = b' then none else c.entries[b']? :=
    get_erase _ _ _
  have hdev : (c.evict t b).onDevice b' = c.onDevice b' := rfl
  rw [view, hget, hdev]
  by_cases hb : b = b'
  · subst hb
    rw [if_pos rfl, view, he]
    exact (hc.clean b e id he hd).symm
  · rw [if_neg hb, view]

theorem inv_evict (hc : c.Inv) (hl : c.lru[t]? = some b) : (c.evict t b).Inv := by
  obtain ⟨e, he, hd, ht⟩ := (hc.lru_iff t b).mp hl
  have hget : ∀ (b' : ℕ) (e' : Entry), (c.evict t b).entries[b']? = some e' →
      b ≠ b' ∧ c.entries[b']? = some e' := fun b' e' he' => by
    change (c.entries.erase b)[b']? = some e' at he'
    rw [get_erase] at he'
    split at he'
    · cases he'
    · exact ⟨by assumption, he'⟩
  exact
    { dev_pos := hc.dev_pos
      scale_pos := hc.scale_pos
      size_eq := hc.size_eq
      capacity_ge := hc.capacity_ge
      data_length := fun b' e' he' => hc.data_length b' e' (hget b' e' he').2
      tick_le := fun b' e' he' => hc.tick_le b' e' (hget b' e' he').2
      tick_inj := fun b1 b2 e1 e2 h1 h2 =>
        hc.tick_inj b1 b2 e1 e2 (hget b1 e1 h1).2 (hget b2 e2 h2).2
      lru_iff := fun t' b' => by
        change (c.lru.erase t)[t']? = some b' ↔ ∃ e', (c.entries.erase b)[b']? = some e' ∧ _
        rw [get_erase]
        constructor
        · intro h
          split at h
          · cases h
          · rename_i htt
            obtain ⟨e', he', hd', ht'⟩ := (hc.lru_iff t' b').mp h
            refine ⟨e', ?_, hd', ht'⟩
            rw [get_erase, if_neg]
            · exact he'
            · rintro rfl
              rw [he] at he'
              cases he'
              exact htt (ht.symm.trans ht')
        · rintro ⟨e', he', hd', ht'⟩
          obtain ⟨hb, he''⟩ := hget b' e' he'
          rw [if_neg, (hc.lru_iff t' b')]
          · exact ⟨e', he'', hd', ht'⟩
          · rintro rfl
            exact hb (hc.tick_inj b b' e e' he he'' (ht.trans ht'.symm))
      dirty_eq := by
        rw [length_dirtyList_congr (dirtyAt_evict hc hl)]
        exact hc.dirty_eq
      clean := fun b' e' hx he' => hc.clean b' e' hx (hget b' e' he').2 }

end Evict

theorem InvBut.lru_ne_nil (hc : c.InvBut x) {e : Entry}
    (he : c.entries[b]? = some e) (hb : ¬c.DirtyAt b) : c.lru.toList ≠ [] := by
  have hd : e.dirty = false := by simpa [dirtyAt_iff he] using hb
  have hl : c.lru[e.tick]? = some b := (hc.lru_tick he e.tick).mpr ⟨hd, rfl⟩
  exact List.ne_nil_of_mem (Std.TreeMap.mem_toList_iff_getElem?_eq_some.mpr hl)

theorem exists_entry_of_size (h : 0 < c.entries.size) :
    ∃ (b : ℕ) (e : Entry), c.entries[b]? = some e := by
  rw [← Std.TreeMap.length_toList] at h
  obtain ⟨⟨b, e⟩, hmem⟩ := List.exists_mem_of_length_pos h
  exact ⟨b, e, Std.TreeMap.mem_toList_iff_getElem?_eq_some.mp hmem⟩

theorem writeBackIf_spec (hc : c.InvBut x) (p : Bool) :
    ∃ c', c.writeBackIf p = some c' ∧ c'.InvBut x ∧ Flushes c c' ∧
      (p = true → c.dev.Reliable → c.DirtyFits → ∀ b, ¬c'.DirtyAt b) ∧ (p = false → c' = c) := by
  unfold writeBackIf
  cases p with
  | false => exact ⟨c, rfl, hc, Flushes.refl c, nofun, fun _ => rfl⟩
  | true =>
    obtain ⟨r, c', h, hc', hf, hclean, hrel⟩ := writeBack_spec hc
    exact ⟨c', by simp [h], hc', hf, fun _ hd hfit => hclean (hrel hd hfit), nofun⟩

/-- **`make_room`**: whatever it throws away or writes out, no content changes. On a
reliable device it always makes room. -/
theorem makeRoom_spec (hc : c.Inv) :
    ∃ r c', c.makeRoom = some (r, c') ∧ Quiet c c' ∧
      (∀ b : ℕ, c.entries[b]? = none → c'.entries[b]? = none) ∧
      (c.dev.Reliable → c.DirtyFits → r = .ok ()) := by
  unfold makeRoom
  by_cases hfull : c.entries.size < c.capacity
  · rw [if_pos hfull]
    exact ⟨_, c, rfl, .refl hc, fun _ h => h, fun _ _ => rfl⟩
  obtain ⟨c1, h1, hc1, hf1, hclean1, hsame1⟩ := writeBackIf_spec hc c.lru.isEmpty
  have hroom : c.dev.Reliable → c.DirtyFits → c1.lru.toList ≠ [] := fun hd hfit => by
    rcases hempty : c.lru.isEmpty with _ | _
    · rw [hsame1 hempty]
      intro hnil
      rw [← Std.TreeMap.isEmpty_toList, hnil] at hempty
      cases hempty
    · have hpos : 0 < c.entries.size := by
        have := hc.capacity_ge
        simp only [minBlocks] at this
        omega
      obtain ⟨b, e, he⟩ := exists_entry_of_size hpos
      obtain ⟨d, he1, -⟩ := hf1.entry b e he
      exact hc1.lru_ne_nil he1 (hclean1 hempty hd hfit b)
  simp only [if_neg hfull, h1, Option.bind_eq_bind, Option.bind_some]
  rcases hhead : c1.lru.toList.head? with _ | ⟨t, b⟩
  · exact ⟨_, c1, rfl, ⟨hf1.settles, hc1, hf1.view_eq⟩, hf1.absent,
      fun hd hfit => absurd (List.head?_eq_none_iff.mp hhead) (hroom hd hfit)⟩
  · have hl : c1.lru[t]? = some b :=
      Std.TreeMap.mem_toList_iff_getElem?_eq_some.mp (List.mem_of_head? hhead)
    refine ⟨_, c1.evict t b, rfl, ⟨hf1.settles.trans ?_, inv_evict hc1 hl,
      fun b' => (view_evict hc1 hl b').trans (hf1.view_eq b')⟩, fun b' hb' => ?_, fun _ _ => rfl⟩
    · exact .of_dev_eq rfl rfl rfl rfl (dirtyAt_evict hc1 hl) fun b' _ => view_evict hc1 hl b'
    · change (c1.entries.erase b)[b']? = none
      rw [get_erase, hf1.absent b' hb']
      exact ite_self _

/-! ### One block at a time -/

section Entries

variable {x : ℕ → Prop} {c : BlockCache} {b : ℕ}

theorem InvBut.mono {y : ℕ → Prop} (hc : c.InvBut x) (h : ∀ b, x b → y b) : c.InvBut y :=
  { hc with clean := fun b e hy => hc.clean b e fun hx => hy (h b hx) }

theorem InvBut.tick_fresh (hc : c.InvBut x) {b' : ℕ} {e' : Entry}
    (he' : c.entries[b']? = some e') : e'.tick ≠ c.tick + 1 := by
  have := hc.tick_le b' e' he'
  omega

theorem InvBut.lru_fresh (hc : c.InvBut x) (b' : ℕ) : c.lru[c.tick + 1]? ≠ some b' := by
  intro hl
  obtain ⟨e', he', -, ht'⟩ := (hc.lru_iff _ _).mp hl
  exact hc.tick_fresh he' ht'

theorem InvBut.inv_of_dirty (hc : c.InvBut (· = b)) (hb : c.DirtyAt b) : c.Inv :=
  { hc with
    clean := fun b' e' _ he' hd' => by
      refine hc.clean b' e' ?_ he' hd'
      rintro rfl
      rw [(dirtyAt_iff he').mp hb] at hd'
      cases hd' }

/-- **`insert`** of a block that is not cached. -/
theorem insert_spec (hc : c.InvBut x) (habs : c.entries[b]? = none) {data : Bytes}
    (hlen : data.length = c.blockSize) (hdata : ¬x b → data = c.onDevice b) :
    (c.insert b data).InvBut x ∧ (∀ b', (c.insert b data).DirtyAt b' ↔ c.DirtyAt b') ∧
      (∀ b', (c.insert b data).view b' = if b' = b then data else c.view b') ∧
      (c.insert b data).entries[b]? = some ⟨data, false, c.tick + 1⟩ := by
  have hset : c.insert b data =
      c.setEntry b ⟨data, false, c.tick + 1⟩ (c.lru.insert (c.tick + 1) b) (c.tick + 1) c.dirty :=
    rfl
  have hnot : ¬c.DirtyAt b := by
    rintro ⟨e, he, -⟩
    rw [habs] at he
    cases he
  have hdirty : ∀ b', (c.insert b data).DirtyAt b' ↔ c.DirtyAt b' := fun b' => by
    rw [hset, dirtyAt_setEntry]
    by_cases hb : b' = b
    · subst hb
      simp [hnot]
    · simp [hb]
  refine ⟨?_, hdirty, fun b' => by rw [hset, view_setEntry], by
    rw [hset, entries_setEntry, if_pos rfl]⟩
  rw [hset]
  refine hc.setEntry hlen (Nat.le_succ _) le_rfl (fun b' e' _ he' => hc.tick_fresh he')
    (fun t b' => ?_) ?_ fun hx _ => hdata hx
  · rw [get_insert_unique (fun b' hl => absurd hl (hc.lru_fresh b')) (fun t' hl => ?_)]
    · simp
    · obtain ⟨e, he, -⟩ := (hc.lru_iff _ _).mp hl
      rw [habs] at he
      cases he
  · rw [← hset, length_dirtyList_congr hdirty]
    exact hc.dirty_eq

/-- **`touch`** of a cached block. -/
theorem touch_spec (hc : c.InvBut x) {e : Entry} (he : c.entries[b]? = some e) :
    ∃ c', c.touch b = some c' ∧ c'.InvBut x ∧ (∀ b', c'.DirtyAt b' ↔ c.DirtyAt b') ∧
      (∀ b', c'.view b' = c.view b') ∧
      c'.entries[b]? = some { e with tick := c.tick + 1 } ∧ DeviceSteps c c' ∧ c'.dev = c.dev := by
  set lru := if e.dirty then c.lru else (c.lru.erase e.tick).insert (c.tick + 1) b with hlru
  set c' := c.setEntry b { e with tick := c.tick + 1 } lru (c.tick + 1) c.dirty with hset
  have hdirty : ∀ b', c'.DirtyAt b' ↔ c.DirtyAt b' := dirtyAt_setEntry_same he rfl
  refine ⟨c', by simp only [touch, he]; rfl, ?_, hdirty, fun b' => ?_, by
    rw [hset, entries_setEntry, if_pos rfl], .of_dev_eq rfl rfl rfl rfl, rfl⟩
  · refine hc.setEntry (hc.data_length b e he) (Nat.le_succ _) le_rfl
      (fun b' e' _ he' => hc.tick_fresh he') (fun t b' => ?_) ?_ fun hx hd => hc.clean b e hx he hd
    · have hval : ∀ t', c.lru[t']? = some b → t' = e.tick := fun t' hl =>
        ((hc.lru_tick he t').mp hl).2.symm
      have herase := get_erase_unique (hc.eq_of_lru he) hval
      rcases hd : e.dirty with _ | _
      · have hl : lru = (c.lru.erase e.tick).insert (c.tick + 1) b := by simp [hlru, hd]
        rw [hl, get_insert_unique]
        · rw [herase]
          simp
        · intro b' h
          exact absurd ((herase _ _).mp h).2 (hc.lru_fresh b')
        · intro t' h
          exact absurd rfl ((herase _ _).mp h).1
      · have hl : lru = c.lru := by simp [hlru, hd]
        rw [hl]
        constructor
        · intro h
          refine Or.inr ⟨?_, h⟩
          rintro rfl
          have := ((hc.lru_tick he t).mp h).1
          rw [hd] at this
          cases this
        · rintro (⟨-, h, -⟩ | ⟨-, h⟩)
          · cases h
          · exact h
    · rw [length_dirtyList_congr hdirty]
      exact hc.dirty_eq
  · rw [hset, view_setEntry]
    split
    · rename_i hb
      rw [hb, view, he]
    · rfl

theorem setDirty_spec (hc : c.InvBut (· = b)) {e : Entry} (he : c.entries[b]? = some e)
    (hd : e.dirty = false) :
    let c' := c.setEntry b { e with dirty := true } (c.lru.erase e.tick) c.tick (c.dirty + 1)
    c'.Inv ∧ c'.DirtyAt b ∧ (∀ b', c'.DirtyAt b' ↔ b' = b ∨ c.DirtyAt b') ∧
      (∀ b', c'.view b' = c.view b') := by
  intro c'
  have hnot : ¬c.DirtyAt b := by simp [dirtyAt_iff he, hd]
  have hdirty : ∀ b', c'.DirtyAt b' ↔ b' = b ∨ c.DirtyAt b' := fun b' => by
    rw [dirtyAt_setEntry]
    by_cases hb : b' = b
    · simp [hb]
    · simp [hb]
  have hb : c'.DirtyAt b := (hdirty b).mpr (Or.inl rfl)
  refine ⟨InvBut.inv_of_dirty (b := b) ?_ hb, hb, hdirty, fun b' => ?_⟩
  · refine hc.setEntry (hc.data_length b e he) le_rfl (hc.tick_le b e he)
      (fun b' e' hb' he' => hc.tick_ne (e := e) he hb' he') (fun t b' => ?_) ?_
        fun hx => absurd rfl hx
    · rw [get_erase_unique (hc.eq_of_lru he) fun t' hl => ((hc.lru_tick he t').mp hl).2.symm]
      simp
    · rw [length_dirtyList_succ hnot hdirty, hc.dirty_eq]
  · rw [view_setEntry]
    split
    · rename_i hb'
      rw [hb', view, he]
    · rfl

/-- **`mark_dirty`** of a cached block, which may hold something else than the
device. -/
theorem markDirty_spec (hc : c.InvBut (· = b)) {e : Entry} (he : c.entries[b]? = some e) :
    ∃ c', c.markDirty b = some c' ∧ c'.Inv ∧ c'.DirtyAt b ∧
      (∀ b', c'.DirtyAt b' → b' = b ∨ c.DirtyAt b') ∧ (∀ b', c'.view b' = c.view b') ∧
      DeviceSteps c c' ∧ Kept c c' ∧ (c.DirtyAt b → c' = c) := by
  unfold markDirty
  rcases hd : e.dirty with _ | _
  · obtain ⟨c1, h1, hc1, hf1, -, -⟩ :=
      writeBackIf_spec hc (decide (c.dirty + 1 > c.capacity / 2))
    obtain ⟨d, he1, himp⟩ := hf1.entry b e he
    obtain rfl : d = false := by
      cases d with
      | false => rfl
      | true =>
        rw [himp rfl] at hd
        cases hd
    obtain ⟨hc2, hb2, hdirty2, hview2⟩ := setDirty_spec hc1 he1 rfl
    refine ⟨_, ?_, hc2, hb2, fun b' hb' => ?_, fun b' => (hview2 b').trans (hf1.view_eq b'),
      hf1.settles.deviceSteps (.of_dev_eq rfl rfl rfl rfl),
      hf1.kept.trans (.of_dev_eq rfl fun b' hb' => (hdirty2 b').mpr (Or.inr hb')) hf1.scale_eq, ?_⟩
    · simp only [he, hd, h1, he1, Option.bind_eq_bind, Option.bind_some]
      rfl
    · exact ((hdirty2 b').mp hb').imp_right fun h => hf1.dirtyAt_imp h
    · intro hb
      rw [(dirtyAt_iff he).mp hb] at hd
      cases hd
  · have hb : c.DirtyAt b := ⟨e, he, hd⟩
    exact ⟨c, by simp [he, hd], hc.inv_of_dirty hb, hb, fun _ h => Or.inr h, fun _ => rfl,
      .of_dev_eq rfl rfl rfl rfl, .of_dev_eq rfl fun _ h => h, fun _ => rfl⟩

end Entries

/-! ### The calls -/

/-- The cache after a request that only counted. -/
def asked (c : BlockCache) : BlockCache := { c with dev := { c.dev with asked := c.dev.asked + 1 } }

theorem inv_asked (hc : c.InvBut x) : c.asked.InvBut x :=
  hc.of_dev rfl fun _ _ _ _ _ => rfl

theorem settles_asked (c : BlockCache) : Settles c c.asked where
  blockSize_eq := rfl
  scale_eq := rfl
  capacity_eq := rfl
  devSize_eq := rfl
  devCount_eq := rfl
  reliable := id
  tears := id
  reaches := Reaches.refl c
  history := ⟨[], rfl, fun w hw => by cases hw⟩
  dirty_imp := fun _ h => h
  dirty_view := fun _ _ => rfl
  kept := ⟨[], rfl, fun _ h => Or.inl h⟩

/-- **`load`**: no content changes, and on success the block is cached. On a reliable
device a block inside it always loads. -/
theorem load_spec (hc : c.Inv) (b : ℕ) :
    ∃ r c', c.load b = some (r, c') ∧ Quiet c c' ∧ (r = .ok () → ∃ e, c'.entries[b]? = some e) ∧
      (c.dev.Reliable → c.DirtyFits → c.Fits b → r = .ok ()) := by
  unfold load
  rcases he : c.entries[b]? with _ | e
  swap
  · have hmem : c.entries.contains b = true := by
      rw [Std.TreeMap.contains_eq_isSome_getElem?, he]
      rfl
    obtain ⟨c1, h1, hc1, hdirty1, hview1, he1, hd1, hdev1⟩ := touch_spec hc he
    rw [if_pos hmem]
    simp only [h1, Option.bind_eq_bind, Option.bind_some]
    exact ⟨_, c1, rfl, ⟨.of_dev_eq hd1.blockSize_eq hd1.scale_eq hd1.capacity_eq hdev1 hdirty1
      fun b' _ => hview1 b', hc1, hview1⟩, fun _ => ⟨_, he1⟩, fun _ _ _ => rfl⟩
  have hmem : ¬c.entries.contains b = true := by
    rw [Std.TreeMap.contains_eq_isSome_getElem?, he]
    simp
  rw [if_neg hmem, lba]
  by_cases hlba : b * c.scale < 2 ^ 64
  swap
  · rw [if_neg hlba]
    refine ⟨_, c, rfl, .refl hc, by simp, fun _ _ hfit => ?_⟩
    obtain ⟨hle, hcount⟩ := hfit
    omega
  rw [if_pos hlba]
  obtain ⟨r1, c1, h1, hq1, habs1, hrel1⟩ := makeRoom_spec hc
  obtain ⟨hs1, hc1, hview1⟩ := id hq1
  simp only [h1, Option.bind_eq_bind, Option.bind_some]
  cases r1 with
  | error e =>
    refine ⟨_, c1, rfl, hq1, by simp, fun hd hfit _ => ?_⟩
    cases hrel1 hd hfit
  | ok u =>
    have hspan : c1.dev.span (b * c.scale) (c1.blockSize / c1.dev.blockSize) = c1.onDevice b := by
      rw [hc1.size_eq, Nat.mul_div_cancel _ hc1.dev_pos, onDevice, hs1.scale_eq]
    have hdev := c1.dev.read_device (b * c.scale) c1.blockSize
    rcases hread : c1.dev.read (b * c.scale) c1.blockSize with ⟨r2, dev⟩
    rw [hread] at hdev
    cases r2 with
    | error e =>
      -- a refused request does not even count
      have hbad : c1.dev.Reliable → c1.Fits b → False := fun hd hfit => by
        obtain ⟨d, hd⟩ := Device.read_succeeds hd (b * c.scale) c1.blockSize (by
          rw [hc1.size_eq]
          refine Device.checkRequest_of_le hc1.dev_pos hfit.2 ?_
          rw [← hs1.scale_eq]
          exact hfit.1)
        rw [hread] at hd
        cases hd
      have hfail : c.dev.Reliable → c.DirtyFits → c.Fits b →
          (Except.error e.toErrno : Except Errno Unit) = .ok () :=
        fun hd _ hfit => (hbad (hs1.reliable hd) (hs1.fits hfit)).elim
      rcases hdev with hdev | hdev
      · obtain rfl : dev = c1.dev := hdev
        exact ⟨_, c1, rfl, hq1, by simp, hfail⟩
      · obtain rfl : dev = c1.asked.dev := hdev
        exact ⟨_, c1.asked, rfl,
          ⟨hs1.trans (settles_asked c1), inv_asked hc1, hview1⟩, by simp, hfail⟩
    | ok data =>
      obtain ⟨hdata, hdev', hlen⟩ := Device.read_ok hread
      obtain rfl : dev = c1.asked.dev := hdev'
      rw [hspan] at hdata
      have habs : c1.asked.entries[b]? = none := habs1 b he
      obtain ⟨hc2, hdirty2, hview2, he2⟩ :=
        insert_spec (inv_asked hc1) habs hlen fun _ => hdata
      have hsame : ∀ b', (c1.asked.insert b data).view b' = c1.view b' := fun b' => by
        rw [hview2]
        split
        · rename_i hb
          rw [hb, hdata, view, habs1 b he]
        · rfl
      refine ⟨_, c1.asked.insert b data, rfl, ⟨?_, hc2, fun b' => (hsame b').trans (hview1 b')⟩,
        fun _ => ⟨_, he2⟩, fun _ _ _ => rfl⟩
      exact (hs1.trans (settles_asked c1)).trans
        (.of_dev_eq rfl rfl rfl rfl hdirty2 fun b' _ => hsame b')

/-- **`read`** presents the content of the block and changes none. -/
theorem read_spec (hc : c.Inv) (b : ℕ) :
    ∃ r c', c.read b = some (r, c') ∧ Quiet c c' ∧ (∀ d, r = .ok d → d = c.view b) ∧
      (c.dev.Reliable → c.DirtyFits → c.Fits b → r = .ok (c.view b)) := by
  unfold read
  obtain ⟨r, c', h, hq, hcached, hrel⟩ := load_spec hc b
  simp only [h, Option.bind_eq_bind, Option.bind_some]
  cases r with
  | error e =>
    refine ⟨_, c', rfl, hq, nofun, fun hd hfit hb => ?_⟩
    cases hrel hd hfit hb
  | ok u =>
    obtain ⟨e, he⟩ := hcached rfl
    have hdata : e.data = c.view b := by
      rw [← hq.view_eq, view, he]
    simp only [he, Option.bind_some]
    exact ⟨_, c', rfl, hq, fun d hd => by cases hd; exact hdata,
      fun _ _ _ => by rw [hdata]⟩

/-- **What a call that may change block `b` does**: it presents `old` as the block, and
then leaves the block to its caller, dirty. -/
structure Opens (c c' : BlockCache) (b : ℕ) (old : Bytes) : Prop extends DeviceSteps c c' where
  inv : c'.Inv
  kept : Kept c c'
  dirty : c'.DirtyAt b
  dirty_imp : ∀ b', c'.DirtyAt b' → b' = b ∨ c.DirtyAt b'
  view_eq : ∀ b', c'.view b' = if b' = b then old else c.view b'

/-- **`write`** presents the content of the block for changing. -/
theorem write_spec (hc : c.Inv) (b : ℕ) :
    ∃ r c', c.write b = some (r, c') ∧
      (∀ e, r = .error e → Quiet c c') ∧
      (∀ d, r = .ok d → d = c.view b ∧ Opens c c' b d) ∧
      (c.dev.Reliable → c.DirtyFits → c.Fits b → r = .ok (c.view b)) := by
  unfold write
  obtain ⟨r, c1, h, hq1, hcached, hrel⟩ := load_spec hc b
  obtain ⟨hs1, hc1, hview1⟩ := id hq1
  simp only [h, Option.bind_eq_bind, Option.bind_some]
  cases r with
  | error e =>
    refine ⟨_, c1, rfl, fun _ _ => hq1, by simp, fun hd hfit hb => ?_⟩
    cases hrel hd hfit hb
  | ok u =>
    obtain ⟨e, he⟩ := hcached rfl
    obtain ⟨c2, h2, hc2, hb2, hdirty2, hview2, hdev2, hkept2, -⟩ :=
      markDirty_spec (hc1.mono (by simp)) he
    have hview : ∀ b', c2.view b' = c.view b' := fun b' => (hview2 b').trans (hview1 b')
    obtain ⟨e2, he2, -⟩ := id hb2
    have hdata : e2.data = c.view b := by
      rw [← hview, view, he2]
    simp only [h2, he2, Option.bind_some]
    refine ⟨_, c2, rfl, by simp, fun d hd => ?_, fun _ _ _ => by rw [hdata]⟩
    cases hd
    refine ⟨hdata, hs1.deviceSteps hdev2, hc2, hs1.kept.trans hkept2 hs1.scale_eq, hb2,
      fun b' hb' => (hdirty2 b' hb').imp_right (hs1.dirty_imp b'), fun b' => ?_⟩
    rw [hview]
    split
    · rename_i hb
      rw [hb, hdata]
    · rfl

theorem fill_spec (hc : c.Inv) {e : Entry} (he : c.entries[b]? = some e) :
    let e' : Entry := { e with data := List.replicate e.data.length 0 }
    let c' := c.setEntry b e' c.lru c.tick c.dirty
    c'.InvBut (· = b) ∧ (∀ b', c'.DirtyAt b' ↔ c.DirtyAt b') ∧
      ∀ b', c'.view b' = if b' = b then List.replicate c.blockSize 0 else c.view b' := by
  intro e' c'
  have hlen := hc.data_length b e he
  have hdirty : ∀ b', c'.DirtyAt b' ↔ c.DirtyAt b' := dirtyAt_setEntry_same he rfl
  refine ⟨?_, hdirty, fun b' => ?_⟩
  · refine (hc.mono nofun).setEntry (by simp [e', hlen]) le_rfl (hc.tick_le b e he)
      (fun b' e' hb' he' => hc.tick_ne (e := e) he hb' he') (fun t b' => ?_) ?_
        fun hx => absurd rfl hx
    · by_cases hb : b' = b
      · subst hb
        rw [hc.lru_tick he]
        simp [e']
      · simp [hb]
    · rw [length_dirtyList_congr hdirty]
      exact hc.dirty_eq
  · rw [view_setEntry, ← hlen]

theorem loadZeros_spec (hc : c.Inv) (b : ℕ) :
    ∃ r c', c.loadZeros b = some (r, c') ∧
      (∀ e, r = .error e → Quiet c c') ∧
      (r = .ok () → c'.InvBut (· = b) ∧ (∃ e, c'.entries[b]? = some e) ∧
        (∀ b', c'.DirtyAt b' → c.DirtyAt b') ∧
        (∀ b', c'.view b' = if b' = b then List.replicate c.blockSize 0 else c.view b') ∧
        (Settles c c' ∨ (c'.DirtyAt b ∧ DeviceSteps c c' ∧ Kept c c'))) ∧
      (c.dev.Reliable → c.DirtyFits → r = .ok ()) := by
  unfold loadZeros
  rcases he : c.entries[b]? with _ | e
  · obtain ⟨r, c1, h1, hq1, habs1, hrel⟩ := makeRoom_spec hc
    obtain ⟨hs1, hc1, hview1⟩ := id hq1
    simp only [h1, Option.bind_eq_bind, Option.bind_some]
    cases r with
    | error e =>
      refine ⟨_, c1, rfl, fun _ _ => hq1, nofun, fun hd hfit => ?_⟩
      cases hrel hd hfit
    | ok u =>
      obtain ⟨hc2, hdirty2, hview2, he2⟩ := insert_spec (x := (· = b))
        (hc1.mono nofun) (habs1 b he) List.length_replicate fun hx => absurd rfl hx
      refine ⟨_, _, rfl, nofun, fun _ => ⟨hc2, ⟨_, he2⟩,
        fun b' hb' => hs1.dirty_imp b' ((hdirty2 b').mp hb'), fun b' => ?_, Or.inl ?_⟩,
        fun _ _ => rfl⟩
      · rw [hview2, hs1.blockSize_eq, hview1]
      · refine hs1.trans (.of_dev_eq rfl rfl rfl rfl hdirty2 fun b' hb' => ?_)
        rw [hview2, if_neg]
        rintro rfl
        obtain ⟨e, he', -⟩ := (hdirty2 b').mp hb'
        rw [habs1 b' he] at he'
        cases he'
  · obtain ⟨hc0, hdirty0, hview0⟩ := fill_spec hc he
    have he0 : (c.setEntry b { e with data := List.replicate e.data.length 0 } c.lru c.tick
        c.dirty).entries[b]? = some { e with data := List.replicate e.data.length 0 } := by
      rw [entries_setEntry, if_pos rfl]
    obtain ⟨c1, h1, hc1, hdirty1, hview1, he1, hd1, hdev1⟩ := touch_spec hc0 he0
    have hdirty : ∀ b', c1.DirtyAt b' ↔ c.DirtyAt b' := fun b' => (hdirty1 b').trans (hdirty0 b')
    have hview : ∀ b', c1.view b' = if b' = b then List.replicate c.blockSize 0 else c.view b' :=
      fun b' => (hview1 b').trans (hview0 b')
    refine ⟨.ok (), c1, ?_, nofun, fun _ => ⟨hc1, ⟨_, he1⟩, fun b' => (hdirty b').mp, hview, ?_⟩,
      fun _ _ => rfl⟩
    · change (touch (c.setEntry b _ c.lru c.tick c.dirty) b).bind _ = _
      rw [h1]
      rfl
    · by_cases hb : c.DirtyAt b
      · exact Or.inr ⟨(hdirty b).mpr hb,
          .of_dev_eq hd1.blockSize_eq hd1.scale_eq hd1.capacity_eq hdev1,
          .of_dev_eq hdev1 fun b' => (hdirty b').mpr⟩
      · refine Or.inl (.of_dev_eq hd1.blockSize_eq hd1.scale_eq hd1.capacity_eq hdev1 hdirty
          fun b' hb' => ?_)
        rw [hview, if_neg]
        rintro rfl
        exact hb ((hdirty b').mp hb')

/-- **`zeroed`** presents zeros for changing. -/
theorem zeroed_spec (hc : c.Inv) (b : ℕ) :
    ∃ r c', c.zeroed b = some (r, c') ∧
      (∀ e, r = .error e → Quiet c c') ∧
      (∀ d, r = .ok d → d = List.replicate c.blockSize 0 ∧ Opens c c' b d) ∧
      (c.dev.Reliable → c.DirtyFits → r = .ok (List.replicate c.blockSize 0)) := by
  unfold zeroed
  obtain ⟨r, c1, h, herr, hok, hrel⟩ := loadZeros_spec hc b
  simp only [h, Option.bind_eq_bind, Option.bind_some]
  cases r with
  | error e =>
    refine ⟨_, c1, rfl, fun _ _ => herr e rfl, by simp, fun hd hfit => ?_⟩
    cases hrel hd hfit
  | ok u =>
    obtain ⟨hc1, ⟨e, he⟩, hdirty1, hview1, hstep1⟩ := hok rfl
    obtain ⟨c2, h2, hc2, hb2, hdirty2, hview2, hdev2, hkept2, hsame2⟩ := markDirty_spec hc1 he
    have hview : ∀ b', c2.view b' = if b' = b then List.replicate c.blockSize 0 else c.view b' :=
      fun b' => (hview2 b').trans (hview1 b')
    obtain ⟨e2, he2, -⟩ := id hb2
    have hdata : e2.data = List.replicate c.blockSize 0 := by
      have hb := hview b
      rw [if_pos rfl, view, he2] at hb
      exact hb
    have hsteps : DeviceSteps c c2 ∧ Kept c c2 := by
      rcases hstep1 with hs | ⟨hb, hd, hk⟩
      · exact ⟨hs.deviceSteps hdev2, hs.kept.trans hkept2 hs.scale_eq⟩
      · rw [hsame2 hb]
        exact ⟨hd, hk⟩
    simp only [h2, he2, Option.bind_some]
    refine ⟨_, c2, rfl, by simp, fun d hd => ?_, fun _ _ => by rw [hdata]⟩
    cases hd
    exact ⟨hdata, hsteps.1, hc2, hsteps.2, hb2,
      fun b' hb' => (hdirty2 b' hb').imp_right (hdirty1 b'), fun b' => by rw [hview, hdata]⟩

/-- **The caller's change** of the block it was given, of the same length. -/
theorem Opens.put {old new : Bytes} (h : Opens c c' b old)
    (hlen : new.length = old.length) : Opens c (c'.put b new) b new := by
  obtain ⟨e, he, hd⟩ := h.dirty
  have hold : e.data = old := by
    have hb := h.view_eq b
    rw [if_pos rfl, view, he] at hb
    exact hb
  have hput : c'.put b new = c'.setEntry b { e with data := new } c'.lru c'.tick c'.dirty := by
    rw [BlockCache.put, he]
    rfl
  have hdirty : ∀ b', (c'.put b new).DirtyAt b' ↔ c'.DirtyAt b' :=
    hput ▸ dirtyAt_setEntry_same he rfl
  have hinv : (c'.put b new).Inv := by
    have hlen' := h.inv.data_length b e he
    rw [hput]
    refine h.inv.setEntry (by rw [← hlen', hold, ← hlen]) le_rfl (h.inv.tick_le b e he)
      (fun b' e' hb' he' => h.inv.tick_ne (e := e) he hb' he') (fun t b' => ?_) ?_ fun _ hd' => ?_
    · by_cases hb : b' = b
      · subst hb
        rw [h.inv.lru_tick he]
        simp
      · simp [hb]
    · rw [← hput, length_dirtyList_congr hdirty]
      exact h.inv.dirty_eq
    · rw [hd] at hd'
      cases hd'
  have hdev : (c'.put b new).dev = c'.dev := by rw [hput]; rfl
  have hscale : (c'.put b new).scale = c'.scale := by rw [hput]; rfl
  exact
    { blockSize_eq := by rw [hput]; exact h.blockSize_eq
      scale_eq := hscale.trans h.scale_eq
      capacity_eq := by rw [hput]; exact h.capacity_eq
      devSize_eq := by rw [hdev]; exact h.devSize_eq
      devCount_eq := by rw [hdev]; exact h.devCount_eq
      reliable := fun hr => hdev ▸ h.reliable hr
      tears := fun ht => hdev ▸ h.tears ht
      reaches := hdev ▸ h.reaches
      history := by rw [hdev]; exact h.history
      inv := hinv
      kept := h.kept.trans (.of_dev_eq hdev fun b' => (hdirty b').mpr) h.scale_eq
      dirty := (hdirty b).mpr h.dirty
      dirty_imp := fun b' hb' => h.dirty_imp b' ((hdirty b').mp hb')
      view_eq := fun b' => by
        rw [hput, view_setEntry, h.view_eq]
        split <;> rfl }

/-- **`sync`**: no content changes, and if it succeeds nothing is dirty any more. -/
theorem sync_spec (hc : c.Inv) :
    ∃ r c', c.sync = some (r, c') ∧ Quiet c c' ∧ (r = .ok () → ∀ b, ¬c'.DirtyAt b) ∧
      (c.dev.Reliable → c.DirtyFits → r = .ok ()) := by
  unfold sync
  obtain ⟨r, c', h, hc', hf, hclean, hrel⟩ := writeBack_spec hc
  have hdev := c'.dev.flush_device
  have hok : c'.dev.Reliable → c'.dev.flush.1 = .ok () := fun hd => by
    simp only [Device.flush, hd c'.dev.asked]
  simp only [h, Option.bind_eq_bind, Option.bind_some]
  rcases hflush : c'.dev.flush with ⟨r', dev⟩
  rw [hflush] at hdev hok
  obtain rfl : dev = c'.asked.dev := hdev
  refine ⟨_, c'.asked, rfl, ⟨hf.settles.trans (settles_asked c'), inv_asked hc', hf.view_eq⟩,
    fun hr => ?_, fun hd hfit => ?_⟩
  · cases r with
    | error e => cases hr
    | ok u => exact hclean rfl
  · obtain rfl := hrel hd hfit
    obtain rfl : r' = .ok () := hok (hf.reliable hd)
    rfl

theorem writeWith_spec (hc : c.Inv) (b : ℕ) (f : Edit) :
    ∃ r c', c.writeWith b f = some (r, c') ∧
      (∀ e, r = .error e → Quiet c c') ∧
      (∀ d, r = .ok d → d = c.view b ∧ Opens c c' b (f.apply d)) ∧
      (c.dev.Reliable → c.DirtyFits → c.Fits b → r = .ok (c.view b)) := by
  unfold writeWith
  obtain ⟨r, c', h, herr, hok, hrel⟩ := write_spec hc b
  simp only [h, Option.bind_eq_bind, Option.bind_some]
  cases r with
  | error e => exact ⟨_, c', rfl, fun _ _ => herr e rfl, nofun, hrel⟩
  | ok d =>
    obtain ⟨hd, hopen⟩ := hok d rfl
    refine ⟨_, _, rfl, nofun, fun d' hd' => ?_, hrel⟩
    cases hd'
    exact ⟨hd, hopen.put (f.length_apply d)⟩

theorem zeroedWith_spec (hc : c.Inv) (b : ℕ) (f : Edit) :
    ∃ r c', c.zeroedWith b f = some (r, c') ∧
      (∀ e, r = .error e → Quiet c c') ∧
      (∀ d, r = .ok d → d = List.replicate c.blockSize 0 ∧ Opens c c' b (f.apply d)) ∧
      (c.dev.Reliable → c.DirtyFits → r = .ok (List.replicate c.blockSize 0)) := by
  unfold zeroedWith
  obtain ⟨r, c', h, herr, hok, hrel⟩ := zeroed_spec hc b
  simp only [h, Option.bind_eq_bind, Option.bind_some]
  cases r with
  | error e => exact ⟨_, c', rfl, fun _ _ => herr e rfl, nofun, hrel⟩
  | ok d =>
    obtain ⟨hd, hopen⟩ := hok d rfl
    refine ⟨_, _, rfl, nofun, fun d' hd' => ?_, hrel⟩
    cases hd'
    exact ⟨hd, hopen.put (f.length_apply d)⟩

end BlockCache

end RelayOs.Ext2
