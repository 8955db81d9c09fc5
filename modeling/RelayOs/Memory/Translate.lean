import RelayOs.Memory.Walk

/-!
# What an address translates to

The entries on the way from a PML4 to the page holding an address
(`RelayOs.Mm.Mem.entryAt`), whatever the tables hold: pages of 4 KiB, of 2 MiB and larger ones, and
tables with any flags. All that page-table code does to a table is to fill an entry that was
absent, and what that makes of the ways is said here once: those that pass through the entry go
on from there, and every other is as it was (`RelayOs.Mm.Unshared.entryAt_set_of_eq`). For that no
table may be reached in two places (`RelayOs.Mm.Unshared`).
-/

namespace RelayOs.Mm

open Prog

/-- The entry leads to a table. -/
def Leads (e : ℕ) : Prop := e &&& present ≠ 0 ∧ e &&& hugePage = 0

instance (e : ℕ) : Decidable (Leads e) := inferInstanceAs (Decidable (_ ∧ _))

namespace Mem

/-- **The entries on the way** to `x`: the table looked at, and the entry found in it, after
`d` tables. -/
def entryAt (s : Mem) (root x : ℕ) : ℕ → Option (ℕ × ℕ)
  | 0 => some (root, s.word root (index x 3))
  | d + 1 =>
    match s.entryAt root x d with
    | none => none
    | some (_, e) =>
      if d < 3 ∧ Leads e then some (e &&& addrMask, s.word (e &&& addrMask) (index x (2 - d)))
      else none

/-- **The way ends at a page**: `e` is its entry, found after `d` tables. -/
def Leaf (s : Mem) (root x d e : ℕ) : Prop :=
  (∃ g, s.entryAt root x d = some (g, e)) ∧ e &&& present ≠ 0 ∧ (d = 3 ∨ e &&& hugePage ≠ 0)

/-- Some page holds the address. -/
def Mapped (s : Mem) (root x : ℕ) : Prop := ∃ d e, s.Leaf root x d e

/-- The page holding `virt`, going down `level` tables from `table`. -/
def translateFrom (s : Mem) (virt : ℕ) : ℕ → ℕ → Option (ℕ × Cache × ℕ)
  | 0, _ => none
  | level + 1, table =>
    let e := s.word table (index virt level)
    if e &&& present = 0 then none
    else if level = 0 ∨ e &&& hugePage ≠ 0 then some (pageOf virt level e)
    else s.translateFrom virt level (e &&& addrMask)

/-- **What the address translates to** in memory `s`. -/
def translate (s : Mem) (root virt : ℕ) : Option (ℕ × Cache × ℕ) := s.translateFrom virt 4 root

variable {s s' : Mem} {root x y d n g e : ℕ}

/-! ### The way to an address -/

theorem entryAt_succ : s.entryAt root x (d + 1) = some (g, e) ↔
    ∃ g' e', s.entryAt root x d = some (g', e') ∧ (d < 3 ∧ Leads e') ∧ g = e' &&& addrMask ∧
      e = s.word g (index x (2 - d)) := by
  rw [entryAt]
  cases s.entryAt root x d with
  | none => exact iff_of_false nofun (by rintro ⟨_, _, h, -⟩; cases h)
  | some p =>
    obtain ⟨g', e'⟩ := p
    dsimp only
    split
    · next hd =>
      rw [Option.some.injEq, Prod.mk.injEq]
      constructor
      · rintro ⟨rfl, rfl⟩
        exact ⟨g', e', rfl, hd, rfl, rfl⟩
      · rintro ⟨_, _, h, -, rfl, rfl⟩
        cases h
        exact ⟨rfl, rfl⟩
    · next hd =>
      refine iff_of_false nofun ?_
      rintro ⟨_, _, h, hd', -⟩
      cases h
      exact hd hd'

/-- The entry found is the word of its table. -/
theorem word_of_entryAt (h : s.entryAt root x d = some (g, e)) :
    s.word g (index x (3 - d)) = e := by
  cases d with
  | zero =>
    cases h
    rfl
  | succ d =>
    obtain ⟨-, -, -, -, -, rfl⟩ := entryAt_succ.mp h
    rw [show 3 - (d + 1) = 2 - d by omega]

theorem depth_le (h : s.entryAt root x d = some (g, e)) : d ≤ 3 := by
  cases d with
  | zero => exact Nat.zero_le 3
  | succ d =>
    obtain ⟨_, _, -, hd, -⟩ := entryAt_succ.mp h
    exact hd.1

/-- Where an entry is found, one is found above it, and it leads there. -/
theorem leads_of_lt (h : s.entryAt root x d = some (g, e)) (hn : n < d) :
    ∃ g' e', s.entryAt root x n = some (g', e') ∧ Leads e' := by
  induction d generalizing g e with
  | zero => exact absurd hn (Nat.not_lt_zero n)
  | succ d ih =>
    obtain ⟨g', e', hd, hlead, -⟩ := entryAt_succ.mp h
    rcases Nat.lt_succ_iff_lt_or_eq.mp hn with hlt | rfl
    · exact ih hd hlt
    · exact ⟨g', e', hd, hlead.2⟩

/-- **The way to an address is that to any other** as far as their positions agree. -/
theorem entryAt_of_pos (hd : d ≤ 3) (hpos : pos x (3 - d) = pos y (3 - d)) (hn : n ≤ d) :
    s.entryAt root x n = s.entryAt root y n := by
  have hindex : ∀ k, 3 - d ≤ k → k ≤ 3 → index x k = index y k := by
    intro k hk hk3
    rw [index_eq hk3, index_eq hk3]
    obtain ⟨j, rfl⟩ := Nat.exists_eq_add_of_le hk
    have hdiv : ∀ v, pos v (3 - d + j) = pos v (3 - d) / 512 ^ j := by
      intro v
      rw [pos, pos, pow_add, Nat.div_div_eq_div_mul]
    rw [hdiv x, hdiv y, hpos]
  induction n with
  | zero => rw [entryAt, entryAt, hindex 3 (by omega) le_rfl]
  | succ n ih => rw [entryAt, entryAt, ih (by omega), hindex (2 - n) (by omega) (by omega)]

/-- **Only the words on the way matter.** -/
theorem entryAt_congr (h : ∀ d < n, ∀ g e, s.entryAt root x d = some (g, e) →
    s'.word g (index x (3 - d)) = e)
    (hd : d < n) : s'.entryAt root x d = s.entryAt root x d := by
  induction d with
  | zero =>
    have hroot := h 0 hd root _ rfl
    rw [entryAt, entryAt]
    exact congrArg (fun w => some (root, w)) hroot
  | succ d ih =>
    have hword := h (d + 1) hd
    rw [show 3 - (d + 1) = 2 - d by omega] at hword
    rw [entryAt] at hword
    rw [entryAt, entryAt, ih (by omega)]
    cases hat : s.entryAt root x d with
    | none => rfl
    | some p =>
      obtain ⟨g, e⟩ := p
      rw [hat] at hword
      dsimp only at hword ⊢
      split
      · next hlead => exact congrArg (fun w => some (e &&& addrMask, w)) (hword _ _ (if_pos hlead))
      · rfl

theorem entryAt_table (h : ∀ n < d, s'.entryAt root x n = s.entryAt root x n)
    (hat : s.entryAt root x d = some (g, e)) :
    s'.entryAt root x d = some (g, s'.word g (index x (3 - d))) := by
  cases d with
  | zero =>
    cases hat
    rfl
  | succ d =>
    obtain ⟨g', e', hd, hlead, hg, -⟩ := entryAt_succ.mp hat
    refine entryAt_succ.mpr ⟨g', e', (h d d.lt_succ_self).trans hd, hlead, hg, ?_⟩
    rw [show 3 - (d + 1) = 2 - d by omega]

theorem not_mapped_of_absent (h : s.entryAt root x d = some (g, e)) (he : e &&& present = 0) :
    ¬s.Mapped root x := by
  rintro ⟨n, e', ⟨g', hn⟩, hpresent, hleaf⟩
  rcases lt_trichotomy n d with hlt | rfl | hlt
  · obtain ⟨g1, e1, h1, hlead⟩ := leads_of_lt h hlt
    rw [hn] at h1
    cases h1
    rcases hleaf with rfl | hhuge
    · exact absurd (depth_le h) (by omega)
    · exact hhuge hlead.2
  · rw [hn] at h
    cases h
    exact hpresent he
  · obtain ⟨g1, e1, h1, hlead⟩ := leads_of_lt hn hlt
    rw [h] at h1
    cases h1
    exact hlead.1 he

theorem mapped_congr (h : s'.entryAt root x = s.entryAt root x) :
    s'.Mapped root x ↔ s.Mapped root x := by
  simp only [Mapped, Leaf, h]

/-! ### Translating -/

theorem translate_eq (h : s.entryAt root x d = some (g, e)) :
    s.translate root x = s.translateFrom x (4 - d) g := by
  induction d generalizing g e with
  | zero =>
    cases h
    rfl
  | succ d ih =>
    obtain ⟨g', e', hd, hlead, rfl, -⟩ := entryAt_succ.mp h
    have hword := word_of_entryAt hd
    rw [ih hd, show 4 - d = 3 - d + 1 by omega, translateFrom]
    rw [hword, if_neg hlead.2.1, if_neg (by rw [not_or, not_not]; exact ⟨by omega, hlead.2.2⟩),
      show 3 - d = 4 - (d + 1) by omega]

theorem Leaf.translate_eq (h : s.Leaf root x d e) :
    s.translate root x = some (pageOf x (3 - d) e) := by
  obtain ⟨⟨g, hat⟩, hpresent, hleaf⟩ := h
  have hd := depth_le hat
  rw [Mem.translate_eq hat, show 4 - d = 3 - d + 1 by omega, translateFrom]
  rw [word_of_entryAt hat, if_neg hpresent, if_pos (hleaf.imp_left (by omega))]

/-- **An address no page holds translates to nothing.** -/
theorem translate_eq_none (h : ¬s.Mapped root x) : s.translate root x = none := by
  -- going down, as long as a table is found
  have hdown : ∀ n d g e, s.entryAt root x d = some (g, e) → d + n = 3 →
      s.translateFrom x (n + 1) g = none := by
    intro n
    induction n with
    | zero =>
      intro d g e hat hd
      have habsent : s.word g (index x 0) &&& present = 0 := by
        by_contra hpresent
        have hword := word_of_entryAt hat
        rw [show 3 - d = 0 by omega] at hword
        exact h ⟨d, e, ⟨g, hat⟩, hword ▸ hpresent, Or.inl hd⟩
      rw [translateFrom]
      exact if_pos habsent
    | succ n ih =>
      intro d g e hat hd
      have hword := word_of_entryAt hat
      rw [show 3 - d = n + 1 by omega] at hword
      rw [translateFrom]
      rw [hword]
      split
      · rfl
      · next hpresent =>
        have hhuge : e &&& hugePage = 0 := by
          by_contra hhuge
          exact h ⟨d, e, ⟨g, hat⟩, hpresent, Or.inr hhuge⟩
        rw [if_neg (by rw [not_or, not_not]; exact ⟨Nat.succ_ne_zero n, hhuge⟩)]
        exact ih (d + 1) _ _ (entryAt_succ.mpr ⟨g, e, hat, ⟨by omega, hpresent, hhuge⟩, rfl,
          rfl⟩) (by omega)
  exact hdown 3 0 root _ rfl rfl

theorem mapped_iff : s.Mapped root x ↔ s.translate root x ≠ none := by
  constructor
  · rintro ⟨d, e, hleaf⟩
    rw [hleaf.translate_eq]
    exact nofun
  · intro h
    by_contra hnot
    exact h (translate_eq_none hnot)

theorem translate_congr (h : s'.entryAt root x = s.entryAt root x) :
    s'.translate root x = s.translate root x := by
  by_cases hmapped : s.Mapped root x
  · obtain ⟨d, e, hleaf⟩ := hmapped
    have hleaf' : s'.Leaf root x d e := by rwa [Leaf, h]
    rw [hleaf.translate_eq, hleaf'.translate_eq]
  · rw [translate_eq_none hmapped, translate_eq_none (mt (mapped_congr h).mp hmapped)]

end Mem

/-! ### Tables that are reached in one place only -/

/-- **The tables below `root` are its own**: each may be looked at and changed, and is reached in
one place only. -/
structure Unshared (D : Set ℕ) (root : ℕ) (s : Mem) : Prop where
  subset : D ⊆ s.taken
  usable : ∀ x d g e, s.entryAt root x d = some (g, e) → Usable D s g
  once : ∀ x y d d' g e e', s.entryAt root x d = some (g, e) → s.entryAt root y d' = some (g, e') →
    d = d' ∧ pos x (4 - d) = pos y (4 - d)

variable {D : Set ℕ} {root v x d g e w : ℕ} {s : Mem}

theorem wp_translate (hs : Unshared D root s) (x : ℕ) :
    wp (spec D) (translate root x) (fun r s' => r = s.translate root x ∧ s' = s) s := by
  have hdown : ∀ n d g e, s.entryAt root x d = some (g, e) → d + n = 3 →
      wp (spec D) (translateFrom x (n + 1) g) (fun r s' => r = s.translateFrom x (n + 1) g ∧
        s' = s) s := by
    intro n
    induction n with
    | zero =>
      intro d g e hat hd
      rw [translateFrom, Mem.translateFrom, bind_eq, wp_bind, wp_word]
      refine ⟨⟨hs.usable x d g e hat, index_lt x 0⟩, ?_⟩
      split
      · exact ⟨rfl, rfl⟩
      · rw [if_pos (Or.inl rfl), if_pos (Or.inl rfl)]
        exact ⟨rfl, rfl⟩
    | succ n ih =>
      intro d g e hat hd
      have hword := Mem.word_of_entryAt hat
      rw [show 3 - d = n + 1 by omega] at hword
      rw [translateFrom, Mem.translateFrom, bind_eq, wp_bind, wp_word]
      refine ⟨⟨hs.usable x d g e hat, index_lt x (n + 1)⟩, ?_⟩
      rw [hword]
      split
      · exact ⟨rfl, rfl⟩
      · next hpresent =>
        split
        · exact ⟨rfl, rfl⟩
        · next hhuge =>
          rw [not_or, not_not] at hhuge
          exact ih (d + 1) _ _
            (Mem.entryAt_succ.mpr ⟨g, e, hat, ⟨by omega, hpresent, hhuge.2⟩, rfl, rfl⟩) (by omega)
  exact hdown 3 0 root _ rfl rfl

namespace Unshared

/-- Filling an absent entry leaves every way that does not pass through it. -/
theorem entryAt_set_of_ne (hs : Unshared D root s) (hat : s.entryAt root v d = some (g, e))
    (hpos : pos x (3 - d) ≠ pos v (3 - d)) :
    (s.setWord g (index v (3 - d)) w).entryAt root x = s.entryAt root x := by
  funext n
  refine Mem.entryAt_congr (n := n + 1) (fun d' _ g' e' hat' => ?_) n.lt_succ_self
  rw [← Mem.word_of_entryAt hat']
  refine Mem.word_setWord_of_ne ?_
  rintro ⟨rfl, hindex⟩
  obtain ⟨rfl, hup⟩ := hs.once x v d' d g' e' e hat' hat
  have hd := Mem.depth_le hat
  rw [show 4 - d' = 3 - d' + 1 by omega] at hup
  exact hpos (by rw [← pos_eq (show 3 - d' ≤ 3 by omega), hup, hindex, pos_eq (by omega)])

/-- Filling an absent entry leaves the ways that pass through it as they were up to there. -/
theorem entryAt_set_of_eq (hs : Unshared D root s) (hat : s.entryAt root v d = some (g, e))
    (hpos : pos x (3 - d) = pos v (3 - d)) (hw : w < 2 ^ 64) :
    (∀ n < d, (s.setWord g (index v (3 - d)) w).entryAt root x n = s.entryAt root x n) ∧
      (s.setWord g (index v (3 - d)) w).entryAt root x d = some (g, w) := by
  have hd := Mem.depth_le hat
  have hatx : s.entryAt root x d = some (g, e) := (Mem.entryAt_of_pos hd hpos le_rfl).trans hat
  have habove : ∀ n < d, (s.setWord g (index v (3 - d)) w).entryAt root x n =
      s.entryAt root x n := by
    intro n hn
    refine Mem.entryAt_congr (fun d' hd' g' e' hat' => ?_) hn
    rw [← Mem.word_of_entryAt hat']
    refine Mem.word_setWord_of_ne ?_
    rintro ⟨rfl, -⟩
    exact absurd (hs.once x v d' d g' e' e hat' hat).1 (by omega)
  refine ⟨habove, (Mem.entryAt_table habove hatx).trans ?_⟩
  have hindex : index x (3 - d) = index v (3 - d) := by
    rw [index_eq (by omega), index_eq (by omega), hpos]
  rw [hindex, Mem.word_setWord_self (index_lt v _) hw]

end Unshared

end RelayOs.Mm
