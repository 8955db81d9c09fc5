import RelayOs.Memory.Translate

/-!
# What mapping for the kernel may change

A page is asked for by the address it is to hold, the physical address there and the cache type
(`RelayOs.Mm.KernelMap.Asked`). Each step of the kernel's mapping code fills one absent entry,
with a table or with a page asked for, and so leaves every address that has a page with it. That
is a relation between the memory before and after (`RelayOs.Mm.KernelMap.Extends`), and one that
composes.
-/

namespace RelayOs.Mm

open Prog

/-- The first address of the upper half; PML4 entries 256-511. -/
def upperHalf : ℕ := 0xFFFF800000000000

/-- **An address the CPU takes**: its upper 16 bits are all as bit 47. -/
def Canonical (x : ℕ) : Prop := x < lowerHalfEnd ∨ upperHalf ≤ x ∧ x < 2 ^ 64

namespace KernelMap

/-! ### What is asked for -/

/-- The size of the pages whose entries are found after `d` tables. -/
def sizeAt (d : ℕ) : ℕ := 2 ^ (12 + 9 * (3 - d))

/-- The flags of an entry for such a page. -/
def flagsAt (d : ℕ) (cache : Cache) : ℕ :=
  if d = 3 then kernelFlags cache else kernelFlags cache ||| hugePage

/-- The entry asked for, where `y` is to be mapped by such a page. -/
def wanted (d y : ℕ) (cache : Cache) : ℕ := (y - y % sizeAt d) ||| flagsAt d cache

/-- **The address is mapped as asked for**: to `y`, by a page of 4 KiB or 2 MiB. -/
def Asked (s : Mem) (root x y : ℕ) (cache : Cache) : Prop :=
  ∃ d g e, (d = 2 ∨ d = 3) ∧ s.entryAt root x d = some (g, e) ∧ same e (wanted d y cache) = true ∧
    y % sizeAt d = x % sizeAt d ∧
    ∀ n < d, ∀ g' e', s.entryAt root x n = some (g', e') → e' &&& tableFlags x = tableFlags x

section Bits

variable {d y e m : ℕ} {cache : Cache}

section

variable (hd : d = 2 ∨ d = 3)

include hd

theorem sizeAt_eq : (d = 2 ∧ sizeAt d = huge) ∨ (d = 3 ∧ sizeAt d = page) := by
  rcases hd with rfl | rfl
  · exact Or.inl ⟨rfl, by decide⟩
  · exact Or.inr ⟨rfl, by decide⟩

theorem isFrame_base (hy : y < 2 ^ 52) : IsFrame (y - y % sizeAt d) := by
  rw [IsFrame, and_addrMask, page]
  rcases hd with rfl | rfl
  · rw [show sizeAt 2 = 2097152 by decide]
    omega
  · rw [show sizeAt 3 = 4096 by decide]
    omega

theorem wanted_and (hy : y < 2 ^ 52) (hm : addrMask &&& m = 0) :
    wanted d y cache &&& m = flagsAt d cache &&& m := by
  rw [wanted, Nat.and_or_distrib_right, (isFrame_base hd hy).and_eq_zero hm, Nat.zero_or]

theorem wanted_addr (hy : y < 2 ^ 52) : wanted d y cache &&& addrMask = y - y % sizeAt d := by
  have hflags : flagsAt d cache &&& addrMask = 0 := by
    rcases hd with rfl | rfl <;> cases cache <;> decide
  rw [wanted, Nat.and_or_distrib_right, isFrame_base hd hy, hflags, Nat.or_zero]

theorem wanted_lt (hy : y < 2 ^ 52) : wanted d y cache < 2 ^ 64 := by
  refine Nat.or_lt_two_pow (by omega) ?_
  rcases hd with rfl | rfl <;> cases cache <;> decide

end

theorem wanted_page (cache : Cache) (hd : d = 2 ∨ d = 3) (hy : y < 2 ^ 52) :
    wanted d y cache &&& present ≠ 0 ∧ wanted d y cache &&& user = 0 ∧
      ¬(d < 3 ∧ Leads (wanted d y cache)) := by
  refine ⟨?_, ?_, ?_⟩
  · rw [wanted_and hd hy (by decide)]
    rcases hd with rfl | rfl <;> cases cache <;> decide
  · rw [wanted_and hd hy (by decide)]
    rcases hd with rfl | rfl <;> cases cache <;> decide
  · rintro ⟨hlt, hlead⟩
    obtain rfl : d = 2 := by omega
    rw [Leads, wanted_and (Or.inl rfl) hy (by decide),
      wanted_and (Or.inl rfl) hy (by decide)] at hlead
    revert hlead
    cases cache <;> decide

section

variable (hd : d = 2 ∨ d = 3) (hy : y < 2 ^ 52)

include hd hy

theorem same_wanted : same (wanted d y cache) (wanted d y cache) = true := by
  have hclear : wanted d y cache &&& (accessed ||| dirty) = 0 := by
    rw [wanted_and hd hy (by decide)]
    rcases hd with rfl | rfl <;> cases cache <;> decide
  rw [same, hclear]
  exact decide_eq_true (Nat.sub_zero _)

theorem and_of_wanted (he : same e (wanted d y cache) = true)
    (hm : m &&& (accessed ||| dirty) = 0) (ha : addrMask &&& m = 0) :
    e &&& m = flagsAt d cache &&& m := by
  rw [and_of_same he hm, wanted_and hd hy ha]

theorem addr_of_wanted (he : same e (wanted d y cache) = true) :
    e &&& addrMask = y - y % sizeAt d := by
  rw [and_of_same he (by decide), wanted_addr hd hy]

theorem bits_of_wanted (he : same e (wanted d y cache) = true) :
    e &&& present ≠ 0 ∧ e &&& writable ≠ 0 ∧ e &&& noExecute ≠ 0 ∧ e &&& user = 0 ∧
      Cache.ofEntry e = cache ∧
      (e &&& hugePage ≠ 0 ↔ d = 2) := by
  have hbits : ∀ m, m &&& (accessed ||| dirty) = 0 → addrMask &&& m = 0 →
      e &&& m = flagsAt d cache &&& m :=
    fun m => and_of_wanted hd hy he
  rw [Cache.ofEntry, hbits _ (by decide) (by decide), hbits writable (by decide) (by decide),
    hbits noExecute (by decide) (by decide), hbits user (by decide) (by decide),
    hbits hugePage (by decide) (by decide), hbits (pwt ||| pcd) (by decide) (by decide)]
  rcases hd with rfl | rfl <;> cases cache <;> decide

end

end Bits

/-! ### Pages mapped as asked for -/

section Asked

variable {s s' : Mem} {root x y : ℕ} {cache : Cache}

theorem Asked.congr (h : Asked s root x y cache) (hsame : s'.entryAt root x = s.entryAt root x) :
    Asked s' root x y cache := by
  rwa [Asked, hsame]

theorem Asked.mapped (h : Asked s root x y cache) (hy : y < 2 ^ 52) : s.Mapped root x := by
  obtain ⟨d, g, e, hd, hat, hsame, -⟩ := h
  obtain ⟨hpresent, -, -, -, -, hhuge⟩ := bits_of_wanted hd hy hsame
  exact ⟨d, e, ⟨g, hat⟩, hpresent, hd.symm.imp_right hhuge.mpr⟩

/-- The entries on the way carry no user bit. -/
def NoUser (s : Mem) (root x : ℕ) : Prop :=
  ∀ n g e, s.entryAt root x n = some (g, e) → e &&& user = 0

/-- **What an address is to be**: it translates to `y` with the cache type, writable all the way,
not executable, and without the user bit at any level. -/
structure IsAsked (s : Mem) (root x y : ℕ) (cache : Cache) : Prop where
  translates : ∃ size, (size = page ∨ size = huge) ∧ s.translate root x = some (y, cache, size)
  writable : ∀ n g e, s.entryAt root x n = some (g, e) → e &&& Mm.writable ≠ 0
  noExecute : ∃ d e, s.Leaf root x d e ∧ e &&& Mm.noExecute ≠ 0
  user : NoUser s root x

theorem depth_le_of_leaf {d n e : ℕ} {p : ℕ × ℕ} (h : s.Leaf root x d e)
    (hn : s.entryAt root x n = some p) :
    n ≤ d := by
  by_contra hlt
  obtain ⟨⟨g, hat⟩, -, hleaf⟩ := h
  obtain ⟨g', e', hat', hlead⟩ := Mem.leads_of_lt (g := p.1) (e := p.2) hn (Nat.lt_of_not_le hlt)
  rw [hat] at hat'
  cases hat'
  rcases hleaf with rfl | hhuge
  · exact absurd (Mem.depth_le (g := p.1) (e := p.2) hn) (by omega)
  · exact hhuge hlead.2

theorem writable_of_tableFlags {e : ℕ} (h : e &&& tableFlags x = tableFlags x) :
    e &&& writable ≠ 0 := by
  have hflag : tableFlags x &&& writable = writable := by
    rw [tableFlags]
    split <;> decide
  rw [← h, Nat.and_assoc] at hflag
  intro hzero
  rw [Nat.and_comm (tableFlags x), ← Nat.and_assoc, hzero, Nat.zero_and] at hflag
  exact absurd hflag (by decide)

theorem Asked.isAsked (h : Asked s root x y cache) (hy : y < 2 ^ 52) (huser : NoUser s root x) :
    IsAsked s root x y cache := by
  obtain ⟨d, g, e, hd, hat, hsame, hmod, habove⟩ := h
  obtain ⟨hpresent, hwritable, hexec, -, hcache, hhuge⟩ := bits_of_wanted hd hy hsame
  have hleaf : s.Leaf root x d e := ⟨⟨g, hat⟩, hpresent, hd.symm.imp_right hhuge.mpr⟩
  refine ⟨⟨sizeAt d, ?_, ?_⟩, fun n g' e' hn => ?_, ⟨d, e, hleaf, hexec⟩, huser⟩
  · exact (sizeAt_eq hd).symm.imp And.right And.right
  · have hbase : (y - y % sizeAt d) % sizeAt d = 0 :=
      Nat.sub_mod_eq_zero_of_mod_eq (Nat.mod_mod _ _).symm
    rw [hleaf.translate_eq, pageOf]
    change some (_ - _ % sizeAt d + x % sizeAt d, _, sizeAt d) = _
    rw [addr_of_wanted hd hy hsame, hcache, hbase, ← hmod, Nat.sub_zero,
      Nat.sub_add_cancel (Nat.mod_le _ _)]
  · rcases Nat.lt_or_eq_of_le (depth_le_of_leaf hleaf hn) with hlt | rfl
    · exact writable_of_tableFlags (habove n hlt g' e' hn)
    · rw [hat] at hn
      cases hn
      exact hwritable

end Asked

/-! ### What a call may change -/

/-- **A range of the kernel's to map**: whole pages, in the upper half, to physical memory. -/
structure Range (virt phys len : ℕ) : Prop where
  upper : upperHalf ≤ virt
  stop_le : virt + len ≤ 2 ^ 64
  phys_le : phys + len ≤ 2 ^ 52
  aligned : virt % page = 0 ∧ phys % page = 0 ∧ len % page = 0

theorem Range.or_mod {virt phys len : ℕ} (hr : Range virt phys len) :
    (virt ||| phys ||| len) % page = 0 := by
  rw [or_mod_eq hr.aligned.2.2, or_mod_eq hr.aligned.2.1]
  exact hr.aligned.1

section Extends

variable (root virt phys len : ℕ) (cache : Cache)

/-- **Nothing is changed but as asked for.** Every address that had a page has it still, by the
same tables; one that had none has none, or lies in the range and is mapped as asked for; and no
user bit is set. -/
structure Extends (s s' : Mem) : Prop where
  kept : ∀ x, Canonical x → s.Mapped root x → s'.entryAt root x = s.entryAt root x
  filled : ∀ x, Canonical x → ¬s.Mapped root x →
    ¬s'.Mapped root x ∨ (virt ≤ x ∧ x < virt + len) ∧ Asked s' root x (phys + (x - virt)) cache
  user : ∀ x, upperHalf ≤ x → x < 2 ^ 64 → NoUser s root x → NoUser s' root x

variable {root virt phys len cache} {s s1 s2 : Mem}

theorem Extends.refl (s : Mem) : Extends root virt phys len cache s s :=
  ⟨fun _ _ _ => rfl, fun _ _ h => Or.inl h, fun _ _ _ h => h⟩

theorem Extends.trans (hr : Range virt phys len) (h : Extends root virt phys len cache s s1)
    (h' : Extends root virt phys len cache s1 s2) : Extends root virt phys len cache s s2 where
  kept x hx hmapped := by
    have hsame := h.kept x hx hmapped
    exact (h'.kept x hx ((Mem.mapped_congr hsame).mpr hmapped)).trans hsame
  filled x hx hmapped := by
    rcases h.filled x hx hmapped with hnot | ⟨hin, hasked⟩
    · exact h'.filled x hx hnot
    · have hphys := hr.phys_le
      have hsame := h'.kept x hx (hasked.mapped (by omega))
      exact Or.inr ⟨hin, hasked.congr hsame⟩
  user x hx hlt hno := h'.user x hx hlt (h.user x hx hlt hno)

/-- What is mapped as asked for stays so. -/
theorem Extends.asked {x y : ℕ} (h : Extends root virt phys len cache s s1) (hx : Canonical x)
    (hy : y < 2 ^ 52)
    (hasked : Asked s root x y cache) : Asked s1 root x y cache :=
  hasked.congr (h.kept x hx (hasked.mapped hy))

end Extends

/-! ### Filling an entry -/

section Fill

variable {D : Set ℕ} {root virt phys len v x d n g g' e e' f w : ℕ} {cache : Cache} {s : Mem}

theorem entryAt_set (hs : Unshared D root s) (hat : s.entryAt root v d = some (g, e))
    (hw : w < 2 ^ 64)
    (h : (s.setWord g (index v (3 - d)) w).entryAt root x n = some (g', e')) :
    s.entryAt root x n = some (g', e') ∨
      pos x (3 - d) = pos v (3 - d) ∧ ((n = d ∧ g' = g ∧ e' = w) ∨ d < n ∧ d < 3 ∧ Leads w) := by
  by_cases hpos : pos x (3 - d) = pos v (3 - d)
  · obtain ⟨habove, hthere⟩ := hs.entryAt_set_of_eq hat hpos hw
    rcases lt_trichotomy n d with hlt | rfl | hlt
    · exact Or.inl ((habove n hlt).symm.trans h)
    · rw [hthere] at h
      cases h
      exact Or.inr ⟨hpos, Or.inl ⟨rfl, rfl, rfl⟩⟩
    · obtain ⟨g1, e1, hd, hlead⟩ := Mem.leads_of_lt h hlt
      rw [hthere] at hd
      cases hd
      exact Or.inr ⟨hpos, Or.inr ⟨hlt, lt_of_lt_of_le hlt (Mem.depth_le h), hlead⟩⟩
  · rw [hs.entryAt_set_of_ne hat hpos] at h
    exact Or.inl h

theorem pos_ne_of_mapped (hat : s.entryAt root v d = some (g, e)) (he : e &&& present = 0)
    (hx : s.Mapped root x) : pos x (3 - d) ≠ pos v (3 - d) := fun hpos =>
  Mem.not_mapped_of_absent ((Mem.entryAt_of_pos (Mem.depth_le hat) hpos le_rfl).trans hat) he hx

/-- **An absent entry is filled with a page.** -/
theorem fill_page (hs : Unshared D root s) (hat : s.entryAt root v d = some (g, e))
    (he : e &&& present = 0)
    (hw : w < 2 ^ 64) (huser : w &&& user = 0) (hpage : ¬(d < 3 ∧ Leads w))
    (hasked : ∀ x, Canonical x → pos x (3 - d) = pos v (3 - d) → (virt ≤ x ∧ x < virt + len) ∧
      Asked (s.setWord g (index v (3 - d)) w) root x (phys + (x - virt)) cache) :
    Unshared D root (s.setWord g (index v (3 - d)) w) ∧
      Extends root virt phys len cache s (s.setWord g (index v (3 - d)) w) := by
  -- the tables are those there were
  have htable : ∀ x n g' e', (s.setWord g (index v (3 - d)) w).entryAt root x n = some (g', e') →
      ∃ e0, s.entryAt root x n = some (g', e0) := by
    intro x n g' e' h
    rcases entryAt_set hs hat hw h with h | ⟨hpos, ⟨rfl, rfl, rfl⟩ | ⟨-, hlead⟩⟩
    · exact ⟨e', h⟩
    · exact ⟨e, (Mem.entryAt_of_pos (Mem.depth_le hat) hpos le_rfl).trans hat⟩
    · exact absurd hlead hpage
  refine ⟨⟨hs.subset, fun x n g' e' h => ?_, fun x y n n' g' e1 e2 h1 h2 => ?_⟩, fun x _ hx => ?_,
    fun x hx hnot => ?_,
    fun x _ _ hno n g' e' h => ?_⟩
  · obtain ⟨e0, h0⟩ := htable x n g' e' h
    exact hs.usable x n g' e0 h0
  · obtain ⟨e0, h0⟩ := htable x n g' e1 h1
    obtain ⟨e0', h0'⟩ := htable y n' g' e2 h2
    exact hs.once x y n n' g' e0 e0' h0 h0'
  · exact hs.entryAt_set_of_ne hat (pos_ne_of_mapped hat he hx)
  · by_cases hpos : pos x (3 - d) = pos v (3 - d)
    · exact Or.inr (hasked x hx hpos)
    · exact Or.inl (mt (Mem.mapped_congr (hs.entryAt_set_of_ne hat hpos)).mp hnot)
  · rcases entryAt_set hs hat hw h with h | ⟨-, ⟨-, -, rfl⟩ | ⟨-, hlead⟩⟩
    · exact hno n g' e' h
    · exact huser
    · exact absurd hlead hpage

theorem entryAt_take (hs : Unshared D root s) (hf : f ∉ s.taken) (x : ℕ) :
    (s.take f).entryAt root x = s.entryAt root x := by
  funext n
  refine Mem.entryAt_congr (n := n + 1) (fun d _ g e hat => ?_) n.lt_succ_self
  have hne : g ≠ f := fun h => hf (h ▸ (hs.usable x d g e hat).1)
  rw [Mem.word_congr (Mem.content_take_of_ne hne), Mem.word_of_entryAt hat]

theorem unshared_take (hs : Unshared D root s) (hf : f ∉ s.taken) : Unshared D root (s.take f) := by
  refine ⟨hs.subset.trans (Set.subset_insert f _), ?_, ?_⟩
  · intro x d g e hat
    rw [entryAt_take hs hf] at hat
    exact ⟨Or.inr (hs.usable x d g e hat).1, (hs.usable x d g e hat).2⟩
  · intro x y d d' g e e' h h'
    rw [entryAt_take hs hf] at h h'
    exact hs.once x y d d' g e e' h h'

theorem table_entry (hf : IsFrame f) (hv : upperHalf ≤ v) :
    (f ||| tableFlags v) &&& addrMask = f ∧ f ||| tableFlags v < 2 ^ 64 ∧
      Leads (f ||| tableFlags v) ∧
      (f ||| tableFlags v) &&& user = 0 ∧ (f ||| tableFlags v) &&& tableFlags v = tableFlags v := by
  have hflags : tableFlags v = present ||| writable :=
    if_neg (Nat.not_lt.mpr (le_trans (by decide : lowerHalfEnd ≤ upperHalf) hv))
  have hbits : ∀ m, addrMask &&& m = 0 →
      (f ||| tableFlags v) &&& m = (present ||| writable) &&& m := by
    intro m hm
    rw [hflags, Nat.and_or_distrib_right, hf.and_eq_zero hm, Nat.zero_or]
  refine ⟨?_, ?_, ⟨?_, ?_⟩, ?_, ?_⟩
  · rw [hflags, Nat.and_or_distrib_right, hf]
    exact Nat.or_zero f
  · have hlt : f < 2 ^ 64 := lt_of_le_of_lt (hf ▸ Nat.and_le_right) (by decide)
    exact Nat.or_lt_two_pow hlt (by rw [hflags]; decide)
  · rw [hbits _ (by decide)]
    decide
  · rw [hbits _ (by decide)]
    decide
  · rw [hbits _ (by decide)]
    decide
  · rw [hbits _ (by rw [hflags]; decide), hflags]
    decide

/-- **An absent entry is filled with a table**, an empty one. -/
theorem fill_table (hs : Unshared D root s) (hat : s.entryAt root v d = some (g, e))
    (he : e &&& present = 0)
    (hd : d < 3) (hv : upperHalf ≤ v) (hf : f ∉ s.taken) (hframe : IsFrame f) :
    let s' := (s.take f).setWord g (index v (3 - d)) (f ||| tableFlags v)
    Unshared D root s' ∧ (∀ virt phys len cache, Extends root virt phys len cache s s') ∧
      (∀ n < d, s'.entryAt root v n = s.entryAt root v n) ∧
      s'.entryAt root v d = some (g, f ||| tableFlags v) ∧
        s'.entryAt root v (d + 1) = some (f, 0) := by
  intro s'
  obtain ⟨haddr, hlt, hlead, huser, -⟩ := table_entry hframe hv
  have hs1 := unshared_take hs hf
  have hways := entryAt_take hs hf
  have hat1 : (s.take f).entryAt root v d = some (g, e) := by rw [hways, hat]
  have hgf : g ≠ f := fun h => hf (h ▸ (hs.usable v d g e hat).1)
  -- below the new table there is nothing
  have hnew : ∀ x, pos x (3 - d) = pos v (3 - d) → s'.entryAt root x (d + 1) = some (f, 0) := by
    intro x hpos
    refine Mem.entryAt_succ.mpr ⟨g, _, (hs1.entryAt_set_of_eq hat1 hpos hlt).2, ⟨hd, hlead⟩,
      haddr.symm, ?_⟩
    rw [Mem.word_setWord_of_ne (fun h => hgf h.1.symm), Mem.word_take_self]
  have hcases : ∀ x n g' e', s'.entryAt root x n = some (g', e') →
      s.entryAt root x n = some (g', e') ∨
      pos x (3 - d) = pos v (3 - d) ∧
        ((n = d ∧ g' = g ∧ e' = f ||| tableFlags v) ∨ n = d + 1 ∧ g' = f ∧ e' = 0) := by
    intro x n g' e' h
    rcases entryAt_set hs1 hat1 hlt h with h0 | ⟨hpos, hthere | ⟨hbeyond, -⟩⟩
    · exact Or.inl (hways x ▸ h0)
    · exact Or.inr ⟨hpos, Or.inl hthere⟩
    · rcases Nat.lt_or_eq_of_le (Nat.succ_le_of_lt hbeyond) with hfar | rfl
      · obtain ⟨g1, e1, h1, hlead1⟩ := Mem.leads_of_lt h hfar
        rw [hnew x hpos] at h1
        cases h1
        exact absurd (Nat.zero_and present) hlead1.1
      · rw [hnew x hpos] at h
        cases h
        exact Or.inr ⟨hpos, Or.inr ⟨rfl, rfl, rfl⟩⟩
  have htable : ∀ x n g' e', s'.entryAt root x n = some (g', e') →
      (∃ e0, s.entryAt root x n = some (g', e0)) ∨
      (n = d + 1 ∧ g' = f ∧ pos x (3 - d) = pos v (3 - d)) := by
    intro x n g' e' h
    rcases hcases x n g' e' h with h0 | ⟨hpos, ⟨rfl, rfl, -⟩ | ⟨rfl, rfl, -⟩⟩
    · exact Or.inl ⟨e', h0⟩
    · exact Or.inl ⟨e, (Mem.entryAt_of_pos hd.le hpos le_rfl).trans hat⟩
    · exact Or.inr ⟨rfl, rfl, hpos⟩
  refine ⟨⟨hs1.subset, fun x n g' e' h => ?_, fun x y n n' g' e1 e2 h1 h2 => ?_⟩,
    fun virt phys len cache =>
      ⟨fun x _ hx => ?_, fun x _ hnot => Or.inl ?_, fun x _ _ hno n g' e' h => ?_⟩,
    fun n hn => ?_, (hs1.entryAt_set_of_eq hat1 rfl hlt).2, hnew v rfl⟩
  · rcases htable x n g' e' h with ⟨e0, h0⟩ | ⟨-, rfl, -⟩
    · exact ⟨Or.inr (hs.usable x n g' e0 h0).1, (hs.usable x n g' e0 h0).2⟩
    · exact ⟨Or.inl rfl, fun hD => hf (hs.subset hD)⟩
  · rcases htable x n g' e1 h1 with ⟨e0, h0⟩ | ⟨rfl, rfl, hpos⟩ <;>
      rcases htable y n' g' e2 h2 with ⟨e0', h0'⟩ | ⟨rfl, hg, hpos'⟩
    · exact hs.once x y n n' g' e0 e0' h0 h0'
    · exact absurd (hs.usable x n g' e0 h0).1 (hg ▸ hf)
    · exact absurd (hs.usable y n' _ e0' h0').1 hf
    · refine ⟨rfl, ?_⟩
      rw [show 4 - (d + 1) = 3 - d by omega, hpos, hpos']
  · exact (hs1.entryAt_set_of_ne hat1 (pos_ne_of_mapped hat he hx)).trans (hways x)
  · by_cases hpos : pos x (3 - d) = pos v (3 - d)
    · exact Mem.not_mapped_of_absent (hnew x hpos) (Nat.zero_and present)
    · exact mt (Mem.mapped_congr ((hs1.entryAt_set_of_ne hat1 hpos).trans (hways x))).mp hnot
  · rcases hcases x n g' e' h with h0 | ⟨-, ⟨-, -, rfl⟩ | ⟨-, -, rfl⟩⟩
    · exact hno n g' e' h0
    · exact huser
    · exact Nat.zero_and user
  · rw [(hs1.entryAt_set_of_eq hat1 rfl hlt).1 n hn, hways]

end Fill

end KernelMap

end RelayOs.Mm
