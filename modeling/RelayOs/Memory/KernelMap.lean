import RelayOs.Memory.Extends

/-!
# Mapping for the kernel

`RelayOs.Mm.map` maps a range of the upper half with 2 MiB pages where it can and 4 KiB pages where
it must, into whatever tables are there. Its steps compose, so that a whole call – one that fails in
the middle too – changes nothing but as asked for (`RelayOs.Mm.KernelMap.map_exact`).
-/

namespace RelayOs.Mm

open Prog

namespace KernelMap

/-! ### Going down the tables -/

section Steps

variable {D : Set ℕ} {root virt phys len v d g : ℕ} {cache : Cache} {s : Mem} {α β : Type}

/-- **A step of mapping**: it changes nothing but as asked for, and on success its result is as
`Q` says. -/
def Goes (D : Set ℕ) (root virt phys len : ℕ) (cache : Cache) (s : Mem) (Q : α → Mem → Prop)
    (r : Except MapError α) (s' : Mem) : Prop :=
  Unshared D root s' ∧ Extends root virt phys len cache s s' ∧ ∀ a, r = .ok a → Q a s'

/-- One step after another. -/
theorem Goes.bind {x : MapM α} {f : α → MapM β} {Q : α → Mem → Prop} {R : β → Mem → Prop}
    (hr : Range virt phys len) (hx : wp (spec D) x.run (Goes D root virt phys len cache s Q) s)
    (hf : ∀ a s', Unshared D root s' → Extends root virt phys len cache s s' → Q a s' →
      wp (spec D) (f a).run (Goes D root virt phys len cache s' R) s') :
    wp (spec D) (x >>= f).run (Goes D root virt phys len cache s R) s := by
  rw [wp_except_bind]
  refine wp_mono hx fun r s' => ?_
  rintro ⟨hs', hext, hq⟩
  cases r with
  | error e => exact ⟨hs', hext, nofun⟩
  | ok a =>
    refine wp_mono (hf a s' hs' hext (hq a rfl)) fun r' s'' => ?_
    rintro ⟨hs'', hext', hq'⟩
    exact ⟨hs'', hext.trans hr hext', hq'⟩

/-- A step that changes nothing. -/
theorem Goes.same {Q : α → Mem → Prop} {r : Except MapError α} (hs : Unshared D root s)
    (hq : ∀ a, r = .ok a → Q a s) :
    Goes D root virt phys len cache s Q r s := ⟨hs, Extends.refl s, hq⟩

/-- The table `g` is found on the way to `v` after `d` tables, by entries with the flags looked for.
-/
def Reaches (s : Mem) (root v d g : ℕ) : Prop :=
  (∃ e, s.entryAt root v d = some (g, e)) ∧
    ∀ n < d, ∀ g' e', s.entryAt root v n = some (g', e') → e' &&& tableFlags v = tableFlags v

theorem reaches_zero : Reaches s root v 0 root :=
  ⟨⟨_, rfl⟩, fun n hn => absurd hn (Nat.not_lt_zero n)⟩

/-- Going down by an entry with the flags looked for. -/
theorem Reaches.succ {s' : Mem} {f e e' : ℕ} (hg : Reaches s root v d g)
    (hsame : ∀ n < d, s'.entryAt root v n = s.entryAt root v n)
    (hat : s'.entryAt root v d = some (g, e))
    (he : e &&& tableFlags v = tableFlags v) (hnext : s'.entryAt root v (d + 1) = some (f, e')) :
    Reaches s' root v (d + 1) f := by
  refine ⟨⟨e', hnext⟩, fun n hn g1 e1 h1 => ?_⟩
  rcases Nat.lt_succ_iff_lt_or_eq.mp hn with hlt | rfl
  · exact hg.2 n hlt g1 e1 (hsame n hlt ▸ h1)
  · rw [hat] at h1
    cases h1
    exact he

theorem wp_child (hs : Unshared D root s) (hv : upperHalf ≤ v) (hd : d < 3)
    (hg : Reaches s root v d g) :
    wp (spec D) (child g (index v (3 - d)) v).run
      (Goes D root virt phys len cache s fun f s' => Reaches s' root v (d + 1) f) s := by
  obtain ⟨e, hat⟩ := hg.1
  have hword := Mem.word_of_entryAt hat
  have husable := hs.usable v d g e hat
  rw [child]
  simp only [wp_except_bind, wp_lift, wp_word]
  refine ⟨⟨husable, index_lt v _⟩, ?_⟩
  rw [hword]
  split
  · next habsent =>
    rw [makeChild, wp_except_bind, wp_newFrame]
    refine ⟨fun _ => .same hs (by simp), fun f hf hframe => ?_⟩
    obtain ⟨hs', hext, habove, hthere, hnext⟩ := fill_table hs hat habsent hd hv hf hframe
    obtain ⟨-, hlt, -, -, hflags⟩ := table_entry hframe hv
    simp only [wp_except_bind, wp_lift, wp_setWord]
    refine ⟨⟨⟨Or.inr husable.1, husable.2⟩, index_lt v _, hlt⟩, hs', hext virt phys len cache, ?_⟩
    rintro a ⟨⟩
    exact hg.succ habove hthere hflags hnext
  · next hpresent =>
    split
    · exact .same hs (by simp)
    · next hok =>
      rw [not_or, not_not, not_not] at hok
      refine .same hs ?_
      rintro a ⟨⟩
      exact hg.succ (fun _ _ => rfl) hat hok.2
        (Mem.entryAt_succ.mpr ⟨g, e, hat, ⟨hd, hpresent, hok.1⟩, rfl, rfl⟩)

theorem wp_pdSlot (hr : Range virt phys len) (hs : Unshared D root s) (hv : upperHalf ≤ v) :
    wp (spec D) (pdSlot root v).run
      (Goes D root virt phys len cache s fun pd s' => Reaches s' root v 2 pd) s := by
  rw [pdSlot]
  refine Goes.bind hr (wp_child (d := 0) hs hv (by omega) reaches_zero)
    fun pdpt s1 hs1 _ hpdpt => ?_
  exact wp_child (d := 1) hs1 hv (by omega) hpdpt

end Steps

/-! ### Mapping a page -/

section Pages

variable {D : Set ℕ} {root virt phys len off v x y d g e : ℕ} {cache : Cache} {s : Mem}

theorem pos_eq_iff (hd : d = 2 ∨ d = 3) (hv : upperHalf ≤ v ∧ v < 2 ^ 64) (hmod : v % sizeAt d = 0)
    (hx : Canonical x) : pos x (3 - d) = pos v (3 - d) ↔ v ≤ x ∧ x < v + sizeAt d := by
  rw [Canonical, upperHalf, lowerHalfEnd] at hx
  rw [upperHalf] at hv
  rcases hd with rfl | rfl
  · rw [show sizeAt 2 = 2097152 by decide] at hmod ⊢
    rw [pos, pos, page]
    omega
  · rw [show sizeAt 3 = 4096 by decide] at hmod ⊢
    rw [pos, pos, page]
    omega

theorem tableFlags_upper (hx : upperHalf ≤ x) : tableFlags x = present ||| writable :=
  if_neg (Nat.not_lt.mpr (le_trans (by decide : lowerHalfEnd ≤ upperHalf) hx))

/-- What is found for one address of a page is found for every other. -/
theorem Reaches.asked (hg : Reaches s root v d g) (hat : s.entryAt root v d = some (g, e))
    (hd : d = 2 ∨ d = 3)
    (hpos : pos x (3 - d) = pos v (3 - d)) (hv : upperHalf ≤ v) (hx : upperHalf ≤ x)
    (hsame : same e (wanted d y cache) = true) (hmod : y % sizeAt d = x % sizeAt d) :
    Asked s root x y cache := by
  have hway : ∀ n ≤ d, s.entryAt root x n = s.entryAt root v n := fun n hn =>
    Mem.entryAt_of_pos (Mem.depth_le hat) hpos hn
  refine ⟨d, g, e, hd, (hway d le_rfl).trans hat, hsame, hmod, fun n hn g' e' h => ?_⟩
  rw [tableFlags_upper hx, ← tableFlags_upper hv]
  exact hg.2 n hn g' e' (hway n hn.le ▸ h)

theorem Reaches.asked_page (hr : Range virt phys len) (hd : d = 2 ∨ d = 3)
    (hoff : off + sizeAt d ≤ len)
    (hmod : (virt + off) % sizeAt d = 0 ∧ (phys + off) % sizeAt d = 0)
    (hg : Reaches s root (virt + off) d g)
    (hat : s.entryAt root (virt + off) d = some (g, e))
    (hsame : same e (wanted d (phys + off) cache) = true)
    (hx : virt + off ≤ x ∧ x < virt + off + sizeAt d) :
    Asked s root x (phys + (x - virt)) cache := by
  have hupper := hr.upper
  have hstop := hr.stop_le
  have hpos : 0 < sizeAt d := Nat.two_pow_pos _
  -- the offset in the page is that from its start
  obtain ⟨i, rfl⟩ := Nat.exists_eq_add_of_le hx.1
  have hi : i < sizeAt d := by omega
  have hy : phys + (virt + off + i - virt) = phys + off + i := by omega
  have hmod_add : ∀ a, a % sizeAt d = 0 → (a + i) % sizeAt d = i := by
    intro a ha
    rw [Nat.add_mod, ha, Nat.zero_add, Nat.mod_mod, Nat.mod_eq_of_lt hi]
  have hwanted : wanted d (phys + off + i) cache = wanted d (phys + off) cache := by
    rw [wanted, wanted, hmod_add _ hmod.2, hmod.2, Nat.add_sub_cancel, Nat.sub_zero]
  rw [hy]
  refine hg.asked hat hd ?_ (by omega) (by omega) (hwanted ▸ hsame) ?_
  · exact (pos_eq_iff hd ⟨by omega, by omega⟩ hmod.1 (Or.inr ⟨by omega, by omega⟩)).mpr hx
  · rw [hmod_add _ hmod.1, hmod_add _ hmod.2]

/-- **A page asked for is put into an absent entry.** -/
theorem fill_wanted (cache : Cache) (hr : Range virt phys len) (hs : Unshared D root s)
    (hd : d = 2 ∨ d = 3)
    (hoff : off + sizeAt d ≤ len) (hmod : (virt + off) % sizeAt d = 0 ∧ (phys + off) % sizeAt d = 0)
    (hg : Reaches s root (virt + off) d g) (hat : s.entryAt root (virt + off) d = some (g, e))
    (he : e &&& present = 0) :
    let s' := s.setWord g (index (virt + off) (3 - d)) (wanted d (phys + off) cache)
    Unshared D root s' ∧ Extends root virt phys len cache s s' ∧
      ∀ x, virt + off ≤ x ∧ x < virt + off + sizeAt d →
        Asked s' root x (phys + (x - virt)) cache := by
  intro s'
  have hupper := hr.upper
  have hstop := hr.stop_le
  have hphys := hr.phys_le
  have hpos : 0 < sizeAt d := Nat.two_pow_pos _
  have hy : phys + off < 2 ^ 52 := by omega
  have hlt : wanted d (phys + off) cache < 2 ^ 64 := wanted_lt hd hy
  obtain ⟨-, huser, hpage⟩ := wanted_page cache hd hy
  obtain ⟨habove, hthere⟩ := hs.entryAt_set_of_eq (x := virt + off) hat rfl hlt
  have hg' : Reaches s' root (virt + off) d g :=
    ⟨⟨_, hthere⟩, fun n hn g' e' h => hg.2 n hn g' e' (habove n hn ▸ h)⟩
  have hasked : ∀ x, virt + off ≤ x ∧ x < virt + off + sizeAt d →
      Asked s' root x (phys + (x - virt)) cache :=
    fun x hx => hg'.asked_page hr hd hoff hmod hthere (same_wanted hd hy) hx
  have hfill : Unshared D root s' ∧ Extends root virt phys len cache s s' := by
    refine fill_page hs hat he hlt huser hpage fun x hx hpos => ?_
    have hin := (pos_eq_iff hd ⟨by omega, by omega⟩ hmod.1 hx).mp hpos
    exact ⟨⟨by omega, by omega⟩, hasked x hin⟩
  exact ⟨hfill.1, hfill.2, hasked⟩

/-- The pages up to an offset are mapped as asked for. -/
def Done (s : Mem) (root virt phys : ℕ) (cache : Cache) (a b : ℕ) : Prop :=
  ∀ x, virt + a ≤ x ∧ x < virt + b → Asked s root x (phys + (x - virt)) cache

theorem wp_mapHuge (hr : Range virt phys len) (hs : Unshared D root s) (hoff : off + sizeAt 2 ≤ len)
    (hmod : (virt + off) % sizeAt 2 = 0 ∧ (phys + off) % sizeAt 2 = 0) :
    wp (spec D) (mapHuge root (virt + off) (phys + off) cache).run
      (Goes D root virt phys len cache s fun b s' => b = true →
        Done s' root virt phys cache off (off + sizeAt 2)) s := by
  have hupper := hr.upper
  have hstop := hr.stop_le
  have hphys := hr.phys_le
  have hpos : 0 < sizeAt 2 := Nat.two_pow_pos _
  have hwanted : (phys + off) ||| (kernelFlags cache ||| hugePage) =
      wanted 2 (phys + off) cache := by
    rw [wanted, hmod.2, Nat.sub_zero, flagsAt, if_neg (by decide)]
  have hlt : wanted 2 (phys + off) cache < 2 ^ 64 := wanted_lt (Or.inl rfl) (by omega)
  rw [mapHuge]
  refine Goes.bind hr (wp_pdSlot hr hs (by omega)) fun pd s1 hs1 _ hpd => ?_
  obtain ⟨e, hat⟩ := hpd.1
  have husable := hs1.usable _ 2 pd e hat
  have hword := Mem.word_of_entryAt hat
  rw [show 3 - 2 = 1 from rfl] at hword
  simp only [wp_except_bind, wp_lift, wp_word, hwanted]
  refine ⟨⟨husable, index_lt _ 1⟩, ?_⟩
  rw [hword]
  split
  · next habsent =>
    obtain ⟨hs', hext, hasked⟩ := fill_wanted cache hr hs1 (Or.inl rfl) hoff hmod hpd hat
      habsent
    simp only [wp_except_bind, wp_lift, wp_setWord]
    refine ⟨⟨husable, index_lt _ 1, hlt⟩, hs', hext, fun _ _ _ x hx => hasked x ?_⟩
    omega
  · split
    · refine .same hs1 ?_
      rintro b ⟨⟩ ⟨⟩
    · split
      · next hsame =>
        refine .same hs1 fun _ _ _ x hx => hpd.asked_page hr (Or.inl rfl) hoff hmod hat hsame ?_
        omega
      · exact .same hs1 nofun

theorem wp_setLeaf {pt : ℕ} (hr : Range virt phys len) (hs : Unshared D root s)
    (hoff : off + sizeAt 3 ≤ len)
    (hmod : (virt + off) % sizeAt 3 = 0 ∧ (phys + off) % sizeAt 3 = 0)
    (hpt : Reaches s root (virt + off) 3 pt) :
    wp (spec D) (setLeaf pt (virt + off) (phys + off) cache).run
      (Goes D root virt phys len cache s fun _ s' =>
        Done s' root virt phys cache off (off + sizeAt 3)) s := by
  have hphys := hr.phys_le
  have hpos : 0 < sizeAt 3 := Nat.two_pow_pos _
  have hwanted : (phys + off) ||| kernelFlags cache = wanted 3 (phys + off) cache := by
    rw [wanted, hmod.2, Nat.sub_zero, flagsAt, if_pos rfl]
  have hlt : wanted 3 (phys + off) cache < 2 ^ 64 := wanted_lt (Or.inr rfl) (by omega)
  obtain ⟨e, hat⟩ := hpt.1
  have husable := hs.usable _ 3 pt e hat
  have hword := Mem.word_of_entryAt hat
  rw [show 3 - 3 = 0 from rfl] at hword
  rw [setLeaf]
  simp only [wp_except_bind, wp_lift, wp_word, hwanted]
  refine ⟨⟨husable, index_lt _ 0⟩, ?_⟩
  rw [hword]
  split
  · next habsent =>
    obtain ⟨hs', hext, hasked⟩ := fill_wanted cache hr hs (Or.inr rfl) hoff hmod hpt hat habsent
    rw [wp_lift, wp_setWord]
    refine ⟨⟨husable, index_lt _ 0, hlt⟩, hs', hext, fun _ _ x hx => hasked x ?_⟩
    omega
  · split
    · next hsame =>
      refine .same hs fun _ _ x hx => hpt.asked_page hr (Or.inr rfl) hoff hmod hat hsame ?_
      omega
    · exact .same hs nofun

theorem asked_inside {pd : ℕ} (hr : Range virt phys len) (hoff : off + sizeAt 3 ≤ len)
    (hmod : (virt + off) % sizeAt 3 = 0 ∧ (phys + off) % sizeAt 3 = 0)
    (hpd : Reaches s root (virt + off) 2 pd)
    (hat : s.entryAt root (virt + off) 2 = some (pd, e))
    (hsame : same e (wanted 2 (phys + off) cache) = true)
    (haddr : (e &&& hugeAddrMask) + (virt + off) % huge = phys + off) :
    Done s root virt phys cache off (off + sizeAt 3) := by
  have hupper := hr.upper
  have hstop := hr.stop_le
  have hphys := hr.phys_le
  have hsize : sizeAt 2 = huge := by decide
  have hsize' : sizeAt 3 = page := by decide
  have hpage : page = 4096 := rfl
  have hhuge : huge = 2097152 := by decide
  rw [hsize', hpage] at hoff hmod
  -- the start of the 2 MiB page, and where in it the page lies
  have hframe : e &&& addrMask = phys + off - (phys + off) % huge := by
    rw [← hsize]
    exact addr_of_wanted (Or.inl rfl) (by omega) hsame
  have hbase : e &&& hugeAddrMask = phys + off - (phys + off) % huge := by
    have hmask : addrMask &&& hugeAddrMask = hugeAddrMask := by decide
    rw [← hmask, ← Nat.and_assoc, hframe, and_hugeAddrMask, hhuge]
    omega
  rw [hbase, hhuge] at haddr
  intro x hx
  rw [hsize', hpage] at hx
  obtain ⟨i, rfl⟩ := Nat.exists_eq_add_of_le hx.1
  have hy : phys + (virt + off + i - virt) = phys + off + i := by omega
  have hwanted : wanted 2 (phys + off + i) cache = wanted 2 (phys + off) cache := by
    rw [wanted, wanted, hsize, hhuge]
    congr 1
    omega
  rw [hy]
  refine hpd.asked hat (Or.inl rfl) ?_ (by omega) (by omega) (hwanted ▸ hsame) ?_
  · rw [pos, pos, hpage]
    omega
  · rw [hsize, hhuge]
    omega

theorem wp_map4k (hr : Range virt phys len) (hs : Unshared D root s) (hoff : off + sizeAt 3 ≤ len)
    (hmod : (virt + off) % sizeAt 3 = 0 ∧ (phys + off) % sizeAt 3 = 0) :
    wp (spec D) (map4k root (virt + off) (phys + off) cache).run
      (Goes D root virt phys len cache s fun _ s' =>
        Done s' root virt phys cache off (off + sizeAt 3)) s := by
  have hupper := hr.upper
  have hwanted : (phys + off - (phys + off) % huge) ||| (kernelFlags cache ||| hugePage) =
      wanted 2 (phys + off) cache := by
    rw [wanted, flagsAt, if_neg (by decide), show sizeAt 2 = huge by decide]
  rw [map4k]
  refine Goes.bind hr (wp_pdSlot hr hs (by omega)) fun pd s1 hs1 _ hpd => ?_
  obtain ⟨e, hat⟩ := hpd.1
  have hword := Mem.word_of_entryAt hat
  rw [show 3 - 2 = 1 from rfl] at hword
  simp only [wp_except_bind, wp_lift, wp_word, hwanted]
  refine ⟨⟨hs1.usable _ 2 pd e hat, index_lt _ 1⟩, ?_⟩
  rw [hword]
  split
  · split
    · next hin => exact .same hs1 fun _ _ => asked_inside hr hoff hmod hpd hat hin.1 hin.2
    · exact .same hs1 nofun
  · refine Goes.bind hr (wp_child (d := 2) hs1 (by omega) (by omega) hpd) fun pt s2 hs2 _ hpt => ?_
    exact wp_setLeaf hr hs2 hoff hmod hpt

end Pages

/-! ### Mapping a range -/

section Map

variable {D : Set ℕ} {root virt phys len : ℕ} {cache : Cache} {s s' : Mem}

theorem Done.append {a b c : ℕ} (h : Done s root virt phys cache a b)
    (h' : Done s root virt phys cache b c) :
    Done s root virt phys cache a c := fun x hx => by
  rcases Nat.lt_or_ge x (virt + b) with hlt | hge
  · exact h x ⟨hx.1, hlt⟩
  · exact h' x ⟨hge, hx.2⟩

/-- What is done stays done. -/
theorem Done.extends {b : ℕ} (hr : Range virt phys len) (hb : b ≤ len)
    (h : Done s root virt phys cache 0 b)
    (hext : Extends root virt phys len cache s s') : Done s' root virt phys cache 0 b :=
      fun x hx => by
  have hupper := hr.upper
  have hstop := hr.stop_le
  have hphys := hr.phys_le
  exact hext.asked (Or.inr ⟨by omega, by omega⟩) (by omega) (h x hx)

theorem mod_huge_of_or {a b : ℕ} (h : (a ||| b) % huge = 0) :
    a % sizeAt 2 = 0 ∧ b % sizeAt 2 = 0 := by
  have hmod : ∀ x, x % huge = x &&& (2 ^ 21 - 1) :=
    fun x => (Nat.and_two_pow_sub_one_eq_mod x 21).symm
  rw [hmod, Nat.and_or_distrib_right, Nat.or_eq_zero_iff] at h
  rw [show sizeAt 2 = huge by decide, hmod, hmod]
  exact h

theorem wp_tryHuge {off : ℕ} (hr : Range virt phys len) (hs : Unshared D root s)
    (hoff : off ≤ len) :
    wp (spec D) (tryHuge root (virt + off) (phys + off) (len - off) cache).run
      (Goes D root virt phys len cache s fun b s' =>
        b = true → off + sizeAt 2 ≤ len ∧ Done s' root virt phys cache off (off + sizeAt 2)) s := by
  have hsize : sizeAt 2 = huge := by decide
  rw [tryHuge]
  split
  · next hfits =>
    have hlen : off + sizeAt 2 ≤ len := by
      rw [hsize]
      omega
    refine wp_mono (wp_mapHuge hr hs hlen (mod_huge_of_or hfits.1)) fun r s' => ?_
    rintro ⟨hs', hext, hdone⟩
    exact ⟨hs', hext, fun b hb htrue => ⟨hlen, hdone b hb htrue⟩⟩
  · refine .same hs ?_
    rintro b ⟨⟩ ⟨⟩

/-- **The rounds of `map`**: what is done so far stays done, and each round does a page more. -/
theorem wp_mapFrom (hr : Range virt phys len) (rounds off : ℕ) (hs : Unshared D root s)
    (hoff : off ≤ len)
    (hmod : off % page = 0) (hrounds : len ≤ off + rounds * page)
    (hdone : Done s root virt phys cache 0 off) :
    wp (spec D) (mapFrom root virt phys len cache rounds off).run
      (Goes D root virt phys len cache s fun _ s' => Done s' root virt phys cache 0 len) s := by
  have hsize : sizeAt 2 = huge := by decide
  have hsize' : sizeAt 3 = page := by decide
  have hhuge : huge = 512 * page := by decide
  have hpage : 0 < page := by decide
  obtain ⟨hv, hp, hl⟩ := hr.aligned
  induction rounds generalizing off s with
  | zero =>
    obtain rfl : off = len := by omega
    exact .same hs fun _ _ => hdone
  | succ rounds ih =>
    rw [Nat.succ_mul] at hrounds
    rw [mapFrom]
    split
    · next hle =>
      obtain rfl : off = len := by omega
      exact .same hs fun _ _ => hdone
    · next hlt =>
      -- both ends are whole pages, so another one is left
      have hroom : off + page ≤ len := by
        rw [page] at hmod hl ⊢
        omega
      refine Goes.bind hr (wp_tryHuge hr hs hoff) fun b s1 hs1 hext1 hb => ?_
      have hdone1 := hdone.extends hr hoff hext1
      split
      · next htrue =>
        obtain ⟨hlen, hhere⟩ := hb htrue
        rw [hsize] at hlen hhere
        refine ih (off + huge) hs1 hlen ?_ (by omega) (hdone1.append hhere)
        rw [hhuge, Nat.add_mul_mod_self_right, hmod]
      · have hmods : (virt + off) % sizeAt 3 = 0 ∧ (phys + off) % sizeAt 3 = 0 := by
          rw [hsize', Nat.add_mod, Nat.add_mod phys, hv, hp, hmod]
          exact ⟨rfl, rfl⟩
        refine Goes.bind hr (wp_map4k hr hs1 (hsize' ▸ hroom) hmods) fun _ s2 hs2 hext2 hhere => ?_
        rw [hsize'] at hhere
        refine ih (off + page) hs2 hroom ?_ (by omega) ((hdone1.extends hr hoff hext2).append hhere)
        rw [Nat.add_mod_right, hmod]

theorem wp_map (hr : Range virt phys len) (hs : Unshared D root s) :
    wp (spec D) (map root virt phys len cache).run
      (Goes D root virt phys len cache s fun _ s' => Done s' root virt phys cache 0 len) s := by
  have hl := hr.aligned.2.2
  rw [map, wp_except_bind, wp_refuse]
  refine ⟨fun hc => absurd hr.or_mod hc, fun _ => ?_⟩
  refine wp_mapFrom hr _ 0 hs (Nat.zero_le _) (Nat.zero_mod _) ?_ fun x hx => absurd hx (by omega)
  rw [Nat.zero_add, Nat.div_mul_cancel (Nat.dvd_of_mod_eq_zero hl)]

end Map

/-! ### Mapping again -/

section Again

variable {D : Set ℕ} {root virt phys len v p d g e : ℕ} {cache : Cache} {s : Mem} {α β : Type}

/-- The function answers `a`, and memory is as it was. -/
def Answers (D : Set ℕ) (s : Mem) (x : MapM α) (a : α) : Prop :=
  wp (spec D) x.run (fun r s' => r = .ok a ∧ s' = s) s

theorem Answers.wp_bind {x : MapM α} {f : α → MapM β} {a : α} {Q : Except MapError β → Mem → Prop}
    (hx : Answers D s x a) (hf : wp (spec D) (f a).run Q s) : wp (spec D) (x >>= f).run Q s := by
  refine (wp_except_bind x f).mpr (wp_mono hx ?_)
  rintro r s' ⟨rfl, rfl⟩
  exact hf

theorem Answers.bind {x : MapM α} {f : α → MapM β} {a : α} {b : β} (hx : Answers D s x a)
    (hf : Answers D s (f a) b) :
    Answers D s (x >>= f) b := hx.wp_bind hf

theorem answers_pure (a : α) : Answers D s (pure a) a := ⟨rfl, rfl⟩

theorem answers_word {i : ℕ} (hg : Usable D s g) (hi : i < 512) (hw : s.word g i = e) :
    Answers D s (liftM (word g i)) e := by
  rw [Answers, wp_lift, wp_word]
  exact ⟨⟨hg, hi⟩, congrArg Except.ok hw, rfl⟩

/-- The entry on the way is read. -/
theorem answers_entry {k : ℕ} (hs : Unshared D root s) (hat : s.entryAt root v d = some (g, e))
    (hk : 3 - d = k) :
    Answers D s (liftM (word g (index v k))) e := by
  have hword := Mem.word_of_entryAt hat
  rw [hk] at hword
  exact answers_word (hs.usable v d g e hat) (index_lt v k) hword

/-- A table that is there is found. -/
theorem answers_child {i : ℕ} (hread : Answers D s (liftM (word g i)) e) (hlead : Leads e)
    (hflags : e &&& tableFlags v = tableFlags v) : Answers D s (child g i v) (e &&& addrMask) := by
  rw [child]
  refine hread.bind ?_
  rw [if_neg hlead.1, if_neg (by rw [not_or, not_not, not_not]; exact ⟨hlead.2, hflags⟩)]
  exact answers_pure _

theorem answers_pdSlot (hs : Unshared D root s) (hat : s.entryAt root v 2 = some (g, e))
    (habove : ∀ n < 2, ∀ g' e', s.entryAt root v n = some (g', e') →
      e' &&& tableFlags v = tableFlags v) :
    Answers D s (pdSlot root v) g := by
  obtain ⟨pdpt, e1, hat1, ⟨-, hlead1⟩, rfl, -⟩ := Mem.entryAt_succ.mp hat
  obtain ⟨pml4, e0, hat0, ⟨-, hlead0⟩, rfl, -⟩ := Mem.entryAt_succ.mp hat1
  obtain rfl : root = pml4 := congrArg Prod.fst (Option.some.inj hat0)
  rw [pdSlot]
  refine (answers_child (answers_entry hs hat0 rfl) hlead0 (habove 0 (by omega) _ _ hat0)).bind ?_
  exact answers_child (answers_entry hs hat1 rfl) hlead1 (habove 1 (by omega) _ _ hat1)

theorem answers_mapHuge (hs : Unshared D root s) (hasked : Asked s root v p cache) (hp : p < 2 ^ 52)
    (hmod : p % sizeAt 2 = 0) : ∃ b, Answers D s (mapHuge root v p cache) b := by
  obtain ⟨d, g, e, hd, hat, hsame, -, habove⟩ := hasked
  obtain ⟨hpresent, -, -, -, -, hhuge⟩ := bits_of_wanted hd hp hsame
  rw [mapHuge]
  rcases hd with rfl | rfl
  · have hwanted : p ||| (kernelFlags cache ||| hugePage) = wanted 2 p cache := by
      rw [wanted, hmod, Nat.sub_zero, flagsAt, if_neg (by decide)]
    refine ⟨true, (answers_pdSlot hs hat habove).bind ?_⟩
    refine (answers_entry hs hat rfl).bind ?_
    simp only [hwanted, if_neg hpresent, if_neg (hhuge.mpr rfl), hsame, if_true]
    exact answers_pure true
  · -- a table of 4 KiB pages is there
    obtain ⟨pd, e2, hat2, ⟨-, hlead⟩, -⟩ := Mem.entryAt_succ.mp hat
    refine ⟨false, (answers_pdSlot hs hat2 fun n hn => habove n (by omega)).bind ?_⟩
    refine (answers_entry hs hat2 rfl).bind ?_
    simp only [if_neg hlead.1, if_pos hlead.2]
    exact answers_pure false

theorem answers_map4k (hs : Unshared D root s) (hasked : Asked s root v p cache) (hp : p < 2 ^ 52)
    (hmod : p % sizeAt 3 = 0) : Answers D s (map4k root v p cache) () := by
  have hsize : sizeAt 2 = huge := by decide
  obtain ⟨d, g, e, hd, hat, hsame, hoffset, habove⟩ := hasked
  obtain ⟨hpresent, -, -, -, -, hhuge⟩ := bits_of_wanted hd hp hsame
  rw [map4k]
  rcases hd with rfl | rfl
  · have hwanted : (p - p % huge) ||| (kernelFlags cache ||| hugePage) = wanted 2 p cache := by
      rw [wanted, flagsAt, if_neg (by decide), hsize]
    have hbase : (e &&& hugeAddrMask) + v % huge = p := by
      have hmask : addrMask &&& hugeAddrMask = hugeAddrMask := by decide
      rw [← hmask, ← Nat.and_assoc, addr_of_wanted (Or.inl rfl) hp hsame, ← hsize, ← hoffset,
        and_hugeAddrMask, hsize,
        show huge = 2097152 by decide]
      omega
    refine (answers_pdSlot hs hat habove).bind ?_
    refine (answers_entry hs hat rfl).bind ?_
    rw [if_pos ⟨hpresent, hhuge.mpr rfl⟩, hwanted, if_pos ⟨hsame, hbase⟩]
    exact answers_pure ()
  · have hwanted : p ||| kernelFlags cache = wanted 3 p cache := by
      rw [wanted, hmod, Nat.sub_zero, flagsAt, if_pos rfl]
    obtain ⟨pd, e2, hat2, ⟨-, hlead⟩, rfl, -⟩ := Mem.entryAt_succ.mp hat
    refine (answers_pdSlot hs hat2 fun n hn => habove n (by omega)).bind ?_
    refine (answers_entry hs hat2 rfl).bind ?_
    rw [if_neg fun h => h.2 hlead.2]
    refine (answers_child (answers_entry hs hat2 rfl) hlead (habove 2 (by omega) _ _ hat2)).bind ?_
    rw [setLeaf]
    refine (answers_entry hs hat rfl).bind ?_
    simp only [hwanted, if_neg hpresent, hsame, if_true]
    exact answers_pure ()

/-- **Mapping what is mapped already** succeeds, and changes nothing. -/
theorem answers_map (hr : Range virt phys len) (hs : Unshared D root s)
    (hdone : Done s root virt phys cache 0 len) :
    Answers D s (map root virt phys len cache) () := by
  have hphys := hr.phys_le
  have hsize' : sizeAt 3 = page := by decide
  have hhuge : huge = 512 * page := by decide
  obtain ⟨hv, hp, hl⟩ := hr.aligned
  have hasked : ∀ off < len, Asked s root (virt + off) (phys + off) cache := by
    intro off hoff
    have := hdone (virt + off) ⟨by omega, by omega⟩
    rwa [Nat.add_sub_cancel_left] at this
  have hrounds : ∀ rounds off, off % page = 0 →
      Answers D s (mapFrom root virt phys len cache rounds off) () := by
    intro rounds
    induction rounds with
    | zero => exact fun _ _ => answers_pure ()
    | succ rounds ih =>
      intro off hmod
      rw [mapFrom]
      split
      · exact answers_pure ()
      · next hlt =>
        have hhere := hasked off (by omega)
        have htry : ∃ b, Answers D s
            (tryHuge root (virt + off) (phys + off) (len - off) cache) b := by
          rw [tryHuge]
          split
          · next hfits => exact answers_mapHuge hs hhere (by omega) (mod_huge_of_or hfits.1).2
          · exact ⟨false, answers_pure false⟩
        obtain ⟨b, hb⟩ := htry
        refine hb.bind ?_
        split
        · exact ih (off + huge) (by rw [hhuge, Nat.add_mul_mod_self_right, hmod])
        · refine (answers_map4k hs hhere (by omega) ?_).bind
            (ih (off + page) (by rw [Nat.add_mod_right, hmod]))
          rw [hsize', Nat.add_mod, hp, hmod]
          rfl
  rw [map]
  refine Answers.bind (a := ()) ?_ (hrounds _ 0 (Nat.zero_mod _))
  rw [refuse, if_neg (not_not.mpr hr.or_mod)]
  exact answers_pure ()

end Again

/-! ### Mappings are exact -/

/-- **Mapping does what is asked for and nothing else**, into tables of any kind, with an
allocator that may run out. Whatever the answer, an address that translated to something still
does, one outside the range translates as before, and one of the range that has a page now and
had none is mapped as asked for; after a success, all of them are. Then, and whenever the range is
mapped so, mapping it again succeeds and changes nothing. -/
theorem map_exact (D : Set ℕ) (root : ℕ) (s : Mem) (hs : Unshared D root s) (virt phys len : ℕ)
    (cache : Cache)
    (hr : Range virt phys len) (huser : ∀ x, virt ≤ x → x < virt + len → NoUser s root x) :
    wp (spec D) (map root virt phys len cache).run (fun r s' =>
      (∀ x, Canonical x → s.translate root x ≠ none → s'.translate root x = s.translate root x) ∧
      (∀ x, Canonical x → x < virt ∨ virt + len ≤ x → s'.translate root x = s.translate root x) ∧
      (∀ x, virt ≤ x → x < virt + len → s.translate root x = none → s'.translate root x ≠ none →
        IsAsked s' root x (phys + (x - virt)) cache) ∧
      (r = .ok () → Unshared D root s' ∧ Done s' root virt phys cache 0 len ∧
        ∀ x, virt ≤ x → x < virt + len → IsAsked s' root x (phys + (x - virt)) cache)) s ∧
    ∀ s₂, Unshared D root s₂ → Done s₂ root virt phys cache 0 len →
      wp (spec D) (map root virt phys len cache).run (fun r s' => r = .ok () ∧ s' = s₂) s₂ := by
  have hupper := hr.upper
  have hstop := hr.stop_le
  have hphys := hr.phys_le
  refine ⟨wp_mono (wp_map hr hs) fun r s' => ?_, fun s₂ hs₂ hdone => answers_map hr hs₂ hdone⟩
  rintro ⟨hs', hext, hdone⟩
  have hasked : ∀ x, virt ≤ x → x < virt + len → Asked s' root x (phys + (x - virt)) cache →
      IsAsked s' root x (phys + (x - virt)) cache := fun x hle hlt h =>
    h.isAsked (by omega) (hext.user x (by omega) (by omega) (huser x hle hlt))
  refine ⟨fun x hx hmapped => Mem.translate_congr (hext.kept x hx (Mem.mapped_iff.mpr hmapped)),
    fun x hx hout => ?_,
    fun x hle hlt hnone hsome => ?_, fun hok => ⟨hs', hdone () hok, fun x hle hlt => ?_⟩⟩
  · by_cases hmapped : s.Mapped root x
    · exact Mem.translate_congr (hext.kept x hx hmapped)
    · rcases hext.filled x hx hmapped with hnot | ⟨hin, -⟩
      · rw [Mem.translate_eq_none hnot, Mem.translate_eq_none hmapped]
      · omega
  · have hmapped : ¬s.Mapped root x := fun h => Mem.mapped_iff.mp h hnone
    rcases hext.filled x (Or.inr ⟨by omega, by omega⟩) hmapped with hnot | ⟨-, h⟩
    · exact absurd (Mem.mapped_iff.mpr hsome) hnot
    · exact hasked x hle hlt h
  · exact hasked x hle hlt (hdone () hok x ⟨hle, hlt⟩)

/-- A PML4 without entries. -/
def emptyPml4 : Mem := ⟨{4096}, fun _ => Mem.zeros, True⟩

theorem entryAt_emptyPml4 {x d g e : ℕ} (h : emptyPml4.entryAt 4096 x d = some (g, e)) :
    d = 0 ∧ g = 4096 ∧ e = 0 := by
  have hword : ∀ i, emptyPml4.word 4096 i = 0 := fun i => u64At_replicate _ _
  cases d with
  | zero =>
    cases h
    exact ⟨rfl, rfl, hword _⟩
  | succ d =>
    obtain ⟨g', e', h', hlead⟩ := Mem.leads_of_lt h d.succ_pos
    cases h'
    rw [Leads, hword] at hlead
    exact absurd (Nat.zero_and present) hlead.1

theorem map_exact_emptyPml4 :
    Unshared ∅ 4096 emptyPml4 ∧ Range upperHalf 0 (513 * page) ∧
      ∀ s₂, Unshared ∅ 4096 s₂ → Done s₂ 4096 upperHalf 0 .uncached 0 (513 * page) →
        wp (spec ∅) (map 4096 upperHalf 0 (513 * page) .uncached).run (fun r s' => r = .ok () ∧
          s' = s₂) s₂ := by
  have hs : Unshared ∅ 4096 emptyPml4 := by
    refine ⟨Set.empty_subset _, fun x d g e h => ?_, fun x y d d' g e e' h h' => ?_⟩
    · obtain ⟨-, rfl, -⟩ := entryAt_emptyPml4 h
      exact ⟨rfl, Set.notMem_empty _⟩
    · obtain ⟨rfl, -⟩ := entryAt_emptyPml4 h
      obtain ⟨rfl, -⟩ := entryAt_emptyPml4 h'
      exact ⟨rfl, (pos_four x).trans (pos_four y).symm⟩
  have hr : Range upperHalf 0 (513 * page) := ⟨le_rfl, by decide, by decide, by decide⟩
  refine ⟨hs, hr, (map_exact ∅ 4096 emptyPml4 hs upperHalf 0 (513 * page) .uncached hr
    fun x _ _ n g e h => ?_).2⟩
  obtain ⟨-, -, rfl⟩ := entryAt_emptyPml4 h
  exact Nat.zero_and user

/-- Tables down to an empty page table, where the first two entries of the kernel's half name the
same table, with the user bit. -/
def sharedTables : Mem :=
  ((((⟨{0x1000, 0x2000, 0x3000, 0x4000}, fun _ => Mem.zeros, False⟩ : Mem).setWord 0x1000 256
    0x2007).setWord
    0x1000 257 0x2007).setWord 0x2000 0 0x3003).setWord 0x3000 0 0x4003

theorem translate_of_words {s : Mem} {root x i a b c e0 e1 e2 e3 : ℕ}
    (hindex : index x 3 = i ∧ index x 2 = 0 ∧ index x 1 = 0 ∧ index x 0 = 0)
    (hlead : Leads e0 ∧ Leads e1 ∧ Leads e2)
    (haddr : e0 &&& addrMask = a ∧ e1 &&& addrMask = b ∧ e2 &&& addrMask = c)
    (h0 : s.word root i = e0) (h1 : s.word a 0 = e1) (h2 : s.word b 0 = e2) (h3 : s.word c 0 = e3) :
    s.translate root x = if e3 &&& present = 0 then none else some (pageOf x 0 e3) := by
  obtain ⟨hi3, hi2, hi1, hi0⟩ := hindex
  have hat0 : s.entryAt root x 0 = some (root, e0) := by rw [Mem.entryAt, hi3, h0]
  have hat1 : s.entryAt root x 1 = some (a, e1) :=
    Mem.entryAt_succ.mpr ⟨root, e0, hat0, ⟨by decide, hlead.1⟩,
      haddr.1.symm, by rw [show 2 - 0 = 2 from rfl, hi2, h1]⟩
  have hat2 : s.entryAt root x 2 = some (b, e2) :=
    Mem.entryAt_succ.mpr ⟨a, e1, hat1, ⟨by decide, hlead.2.1⟩,
      haddr.2.1.symm, by rw [show 2 - 1 = 1 from rfl, hi1, h2]⟩
  have hat3 : s.entryAt root x 3 = some (c, e3) :=
    Mem.entryAt_succ.mpr ⟨b, e2, hat2, ⟨by decide, hlead.2.2⟩,
      haddr.2.2.symm, by rw [show 2 - 2 = 0 from rfl, hi0, h3]⟩
  split
  · next habsent => exact Mem.translate_eq_none (Mem.not_mapped_of_absent hat3 habsent)
  · next hpresent => exact Mem.Leaf.translate_eq ⟨⟨_, hat3⟩, hpresent, Or.inl rfl⟩

/-- **Not what was asked for**: a page at 2⁵² is mapped to 0, ring 3's bit is on the way to it, and
an address half a terabyte away, which was not mapped, now is. -/
theorem map_inexact :
    wp (spec ∅) (map 0x1000 upperHalf (2 ^ 52) page .writeBack).run (fun r s' => r = .ok () ∧
      s'.translate 0x1000 upperHalf = some (0, .writeBack, page) ∧
      (∃ g e, s'.entryAt 0x1000 upperHalf 0 = some (g, e) ∧ e &&& user ≠ 0) ∧
      sharedTables.translate 0x1000 (upperHalf + 2 ^ 39) = none ∧
      s'.translate 0x1000 (upperHalf + 2 ^ 39) = some (0, .writeBack, page)) sharedTables := by
  -- the words of the tables, before and after
  have hzero : ∀ (T : Set ℕ) c g i, (⟨T, fun _ => Mem.zeros, c⟩ : Mem).word g i = 0 :=
    fun _ _ _ _ => u64At_replicate _ _
  have h256 : sharedTables.word 0x1000 256 = 0x2007 := by
    simp (disch := decide) only [sharedTables, Mem.word_setWord_self, Mem.word_setWord_of_ne]
  have h257 : sharedTables.word 0x1000 257 = 0x2007 := by
    simp (disch := decide) only [sharedTables, Mem.word_setWord_self, Mem.word_setWord_of_ne]
  have h2 : sharedTables.word 0x2000 0 = 0x3003 := by
    simp (disch := decide) only [sharedTables, Mem.word_setWord_self, Mem.word_setWord_of_ne]
  have h3 : sharedTables.word 0x3000 0 = 0x4003 := by
    simp (disch := decide) only [sharedTables, Mem.word_setWord_self]
  have h4 : sharedTables.word 0x4000 0 = 0 := by
    simp (disch := decide) only [sharedTables, Mem.word_setWord_of_ne, hzero]
  have husable : ∀ g ∈ ({0x1000, 0x2000, 0x3000, 0x4000} : Set ℕ),
      Usable ∅ sharedTables g := fun g hg =>
    ⟨hg, Set.notMem_empty g⟩
  have hpdpt : Answers ∅ sharedTables (child 0x1000 (index upperHalf 3) upperHalf) 0x2000 :=
    answers_child (answers_word (husable _ (by simp)) (by decide) h256) (by decide) (by decide)
  have hpd : Answers ∅ sharedTables (child 0x2000 (index upperHalf 2) upperHalf) 0x3000 :=
    answers_child (answers_word (husable _ (by simp)) (by decide) h2) (by decide) (by decide)
  have hslot := answers_word (husable 0x3000 (by simp)) (by decide) h3
  have hpt : Answers ∅ sharedTables (child 0x3000 (index upperHalf 1) upperHalf) 0x4000 :=
    answers_child hslot (by decide) (by decide)
  have haligned : Answers ∅ sharedTables
      (refuse ((upperHalf ||| 2 ^ 52 ||| page) % page ≠ 0) .unaligned) () := by
    rw [refuse, if_neg (by decide)]
    exact answers_pure ()
  rw [map]
  refine haligned.wp_bind ?_
  rw [show page / page = 1 by decide, mapFrom, if_neg (by decide), tryHuge, if_neg (by decide)]
  refine (answers_pure false).wp_bind ?_
  rw [if_neg Bool.false_ne_true, wp_except_bind, map4k]
  refine (hpdpt.bind hpd).wp_bind (hslot.wp_bind ?_)
  rw [if_neg (by decide)]
  refine hpt.wp_bind ?_
  rw [setLeaf]
  refine (answers_word (husable 0x4000 (by simp)) (by decide) h4).wp_bind ?_
  rw [if_pos (by decide), wp_lift, wp_setWord,
    show index (upperHalf + 0) 0 = 0 by decide, Nat.add_zero]
  -- what the last word written makes of the two addresses
  generalize hs' : sharedTables.setWord 0x4000 0 (2 ^ 52 ||| kernelFlags .writeBack) = s'
  have hafter : ∀ g i w, ¬(g = 0x4000 ∧ i = 0) → sharedTables.word g i = w → s'.word g i = w :=
    fun g i w h hw =>
    hs' ▸ (Mem.word_setWord_of_ne h).trans hw
  have hleaf : s'.word 0x4000 0 = 2 ^ 52 ||| kernelFlags .writeBack :=
    hs' ▸ Mem.word_setWord_self (by decide) (by decide)
  have h2' := hafter _ _ _ (by decide) h2
  have h3' := hafter _ _ _ (by decide) h3
  refine ⟨⟨husable _ (by simp), by decide, by decide⟩, rfl, ?_,
    ⟨0x1000, 0x2007, ?_, by decide⟩, ?_, ?_⟩
  · rw [translate_of_words (i := 256) (by decide) (by decide) (by decide)
      (hafter _ _ _ (by decide) h256) h2' h3' hleaf]
    decide
  · rw [Mem.entryAt, show index upperHalf 3 = 256 by decide, hafter _ _ _ (by decide) h256]
  · rw [translate_of_words (i := 257) (by decide) (by decide) (by decide) h257 h2 h3 h4]
    decide
  · rw [translate_of_words (i := 257) (by decide) (by decide) (by decide)
      (hafter _ _ _ (by decide) h257) h2' h3' hleaf]
    decide

end KernelMap

end RelayOs.Mm
