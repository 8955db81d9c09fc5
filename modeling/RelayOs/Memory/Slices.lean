import RelayOs.Memory.Calls

/-!
# Memory a program names in a call

A program hands the kernel an address and a length, and may choose both as it likes. All that
comes of it is said here of every address space and every range
(`RelayOs.Mm.UserSlice.copies_exact`): the kernel makes no sum that overflows, looks at
nothing but the program's own tables and pages, and copies all bytes or answers `EFAULT`.
-/

namespace RelayOs.Mm

open Prog AddressSpace Vfs

namespace UserSlice

variable {B : Set ℕ} {m : Pages} {s : Mem} {a n : ℕ}

/-- **Every byte of the range is on a page of the program's.** -/
def OnPages (m : Pages) (a n : ℕ) : Prop :=
  ∀ x, a ≤ x → x < a + n → ∃ f perm, m (x / page) = some (f, perm)

/-- **Every byte of the range is on a page that is writable.** -/
def AllWritable (m : Pages) (a n : ℕ) : Prop :=
  ∀ x, a ≤ x → x < a + n → ∃ f, m (x / page) = some (f, .readWrite)

/-- **The range may be written**, as the kernel checks it: every byte of it is on a page that is
writable, and if it has none, and does not start where a page does, the page it starts in is. -/
def MayWrite (m : Pages) (a n : ℕ) : Prop :=
  AllWritable m a n ∧ (n = 0 → ¬page ∣ a → ∃ f, m (a / page) = some (f, .readWrite))

/-- **Only the bytes count**: there are some, or the place of none is at the start of a page or
in one that is writable. -/
def BytesCount (m : Pages) (a n : ℕ) : Prop :=
  n ≠ 0 ∨ page ∣ a ∨ ∃ f, m (a / page) = some (f, .readWrite)

theorem mayWrite_iff (h : BytesCount m a n) : MayWrite m a n ↔ AllWritable m a n := by
  refine ⟨And.left, fun hall => ⟨hall, fun hn hpage => ?_⟩⟩
  rcases h with h | h | h
  · exact absurd hn h
  · exact absurd h hpage
  · exact h

theorem mapped_view : (view m s).Mapped a (a + n) ↔ OnPages m a n := by
  refine forall_congr' fun x => ?_
  rw [ne_eq, perm_view_eq_none, ← ne_eq, Option.ne_none_iff_exists']
  constructor
  · intro h hle hlt
    obtain ⟨⟨f, perm⟩, hf⟩ := h hlt hle
    exact ⟨f, perm, hf⟩
  · intro h hlt hle
    obtain ⟨f, perm, hf⟩ := h hle hlt
    exact ⟨(f, perm), hf⟩

theorem perm_view_eq_readWrite {p : ℕ} :
    (view m s).perm p = some .readWrite ↔ ∃ f, m p = some (f, .readWrite) := by
  rw [view, Option.map_eq_some_iff]
  constructor
  · rintro ⟨⟨f, _⟩, hf, rfl⟩
    exact ⟨f, hf⟩
  · rintro ⟨f, hf⟩
    exact ⟨(f, .readWrite), hf, rfl⟩

theorem writable_view : (view m s).Writable a (a + n) ↔ MayWrite m a n := by
  simp only [UserMemory.Writable, perm_view_eq_readWrite]
  constructor
  · intro h
    refine ⟨fun x hle hlt => ?_, fun hn hnot => ?_⟩
    · have hdiv := Nat.div_mul_le_self x page
      have hself := Nat.div_le_self x page
      exact h (x / page) (by omega) (Nat.div_le_div_right hle) (by omega)
    · have hmod : a % page ≠ 0 := fun h0 => hnot (Nat.dvd_of_mod_eq_zero h0)
      have hdiv := Nat.div_add_mod' a page
      have hself := Nat.div_le_self a page
      have hpos : 0 < page := by decide
      have hlt : a / page < a := Nat.div_lt_self (by omega) (by decide)
      exact h (a / page) (by omega) le_rfl (by omega)
  · rintro ⟨hbytes, hempty⟩ p - hfrom hto
    -- the page holds a byte of the range, or the range is empty and starts in it
    rcases Nat.eq_or_lt_of_le hfrom with rfl | hlater
    · rcases Nat.eq_zero_or_pos n with rfl | hpos
      · refine hempty rfl fun hdvd => ?_
        rw [Nat.div_mul_cancel hdvd] at hto
        omega
      · exact hbytes a le_rfl (by omega)
    · have hle : a ≤ p * page := by
        rw [page] at *
        omega
      have hbyte := hbytes (p * page) hle hto
      rwa [Nat.mul_div_cancel p (by decide)] at hbyte

theorem new_eq (addr len : ℕ) :
    UserSlice.new addr len = if addr + len ≤ lowerHalfEnd then .ok ⟨addr, len⟩
      else .error .EFAULT := by
  have hbits : lowerHalfEnd < 2 ^ 64 := by decide
  rw [UserSlice.new, checkedAdd]
  by_cases hfits : addr + len < 2 ^ 64
  · rw [if_pos hfits]
  · rw [if_neg hfits, if_neg (by omega)]

theorem wp_others_same {T F : Set ℕ} {α : Type} {p : Prog physMem α} {Q : α → Mem → Prop}
    (h : wp (copying T F) p Q s) :
    wp (copying T F) p (fun r s' => Q r s' ∧ s'.taken = s.taken ∧ ∀ f ∉ F,
      s'.content f = s.content f) s := by
  have hr : (copying T F).Refines (copying T F) fun s1 s2 =>
      s1 = s2 ∧ s2.taken = s.taken ∧ ∀ f ∉ F, s2.content f = s.content f := by
    rintro r s1 _ ⟨rfl, htaken, hsame⟩ hpre
    refine ⟨hpre, fun x s2 hx => ⟨s2, hx, rfl, ?_⟩⟩
    cases r with
    | word f i => exact hx.2 ▸ ⟨htaken, hsame⟩
    | bytes f i k => exact hx.2 ▸ ⟨htaken, hsame⟩
    | setBytes f i data =>
      obtain rfl : s2 = s1.setBytes f i data := hx
      refine ⟨htaken, fun g hg => ?_⟩
      have hne : g ≠ f := fun he => hg (he ▸ hpre.1)
      rw [Mem.content_setBytes_of_ne hne, hsame g hg]
    | setWord f i v => exact hpre.elim
    | alloc => exact hpre.elim
    | free f => exact hpre.elim
  refine wp_mono (wp_refine hr ⟨rfl, rfl, fun _ _ => rfl⟩ h) fun r s' => ?_
  rintro ⟨_, ⟨rfl, hrest⟩, hq⟩
  exact ⟨hq, hrest⟩

/-! ### What each call answers -/

/-- **What reading answers**: the bytes, if all of them are there. -/
structure ReadAnswer (m : Pages) (s : Mem) (u : UserSlice) (offset n : ℕ)
    (r : Except Errno Unit × Bytes)
    (s' : Mem) : Prop where
  same : s' = s
  ok_iff : r.1 = .ok () ↔ offset + n ≤ u.len ∧ OnPages m (u.addr + offset) n
  error : r.1 ≠ .ok () → r.1 = .error .EFAULT
  bytes : r.1 = .ok () → r.2.length = n ∧ ∀ k < n, r.2[k]? = byteAt m s (u.addr + offset + k)

/-- **What writing answers**: all bytes are written, or none. -/
structure WriteAnswer (m : Pages) (s : Mem) (u : UserSlice) (offset : ℕ) (data : Bytes)
    (r : Except Errno Unit)
    (s' : Mem) : Prop where
  ok_iff : r = .ok () ↔ offset + data.length ≤ u.len ∧ MayWrite m (u.addr + offset) data.length
  ok_iff_bytes : u.len < offset + data.length ∨ BytesCount m (u.addr + offset) data.length →
    (r = .ok () ↔ offset + data.length ≤ u.len ∧
      AllWritable m (u.addr + offset) data.length)
  error : r ≠ .ok () → r = .error .EFAULT ∧ s' = s
  taken : s'.taken = s.taken
  others : ∀ f ∉ frames m, s'.content f = s.content f
  bytes : r = .ok () → Filled m s (u.addr + offset) data data.length s'

/-- **What checking answers**: whether the whole range may be written. -/
structure CheckAnswer (m : Pages) (s : Mem) (u : UserSlice) (r : Except Errno Unit)
    (s' : Mem) : Prop where
  same : s' = s
  ok_iff : r = .ok () ↔ MayWrite m u.addr u.len
  ok_iff_bytes : BytesCount m u.addr u.len → (r = .ok () ↔ AllWritable m u.addr u.len)
  error : r ≠ .ok () → r = .error .EFAULT

variable {t : Tree} {sp : AddressSpace} {u : UserSlice}

theorem byteAt_of_onPages (h : OnPages m a n) {k : ℕ} (hk : k < n) :
    byteAt m s (a + k) = some ((view m s).byte (a + k)) := by
  obtain ⟨f, perm, hf⟩ := h (a + k) (by omega) (by omega)
  rw [view]
  dsimp only
  rw [byteAt, hf, Option.map_some, Option.getD_some]

section

variable (h : Owns B sp.pml4 t s) (hm : t.node 0 = m) (hu : u.addr + u.len ≤ lowerHalfEnd)

include h hm hu

theorem wp_read_answer
    (offset : ℕ) (buf : Bytes) :
    wp (copying t.tables (frames m)) (u.read sp offset buf)
      (ReadAnswer m s u offset buf.length) s := by
  have hbits : lowerHalfEnd < 2 ^ 64 := by decide
  refine wp_mono (wp_read_view u h hm hu offset buf) fun r s' hr => ?_
  rw [UserMemory.read_eq (by omega)] at hr
  by_cases hcan : offset + buf.length ≤ u.len ∧ OnPages m (u.addr + offset) buf.length
  · rw [if_pos ⟨hcan.1, mapped_view.mpr hcan.2⟩] at hr
    obtain ⟨hs, rfl⟩ := hr
    refine ⟨hs, iff_of_true rfl hcan, fun hne => absurd rfl hne,
      fun _ => ⟨UserMemory.length_bytes _ _ _, ?_⟩⟩
    intro k hk
    rw [byteAt_of_onPages hcan.2 hk]
    simp only [UserMemory.bytes, List.getElem?_map, List.getElem?_range hk, Option.map_some]
  · rw [if_neg fun hc => hcan ⟨hc.1, mapped_view.mp hc.2⟩] at hr
    obtain ⟨hs, hr⟩ := hr
    have hne : r.1 ≠ .ok () := by simp [hr]
    exact ⟨hs, iff_of_false hne hcan, fun _ => hr, fun hok => absurd hok hne⟩

theorem wp_write_answer
    (offset : ℕ) (data : Bytes) :
    wp (copying t.tables (frames m)) (u.write sp offset data)
      (WriteAnswer m s u offset data) s := by
  have hbits : lowerHalfEnd < 2 ^ 64 := by decide
  refine wp_mono (wp_others_same (wp_write_view u h hm hu offset data)) fun r s' hr => ?_
  obtain ⟨⟨-, hr⟩, htaken, hothers⟩ := hr
  rw [UserMemory.write_eq (by omega)] at hr
  have hbytes : u.len < offset + data.length ∨ BytesCount m (u.addr + offset) data.length →
      (offset + data.length ≤ u.len ∧ MayWrite m (u.addr + offset) data.length ↔
        offset + data.length ≤ u.len ∧ AllWritable m (u.addr + offset) data.length) := by
    rintro (hlong | hcount)
    · exact iff_of_false (fun hc => by omega) fun hc => by omega
    · rw [mayWrite_iff hcount]
  by_cases hcan : offset + data.length ≤ u.len ∧ MayWrite m (u.addr + offset) data.length
  · rw [if_pos ⟨hcan.1, writable_view.mpr hcan.2⟩] at hr
    obtain ⟨rfl, -, hfilled⟩ := hr
    exact ⟨iff_of_true rfl hcan, fun hb => iff_of_true rfl ((hbytes hb).mp hcan),
      fun hne => absurd rfl hne, htaken, hothers, fun _ => hfilled⟩
  · rw [if_neg fun hc => hcan ⟨hc.1, writable_view.mp hc.2⟩] at hr
    obtain ⟨rfl, hs⟩ := hr
    exact ⟨iff_of_false nofun hcan, fun hb => iff_of_false nofun (mt (hbytes hb).mpr hcan),
      fun _ => ⟨rfl, hs⟩, htaken, hothers, nofun⟩

theorem wp_check_answer :
    wp (copying t.tables (frames m)) (u.checkWritable sp) (CheckAnswer m s u) s := by
  refine wp_mono (wp_checkWritable_view u h hm hu) fun r s' hr => ?_
  rw [UserMemory.checkWritable] at hr
  by_cases hcan : MayWrite m u.addr u.len
  · rw [if_pos (writable_view.mpr hcan)] at hr
    exact ⟨hr.1, iff_of_true hr.2 hcan, fun hb => iff_of_true hr.2 ((mayWrite_iff hb).mp hcan),
      fun hne => absurd hr.2 hne⟩
  · rw [if_neg fun hc => hcan (writable_view.mp hc)] at hr
    obtain ⟨hs, rfl⟩ := hr
    exact ⟨hs, iff_of_false (by simp) hcan,
      fun hb => iff_of_false (by simp) (mt (mayWrite_iff hb).mpr hcan), fun _ => rfl⟩

end

/-- **Copies into and out of a program's memory are exact.** For every address space, every
range and every offset and buffer: a range is taken exactly if it lies in the lower half, and
then reading, writing and checking it stop dead nowhere, read words of the program's own tables
and reach bytes of its own lower-half pages only. A read succeeds exactly if the bytes lie in
the range and every page they are on is the program's, with those bytes. A write succeeds
exactly if they lie in the range and it may be written, which is that every page they are on is
writable if only the bytes count; then exactly those bytes change. What fails is `EFAULT`, and
nothing has changed. -/
theorem copies_exact (B : Set ℕ) (sp : AddressSpace) (m : Pages) (s : Mem) (h : Has B sp.pml4 m s)
    (addr len offset : ℕ) (buf data : Bytes) :
    UserSlice.new addr len = (if addr + len ≤ lowerHalfEnd then .ok ⟨addr, len⟩
      else .error .EFAULT) ∧
    ∀ u, UserSlice.new addr len = .ok u → ∃ T : Set ℕ,
      (∀ f ∈ T, f ∈ s.taken ∧ f ∉ B ∧ f ∉ frames m) ∧ (∀ f ∈ frames m, f ∈ s.taken ∧ f ∉ B) ∧
      (∀ p x, m p = some x → p * page < lowerHalfEnd) ∧
      wp (copying T (frames m)) (u.read sp offset buf) (ReadAnswer m s u offset buf.length) s ∧
      wp (copying T (frames m)) (u.write sp offset data) (WriteAnswer m s u offset data) s ∧
      wp (copying T (frames m)) (u.checkWritable sp) (CheckAnswer m s u) s := by
  refine ⟨new_eq addr len, fun u hu => ?_⟩
  obtain ⟨rfl, hle⟩ := UserMemory.le_of_new hu
  have husable := fun f => h.usable (f := f)
  obtain ⟨t, ht, rfl⟩ := h
  refine ⟨t.tables, fun f hf => ?_, husable, fun p x hp => ?_, wp_read_answer ht rfl hle offset buf,
    wp_write_answer ht rfl hle offset data, wp_check_answer ht rfl hle⟩
  · have hown := ht.holds.usable hf
    exact ⟨hown.1, fun hB => hown.2 (Or.inl hB), fun hF => hown.2 (Or.inr hF)⟩
  · obtain ⟨y, hy⟩ := ht.ancestor (i := 3) hp (by decide)
    have hcov := (ht.holds.covered _ _ hy).2
    change p / 512 ^ 3 < 256 at hcov
    rw [page, lowerHalfEnd]
    omega

theorem owns_oneFrame : Owns ∅ 4096 (Tree.empty 4096) oneFrame := by
  refine owns_empty (Set.notMem_empty _) ?_ fun i _ => u64At_replicate _ _
  exact (LawfulSingleton.insert_empty_eq 4096).symm

theorem has_oneFrame : Has ∅ 4096 noPages oneFrame :=
  ⟨Tree.empty 4096, owns_oneFrame, Tree.empty_pages 4096⟩

theorem addTable {P : Part} {D : Set ℕ} {root f k q g i : ℕ} {t : Tree} {s : Mem} {b c : Perm}
    (hs : Holds P D root t s) (hf : f ∉ s.taken) (hfr : IsFrame f) (hk : k + 1 < 4)
    (hg : t.node (k + 2) q = some (g, c)) (hi : i < 512) (hc : k + 1 = 3 → P.Covers i)
    (hnone : t.node (k + 1) (512 * q + i) = none) :
    Holds P D root (t.set (k + 1) (512 * q + i) (some (f, b)))
      ((s.take f).setWord g i (f ||| P.flags (k + 1) b)) :=
  (hs.take hf).setTable (fun hD => hf (hs.subset hD)) hfr (fun _ => Mem.word_take_self) hk hg hi hc
    hnone

/-- A table in a frame that was free. -/
def withTable (s : Mem) (k f g i : ℕ) : Mem :=
  (s.take f).setWord g i (f ||| lowerHalf.flags k .readWrite)

/-- A space with one page, at its second page's place. -/
def onePage : Mem :=
  let s := withTable (oneFrame.take 0x5000) 3 0x2000 0x1000 0
  let s := withTable (withTable s 2 0x3000 0x2000 0) 1 0x4000 0x3000 0
  s.setWord 0x4000 1 (0x5000 ||| lowerHalf.flags 0 .readWrite)

/-- Its only page is the frame `0x5000`. -/
def secondPage : Pages := Function.update noPages 1 (some (0x5000, .readWrite))

theorem has_onePage : Has ∅ 4096 secondPage onePage := by
  have hcovers : lowerHalf.Covers 0 := ⟨le_rfl, by decide⟩
  have h0 := owns_oneFrame
  have h1 := h0.holds.take (f := 0x5000) (by simp [oneFrame])
  have h2 := addTable h1 (f := 0x2000) (k := 2) (q := 0) (i := 0) (b := .readWrite)
    (by simp [oneFrame, Mem.take]) (by decide) (by decide) rfl (by decide) (fun _ => hcovers) rfl
  have h3 := addTable h2 (f := 0x3000) (k := 1) (q := 0) (i := 0) (b := .readWrite)
    (by simp [oneFrame, Mem.take, Mem.setWord]) (by decide) (by decide) rfl (by decide) (by simp)
    rfl
  have h4 := addTable h3 (f := 0x4000) (k := 0) (q := 0) (i := 0) (b := .readWrite)
    (by simp [oneFrame, Mem.take, Mem.setWord]) (by decide) (by decide) rfl (by decide) (by simp)
    rfl
  have hreads : Reads lowerHalf 0 (0x5000 ||| lowerHalf.flags 0 .readWrite)
      (some (0x5000, .readWrite)) := Reads.of_or (by decide)
  have h5 := h4.setPage (q := 0) (i := 1) rfl (by decide) hreads (Reads.or_lt (by decide))
  have hpages := ((((Tree.empty 4096).set 3 0 (some (0x2000, .readWrite))).set 2 0
    (some (0x3000, .readWrite))).set 1 0 (some (0x4000, .readWrite))).node_zero_set_zero 1
    (some (0x5000, .readWrite))
  simp only [Tree.node_zero_set_succ] at hpages
  refine ⟨_, h0.add (p := 1) (by simp [oneFrame]) rfl h5 hpages, ?_⟩
  exact hpages.trans (by rw [Tree.empty_pages, secondPage])

/-- Of eight bytes five into the page, three are written, and as many are read. -/
theorem copies_exact_onePage :
    UserSlice.new 0x1005 8 = .ok ⟨0x1005, 8⟩ ∧ ∃ T : Set ℕ,
      wp (copying T (frames secondPage)) ((⟨0x1005, 8⟩ : UserSlice).write ⟨4096, []⟩ 2 [7, 8, 9])
        (fun r s' => r = .ok () ∧ byteAt secondPage s' 0x1008 = some 8) onePage ∧
      wp (copying T (frames secondPage)) ((⟨0x1005, 8⟩ : UserSlice).read ⟨4096, []⟩ 2 [0, 0, 0])
        (fun r _ => r.1 = .ok ()) onePage := by
  obtain ⟨hnew, hall⟩ := copies_exact ∅ ⟨4096, []⟩ secondPage onePage has_onePage 0x1005 8 2
    [0, 0, 0] [7, 8, 9]
  have hok : UserSlice.new 0x1005 8 = .ok ⟨0x1005, 8⟩ := by
    rw [hnew]
    exact if_pos (by decide)
  obtain ⟨T, -, -, -, hread, hwrite, -⟩ := hall _ hok
  have hpage : ∀ x, 0x1005 + 2 ≤ x → x < 0x1005 + 2 + 3 →
      secondPage (x / page) = some (0x5000, .readWrite) := by
    intro x hle hlt
    rw [show x / page = 1 by unfold page; omega]
    rfl
  refine ⟨hok, T, wp_mono hwrite fun r s' hr => ?_, wp_mono hread fun r s' hr => ?_⟩
  · have hr' : r = .ok () := (hr.ok_iff_bytes (Or.inr (Or.inl (by decide)))).mpr
      ⟨by decide, fun x hle hlt => ⟨_, hpage x hle hlt⟩⟩
    refine ⟨hr', ?_⟩
    rw [hr.bytes hr']
    rfl
  · exact hr.ok_iff.mpr ⟨by decide, fun x hle hlt => ⟨_, _, hpage x hle hlt⟩⟩

/-- **Nothing to write is refused** where the program has no page to write to: no page covers
the bytes, as there are none, and yet the answer is `EFAULT`. -/
theorem nothing_to_write_refused :
    Has ∅ 4096 noPages oneFrame ∧ UserSlice.new 1 0 = .ok ⟨1, 0⟩ ∧
      wp (spec ∅) ((⟨1, 0⟩ : UserSlice).write ⟨4096, []⟩ 0 []) (fun r _ => r = .error .EFAULT)
        oneFrame := by
  refine ⟨has_oneFrame, by decide, ?_⟩
  obtain ⟨t, ht, hm⟩ := has_oneFrame
  have ht' : Owns ∅ (⟨4096, []⟩ : AddressSpace).pml4 t oneFrame := ht
  have hwrite := wp_write_answer (u := ⟨1, 0⟩) ht' hm (by decide) 0 []
  refine ht.wp_copy (hm ▸ wp_mono hwrite fun r s' hr => (hr.error fun hok => ?_).1)
  obtain ⟨-, -, hpage⟩ := hr.ok_iff.mp hok
  obtain ⟨f, hf⟩ := hpage rfl (by decide)
  cases hf

end UserSlice

end RelayOs.Mm
