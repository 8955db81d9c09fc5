import RelayOs.Memory.Copy

/-!
# A program's memory, as its system calls see it

The permission of every page that is the program's and the byte at every address: all that
a system call can find out about the memory a program names, and all it can change. The
three things a call does with it – checking that it may write, reading, and writing – say
here what they amount to, and the page-by-page copies through the frames are shown to do
just that (`RelayOs.Mm.UserSlice.wp_read_view`, `RelayOs.Mm.UserSlice.wp_write_view`,
`RelayOs.Mm.UserSlice.wp_checkWritable_view`).
-/

namespace RelayOs.Mm

open Prog AddressSpace Vfs

/-- **A program's memory**: the permission of each page, if it is the program's, and the byte
at each address, which means nothing where no page is. -/
structure UserMemory where
  perm : ℕ → Option Perm
  byte : ℕ → UInt8

namespace UserMemory

variable (mem : UserMemory)

/-- The `n` bytes from `a` on. -/
def bytes (a n : ℕ) : Bytes := (List.range n).map fun i => mem.byte (a + i)

/-- The memory with `data` at `a`. -/
def put (a : ℕ) (data : Bytes) : UserMemory :=
  { mem with byte := fun x => if a ≤ x ∧ x < a + data.length then data.getD (x - a) 0
    else mem.byte x }

/-- Every byte from `a` up to `stop` is on a page of the program's. -/
def Mapped (a stop : ℕ) : Prop := ∀ x < stop, a ≤ x → mem.perm (x / page) ≠ none

instance (a stop : ℕ) : Decidable (mem.Mapped a stop) :=
  inferInstanceAs (Decidable (∀ x < stop, a ≤ x → _))

/-- Every page from the one of `a` up to `stop` is the program's and writable. -/
def Writable (a stop : ℕ) : Prop :=
  ∀ p < stop, a / page ≤ p → p * page < stop → mem.perm p = some .readWrite

instance (a stop : ℕ) : Decidable (mem.Writable a stop) :=
  inferInstanceAs (Decidable (∀ p < stop, a / page ≤ p → p * page < stop → _))

/-- **Reads** `n` bytes from `offset` into the range. -/
def read (u : UserSlice) (offset n : ℕ) : Except Errno Bytes :=
  match u.stopOf offset n with
  | none => .error .EFAULT
  | some stop =>
    if mem.Mapped (u.addr + offset) (u.addr + stop) then .ok (mem.bytes (u.addr + offset) n)
      else .error .EFAULT

/-- **Writes** `data` into the range from `offset`, all of it or nothing. -/
def write (u : UserSlice) (offset : ℕ) (data : Bytes) : Except Errno UserMemory :=
  match u.stopOf offset data.length with
  | none => .error .EFAULT
  | some stop =>
    if mem.Writable (u.addr + offset) (u.addr + stop) then .ok (mem.put (u.addr + offset) data)
      else .error .EFAULT

/-- **Whether the whole range may be written.** -/
def checkWritable (u : UserSlice) : Except Errno Unit :=
  if mem.Writable u.addr (u.addr + u.len) then .ok () else .error .EFAULT

/-! ### Bytes -/

@[simp] theorem length_bytes (a n : ℕ) : (mem.bytes a n).length = n := by
  rw [bytes, List.length_map, List.length_range]

theorem getD_bytes {a n k : ℕ} (hk : k < n) : (mem.bytes a n).getD k 0 = mem.byte (a + k) := by
  simp only [bytes, List.getD_eq_getElem?_getD, List.getElem?_map, List.getElem?_range hk,
    Option.map_some,
    Option.getD_some]

theorem bytes_add (a n k : ℕ) : mem.bytes a (n + k) = mem.bytes a n ++ mem.bytes (a + n) k := by
  rw [bytes, List.range_add, List.map_append, List.map_map]
  congr 1
  refine List.map_congr_left fun i _ => ?_
  rw [Function.comp_apply, Nat.add_assoc]

theorem bytes_put_self (a : ℕ) (data : Bytes) : (mem.put a data).bytes a data.length = data := by
  refine ext_getD (by rw [length_bytes]) fun k hk => ?_
  rw [length_bytes] at hk
  rw [getD_bytes _ hk, put]
  dsimp only
  rw [if_pos (by omega), Nat.add_sub_cancel_left]

@[simp] theorem put_nil (a : ℕ) : mem.put a [] = mem := by
  rw [put]
  congr 1
  funext x
  exact if_neg (by rw [List.length_nil]; omega)

theorem put_append (a : ℕ) (d e : Bytes) :
    mem.put a (d ++ e) = (mem.put a d).put (a + d.length) e := by
  rw [put, put, put]
  congr 1
  funext x
  dsimp only
  rw [List.length_append]
  by_cases hsecond : a + d.length ≤ x ∧ x < a + d.length + e.length
  · rw [if_pos hsecond, if_pos (by omega), List.getD_eq_getElem?_getD,
      List.getElem?_append_right (by omega),
      List.getD_eq_getElem?_getD]
    congr 2
    omega
  · rw [if_neg hsecond]
    by_cases hfirst : a ≤ x ∧ x < a + d.length
    · rw [if_pos hfirst, if_pos (by omega), List.getD_eq_getElem?_getD,
        List.getElem?_append_left (by omega),
        List.getD_eq_getElem?_getD]
    · rw [if_neg hfirst, if_neg (by omega)]

@[simp] theorem perm_put (a : ℕ) (data : Bytes) : (mem.put a data).perm = mem.perm := rfl

/-! ### Which reads and writes fail -/

theorem le_of_new {addr len : ℕ} {u : UserSlice} (h : UserSlice.new addr len = .ok u) :
    u = ⟨addr, len⟩ ∧ addr + len ≤ lowerHalfEnd := by
  rw [UserSlice.new, checkedAdd] at h
  split at h
  · next stop hstop =>
    split at hstop
    · split at h
      · next hle =>
        cases hstop
        cases h
        exact ⟨rfl, hle⟩
      · cases h
    · cases hstop
  · cases h

variable {mem} {u : UserSlice} {offset n : ℕ} {data : Bytes}

theorem stopOf_eq_some {stop : ℕ} (h : u.stopOf offset n = some stop) :
    stop = offset + n ∧ stop ≤ u.len := by
  rw [UserSlice.stopOf, Option.filter_eq_some_iff] at h
  obtain ⟨hadd, hle⟩ := h
  rw [checkedAdd] at hadd
  split at hadd
  · exact ⟨(Option.some.inj hadd).symm, by simpa using hle⟩
  · cases hadd

theorem stopOf_of_le (hu : u.len < 2 ^ 64) (h : offset + n ≤ u.len) :
    u.stopOf offset n = some (offset + n) := by
  rw [UserSlice.stopOf, checkedAdd, if_pos (by omega), Option.filter_some,
    if_pos (by simpa using h)]

theorem Writable.mono {a stop a' stop' : ℕ} (h : mem.Writable a stop) (ha : a ≤ a')
    (hs : stop' ≤ stop) :
    mem.Writable a' stop' := by
  intro p hp hfrom hto
  have hdiv : a / page ≤ a' / page := Nat.div_le_div_right ha
  exact h p (by omega) (by omega) (by omega)

/-- **A range that was found writable is written.** -/
theorem write_of_writable (hu : u.len < 2 ^ 64) (h : mem.checkWritable u = .ok ())
    (hlen : offset + data.length ≤ u.len) :
    mem.write u offset data = .ok (mem.put (u.addr + offset) data) := by
  have hw : mem.Writable u.addr (u.addr + u.len) := by
    rw [checkWritable] at h
    split at h
    · next hw => exact hw
    · cases h
  rw [write, stopOf_of_le hu hlen]
  exact if_pos (hw.mono (by omega) (by omega))

theorem checkWritable_congr {mem' : UserMemory} (h : mem'.perm = mem.perm) (u : UserSlice) :
    mem'.checkWritable u = mem.checkWritable u := by
  refine if_congr (forall_congr' fun p => ?_) rfl rfl
  rw [h]

theorem read_eq_ok (h : mem.read u offset n = .ok data) :
    data = mem.bytes (u.addr + offset) n ∧ offset + n ≤ u.len ∧ data.length = n := by
  rw [read] at h
  split at h
  · cases h
  · next stop hstop =>
    split at h
    · cases h
      obtain ⟨rfl, hle⟩ := stopOf_eq_some hstop
      exact ⟨rfl, hle, length_bytes _ _ _⟩
    · cases h

/-- **When a read succeeds.** -/
theorem read_eq (hu : u.len < 2 ^ 64) :
    mem.read u offset n =
      if offset + n ≤ u.len ∧ mem.Mapped (u.addr + offset) (u.addr + offset + n) then
        .ok (mem.bytes (u.addr + offset) n)
      else .error .EFAULT := by
  rw [read, Nat.add_assoc]
  by_cases hle : offset + n ≤ u.len
  · simp only [stopOf_of_le hu hle, hle, true_and]
  · cases hstop : u.stopOf offset n with
    | none => simp only [hle, false_and, if_false]
    | some stop =>
      obtain ⟨rfl, hle'⟩ := stopOf_eq_some hstop
      exact absurd hle' hle

/-- **When a write succeeds.** -/
theorem write_eq (hu : u.len < 2 ^ 64) :
    mem.write u offset data =
      if offset + data.length ≤ u.len ∧
        mem.Writable (u.addr + offset) (u.addr + offset + data.length) then
        .ok (mem.put (u.addr + offset) data)
      else .error .EFAULT := by
  rw [write, Nat.add_assoc]
  by_cases hle : offset + data.length ≤ u.len
  · simp only [stopOf_of_le hu hle, hle, true_and]
  · cases hstop : u.stopOf offset data.length with
    | none => simp only [hle, false_and, if_false]
    | some stop =>
      obtain ⟨rfl, hle'⟩ := stopOf_eq_some hstop
      exact absurd hle' hle

theorem read_eq_error {e : Errno} (h : mem.read u offset n = .error e) : e = .EFAULT := by
  rw [read] at h
  split at h
  · exact (Except.error.inj h).symm
  · split at h
    · cases h
    · exact (Except.error.inj h).symm

end UserMemory

/-! ### The copies through the frames -/

variable {B : Set ℕ} {root : ℕ} {t : Tree} {m : Pages} {s s' : Mem} {f v : ℕ} {perm : Perm}

/-- **Copying**: words of the tables `T` are read, and bytes of the frames `F` are read and
written. Nothing else is asked of memory. -/
def copying (T F : Set ℕ) : Spec physMem Mem where
  pre
    | .word f i, _ => f ∈ T ∧ i < 512
    | .bytes f i n, _ => f ∈ F ∧ i + n ≤ page
    | .setBytes f i data, _ => f ∈ F ∧ i + data.length ≤ page
    | _, _ => False
  post := (spec ∅).post

section Copying

variable {T F : Set ℕ} {a b i n : ℕ} {α : Type}

theorem serves_copying : Serves (copying T F) T s := fun _ hg _ hi => ⟨⟨hg, hi⟩, fun _ _ hx => hx⟩

theorem wp_plus {K : Spec physMem Mem} {Q : ℕ → Mem → Prop} :
    wp K (plus a b) Q s ↔ a + b < 2 ^ 64 ∧ Q (a + b) s := by
  rw [plus, bind_eq, wp_bind, wp_need]
  rfl

theorem wp_minus {K : Spec physMem Mem} {Q : ℕ → Mem → Prop} :
    wp K (minus a b) Q s ↔ b ≤ a ∧ Q (a - b) s := by
  rw [minus, bind_eq, wp_bind, wp_need]
  rfl

theorem wp_readBytes_copying {Q : Bytes → Mem → Prop} (hf : f ∈ F) (hn : i + n ≤ page)
    (hQ : Q (s.bytes f i n) s) : wp (copying T F) (readBytes f i n) Q s := by
  refine (wp_request (S := physMem)).mpr ⟨⟨hf, hn⟩, ?_⟩
  rintro x s' ⟨rfl, rfl⟩
  exact hQ

theorem wp_writeBytes_copying {data : Bytes} {Q : Unit → Mem → Prop} (hf : f ∈ F)
    (hn : i + data.length ≤ page)
    (hQ : Q () (s.setBytes f i data)) : wp (copying T F) (writeBytes f i data) Q s := by
  refine (wp_request (S := physMem)).mpr ⟨⟨hf, hn⟩, ?_⟩
  rintro x s' rfl
  exact hQ

theorem wp_of_copying {p : Prog physMem α} {Q : α → Mem → Prop} (h : wp (copying T F) p Q s)
    (husable : ∀ f ∈ T ∪ F, Usable B s f) : wp (spec B) p Q s := by
  have hr : (spec B).Refines (copying T F) fun s1 s2 => s1 = s2 ∧ ∀ f ∈ T ∪ F, Usable B s2 f := by
    rintro r s1 _ ⟨rfl, hall⟩ hpre
    cases r with
    | word f i =>
      refine ⟨⟨hall f (Or.inl hpre.1), hpre.2⟩, fun x t' hx => ⟨t', hx, rfl, ?_⟩⟩
      exact hx.2 ▸ hall
    | bytes f i n =>
      refine ⟨⟨hall f (Or.inr hpre.1), hpre.2⟩, fun x t' hx => ⟨t', hx, rfl, ?_⟩⟩
      exact hx.2 ▸ hall
    | setBytes f i data =>
      refine ⟨⟨hall f (Or.inr hpre.1), hpre.2⟩, fun x t' hx => ⟨t', hx, rfl, fun g hg => ?_⟩⟩
      obtain rfl : t' = s1.setBytes f i data := hx
      exact hall g hg
    | setWord f i v => exact hpre.elim
    | alloc => exact hpre.elim
    | free f => exact hpre.elim
  refine wp_mono (wp_refine hr ⟨rfl, husable⟩ h) fun a s' => ?_
  rintro ⟨_, ⟨rfl, -⟩, hq⟩
  exact hq

end Copying

theorem Owns.wp_copy {α : Type} {p : Prog physMem α} {Q : α → Mem → Prop} (h : Owns B root t s)
    (hp : wp (copying t.tables (frames (t.node 0))) p Q s) : wp (spec B) p Q s := by
  refine wp_of_copying hp ?_
  rintro f (⟨k, p, a, hf⟩ | ⟨p, a, hf⟩)
  · exact h.usable hf
  · exact h.usable hf

/-- Looking a page up is copying. -/
theorem Owns.wp_userPage {Q : Option (ℕ × Perm) → Mem → Prop} {F : Set ℕ} (h : Owns B root t s)
    (hQ : Q (lookup (t.node 0) v) s) : wp (copying t.tables F) (userPage root v) Q s :=
  Mm.wp_userPage h.holds serves_copying hQ

/-- The memory of a program whose pages are `m`. -/
def view (m : Pages) (s : Mem) : UserMemory :=
  ⟨fun p => (m p).map Prod.snd, fun x => (byteAt m s x).getD 0⟩

theorem lookup_of_lt (h : v < lowerHalfEnd) : lookup m v = m (v / page) := if_neg (not_le.mpr h)

theorem perm_view_eq_none {p : ℕ} : (view m s).perm p = none ↔ m p = none := Option.map_eq_none_iff

theorem getD_page (hf : m (v / page) = some (f, perm)) {k n : ℕ} (hk : k < n)
    (hn : v % page + n ≤ page) :
    (s.bytes f (v % page) n).getD k 0 = (view m s).byte (v + k) := by
  have hmod : (v + k) / page = v / page ∧ (v + k) % page = v % page + k := by
    rw [page] at *
    omega
  change (slice _ _ _).getD k 0 = (byteAt m s (v + k)).getD 0
  rw [getD_slice hk, byteAt, hmod.1, hf, hmod.2]
  rfl

namespace UserSlice

open UserMemory

variable {a n done rounds : ℕ}

theorem mapped_step {k : ℕ} (hf : m ((a + done) / page) = some (f, perm))
    (hk : (a + done) % page + k ≤ page) :
    (view m s).Mapped (a + done) (a + n) ↔ (view m s).Mapped (a + (done + k)) (a + n) := by
  constructor
  · intro h x hx hle
    exact h x hx (by omega)
  · intro h x hx hle
    by_cases hin : x < a + (done + k)
    · have hpage : x / page = (a + done) / page := by
        rw [page] at *
        omega
      rw [hpage]
      intro hnone
      rw [perm_view_eq_none, hf] at hnone
      cases hnone
    · exact h x hx (by omega)

/-- What `readFrom` gives, with `done` of the bytes in `buf`. -/
def ReadPost (mem : UserMemory) (a n done : ℕ) (buf : Bytes)
    (r : Except Errno Unit × Bytes) : Prop :=
  (mem.Mapped (a + done) (a + n) → r.1 = .ok () ∧ r.2.length = n ∧
    ∀ k < n, r.2.getD k 0 = if k < done then buf.getD k 0 else mem.byte (a + k)) ∧
  (¬mem.Mapped (a + done) (a + n) → r.1 = .error .EFAULT)

variable {mem : UserMemory} {sp : AddressSpace} {stop : ℕ}

theorem ReadPost.of_le {buf : Bytes} (hbuf : buf.length = n) (hle : n ≤ done) :
    ReadPost mem a n done buf (.ok (), buf) := by
  refine ⟨fun _ => ⟨rfl, hbuf, fun k hk => ?_⟩, fun hnot => absurd (fun x hx hax => ?_) hnot⟩
  · exact (if_pos (by omega)).symm
  · omega

theorem wp_readFrom_view (h : Owns B root t s) (hm : t.node 0 = m) {buf : Bytes}
    (hbuf : buf.length = n)
    (hn : a + n ≤ lowerHalfEnd) (hdone : done ≤ n) (hrounds : n ≤ done + rounds) :
    wp (copying t.tables (frames m)) (readFrom root (a + n) rounds (a + done) done buf)
      (fun r s' => s' = s ∧ ReadPost (view m s) a n done buf r) s := by
  induction rounds generalizing done buf with
  | zero => exact ⟨rfl, .of_le hbuf (by omega)⟩
  | succ rounds ih =>
    rw [readFrom]
    split
    · next hle => exact ⟨rfl, .of_le hbuf (by omega)⟩
    · next hlt =>
      rw [bind_eq, wp_bind]
      refine h.wp_userPage ?_
      rw [hm, lookup_of_lt (by omega)]
      cases hpage : m ((a + done) / page) with
      | none =>
        refine ⟨rfl, fun hmapped => absurd (perm_view_eq_none.mpr hpage)
          (hmapped _ (by omega) le_rfl), fun _ => rfl⟩
      | some y =>
        obtain ⟨f, perm⟩ := y
        have hmod : (a + done) % page < page := Nat.mod_lt _ (by norm_num [page])
        have hbits : lowerHalfEnd < 2 ^ 64 := by decide
        simp only [bind_eq, wp_bind]
        refine wp_minus.mpr ⟨by omega, ?_⟩
        generalize hk : min (page - (a + done) % page) (buf.length - done) = k
        have hfits : (a + done) % page + k ≤ page ∧ done + k ≤ n ∧ 0 < k := by omega
        refine wp_readBytes_copying (mem_frames hpage) hfits.1 ?_
        refine wp_plus.mpr ⟨by omega, wp_plus.mpr ⟨by omega, ?_⟩⟩
        have hdata : (s.bytes f ((a + done) % page) k).length = k :=
          length_slice (by rw [(s.content f).2]; exact hfits.1)
        have hsplice : (splice buf done (s.bytes f ((a + done) % page) k)).length = n := by
          rw [length_splice, hbuf]
        rw [Nat.add_assoc]
        refine wp_mono (ih hsplice hfits.2.1 (by omega)) fun r s' hr => ⟨hr.1, ?_, ?_⟩
        · intro hmapped
          obtain ⟨hok, hlen, hget⟩ := hr.2.1 ((mapped_step hpage hfits.1).mp hmapped)
          refine ⟨hok, hlen, fun j hj => ?_⟩
          rw [hget j hj]
          by_cases hold : j < done
          · rw [if_pos hold, if_pos (by omega), getD_splice, if_neg (by omega)]
          · rw [if_neg hold]
            split
            · next hnew =>
              rw [getD_splice, hdata, if_pos (by omega), getD_page hpage (by omega) hfits.1]
              congr 1
              omega
            · rfl
        · intro hnot
          exact hr.2.2 fun hmapped => hnot ((mapped_step hpage hfits.1).mpr hmapped)

/-- **Reading through the frames** gives the bytes of the program's memory, or `EFAULT`. -/
theorem wp_read_view (u : UserSlice) (h : Owns B sp.pml4 t s) (hm : t.node 0 = m)
    (hu : u.addr + u.len ≤ lowerHalfEnd) (offset : ℕ) (buf : Bytes) :
    wp (copying t.tables (frames m)) (u.read sp offset buf) (fun r s' => s' = s ∧
      match (view m s).read u offset buf.length with
      | .ok data => r = (.ok (), data)
      | .error e => r.1 = .error e) s := by
  rw [UserSlice.read, UserMemory.read]
  cases hstop : u.stopOf offset buf.length with
  | none => exact ⟨rfl, rfl⟩
  | some stop =>
    obtain ⟨rfl, hle⟩ := stopOf_eq_some hstop
    have hbits : lowerHalfEnd < 2 ^ 64 := by decide
    have hread := @wp_readFrom_view B sp.pml4 t m s (u.addr + offset) buf.length 0
        buf.length h hm buf rfl
      (by omega) (Nat.zero_le _) (by omega)
    rw [Nat.add_zero, Nat.add_assoc] at hread
    simp only [bind_eq, wp_bind]
    refine wp_plus.mpr ⟨by omega, wp_plus.mpr ⟨by omega, ?_⟩⟩
    refine wp_mono hread fun r s' hr => ⟨hr.1, ?_⟩
    have hpost := hr.2
    rw [ReadPost, Nat.add_zero, Nat.add_assoc] at hpost
    by_cases hmapped : (view m s).Mapped (u.addr + offset) (u.addr + (offset + buf.length))
    · obtain ⟨hok, hlen, hget⟩ := hpost.1 hmapped
      simp only [if_pos hmapped]
      refine Prod.ext hok (ext_getD (by rw [hlen, length_bytes]) fun k hk => ?_)
      rw [hlen] at hk
      rw [hget k hk, if_neg (Nat.not_lt_zero k), getD_bytes _ hk]
    · simp only [if_neg hmapped]
      exact hpost.2 hmapped

theorem writable_of_le {p : ℕ} (h : stop ≤ p * page) : mem.Writable (p * page) stop := by
  intro q _ hfrom hto
  rw [Nat.mul_div_cancel p (by norm_num [page])] at hfrom
  have := Nat.mul_le_mul_right page hfrom
  omega

theorem wp_writableFrom_view {p : ℕ} (h : Owns B root t s) (hm : t.node 0 = m)
    (hstop : stop ≤ lowerHalfEnd)
    (hrounds : stop ≤ (p + rounds) * page) :
    wp (copying t.tables (frames m)) (writableFrom root stop rounds (p * page))
      (fun r s' => s' = s ∧
      r = if (view m s).Writable (p * page) stop then .ok () else .error .EFAULT) s := by
  induction rounds generalizing p with
  | zero => exact ⟨rfl, (if_pos (writable_of_le (by rwa [Nat.add_zero] at hrounds))).symm⟩
  | succ rounds ih =>
    have hp : p * page / page = p := Nat.mul_div_cancel p (by norm_num [page])
    rw [writableFrom]
    split
    · next hle => exact ⟨rfl, (if_pos (writable_of_le hle)).symm⟩
    · next hlt =>
      have hin : p < stop := by
        rw [page] at hlt
        omega
      rw [bind_eq, wp_bind]
      refine h.wp_userPage ?_
      rw [hm, lookup_of_lt (by omega), hp]
      -- a page that is not the program's, or not writable, ends it
      have hbad : (view m s).perm p ≠ some .readWrite →
          (Except.error Errno.EFAULT : Except Errno Unit) =
            if (view m s).Writable (p * page) stop then .ok () else .error .EFAULT :=
        fun hne => (if_neg fun hw => hne (hw p hin hp.le (by omega))).symm
      cases hpage : m p with
      | none => exact ⟨rfl, hbad (by simp [perm_view_eq_none.mpr hpage])⟩
      | some y =>
        obtain ⟨f, perm⟩ := y
        have hperm : (view m s).perm p = some perm := by
          rw [view]
          dsimp only
          rw [hpage, Option.map_some]
        cases perm with
        | readExec => exact ⟨rfl, hbad (by simp [hperm])⟩
        | read => exact ⟨rfl, hbad (by simp [hperm])⟩
        | readWrite =>
          have hnext : (p + 1) * page = p * page + page := Nat.succ_mul p page
          have hiff : (view m s).Writable (p * page) stop ↔
              (view m s).Writable ((p + 1) * page) stop := by
            refine ⟨fun hw => hw.mono (by omega) le_rfl, fun hw q hq hfrom hto => ?_⟩
            rw [hp] at hfrom
            rcases Nat.eq_or_lt_of_le hfrom with rfl | hlt'
            · exact hperm
            · exact hw q hq (by rw [Nat.mul_div_cancel _ (by norm_num [page])]; omega) hto
          have hbits : lowerHalfEnd + page < 2 ^ 64 := by decide
          have hsum : p * page + page < 2 ^ 64 := by omega
          simp only [hiff, bind_eq, wp_bind]
          rw [wp_plus]
          refine ⟨hsum, ?_⟩
          rw [← hnext]
          exact ih (by rwa [Nat.add_assoc, Nat.add_comm 1])

theorem writable_floor (mem : UserMemory) (a stop : ℕ) :
    mem.Writable (a / page * page) stop ↔ mem.Writable a stop := by
  rw [UserMemory.Writable, UserMemory.Writable, Nat.mul_div_cancel _ (by norm_num [page])]

theorem wp_writable_view (h : Owns B sp.pml4 t s) (hm : t.node 0 = m) {start : ℕ}
    (hstop : stop ≤ lowerHalfEnd) :
    wp (copying t.tables (frames m)) (writable sp start stop) (fun r s' => s' = s ∧
      r = if (view m s).Writable start stop then .ok () else .error .EFAULT) s := by
  have hfloor : start - start % page = start / page * page := by
    rw [page]
    omega
  have hloop := @wp_writableFrom_view B sp.pml4 t m s ((stop - start / page * page) / page + 1) stop
      (start / page)
    h hm hstop (by rw [page]; omega)
  rw [writable, hfloor]
  simpa only [writable_floor] using hloop

/-- **Checking through the tables** says whether the whole range may be written. -/
theorem wp_checkWritable_view (u : UserSlice) (h : Owns B sp.pml4 t s) (hm : t.node 0 = m)
    (hu : u.addr + u.len ≤ lowerHalfEnd) :
    wp (copying t.tables (frames m)) (u.checkWritable sp)
      (fun r s' => s' = s ∧ r = (view m s).checkWritable u) s := by
  have hbits : lowerHalfEnd < 2 ^ 64 := by decide
  rw [UserSlice.checkWritable, bind_eq, wp_bind]
  exact wp_plus.mpr ⟨by omega, wp_writable_view h hm hu⟩

theorem wp_writeFrom_view {data : Bytes} (h : Owns B root t s') (hm : t.node 0 = m)
    (hfilled : Filled m s a data done s') (hn : a + data.length ≤ lowerHalfEnd)
    (hmapped : (view m s).Mapped a (a + data.length)) (hdone : done ≤ data.length)
    (hrounds : data.length ≤ done + rounds) :
    wp (copying t.tables (frames m)) (writeFrom root (a + data.length) data rounds (a + done) done)
      (fun r s' => r = .ok () ∧ Owns B root t s' ∧ Filled m s a data data.length s') s' := by
  induction rounds generalizing done s' with
  | zero =>
    obtain rfl : done = data.length := by omega
    exact ⟨rfl, h, hfilled⟩
  | succ rounds ih =>
    rw [writeFrom]
    split
    · next hle =>
      obtain rfl : done = data.length := by omega
      exact ⟨rfl, h, hfilled⟩
    · next hlt =>
      rw [bind_eq, wp_bind]
      refine h.wp_userPage ?_
      rw [hm, lookup_of_lt (by omega)]
      cases hpage : m ((a + done) / page) with
      | none => exact absurd (perm_view_eq_none.mpr hpage) (hmapped _ (by omega) (by omega))
      | some y =>
        obtain ⟨f, perm⟩ := y
        have hmod : (a + done) % page < page := Nat.mod_lt _ (by norm_num [page])
        have hbits : lowerHalfEnd < 2 ^ 64 := by decide
        simp only [bind_eq, wp_bind]
        refine wp_minus.mpr ⟨by omega, ?_⟩
        generalize hk : min (page - (a + done) % page) (data.length - done) = k
        have hfits : (a + done) % page + k ≤ page ∧ done + k ≤ data.length ∧ 0 < k := by omega
        refine wp_writeBytes_copying (mem_frames hpage) ?_ ?_
        · rw [List.length_take, List.length_drop]
          omega
        · refine wp_plus.mpr ⟨by omega, wp_plus.mpr ⟨by omega, ?_⟩⟩
          rw [Nat.add_assoc]
          exact ih (h.setBytes (hm ▸ mem_frames hpage) _ _)
            (hfilled.step ⟨t, h, hm⟩ hpage hfits.1 hfits.2.1) hfits.2.1 (by omega)

theorem view_of_filled {data : Bytes} (h : Filled m s a data data.length s') :
    view m s' = (view m s).put a data := by
  rw [view, UserMemory.put, view]
  congr 1
  funext x
  dsimp only
  rw [h x]
  split
  · next hin => rw [List.getD_eq_getElem?_getD]
  · rfl

theorem mapped_of_writable {a : ℕ} (h : mem.Writable a stop) : mem.Mapped a stop := by
  intro x hx hax
  have hp : x / page * page ≤ x := Nat.div_mul_le_self x page
  have hle : x / page ≤ x := Nat.div_le_self x page
  rw [h (x / page) (by omega) (Nat.div_le_div_right hax) (by omega)]
  nofun

/-- **Writing through the frames** lays the bytes over the program's memory, all of them or,
with `EFAULT`, none. -/
theorem wp_write_view (u : UserSlice) (h : Owns B sp.pml4 t s) (hm : t.node 0 = m)
    (hu : u.addr + u.len ≤ lowerHalfEnd) (offset : ℕ) (data : Bytes) :
    wp (copying t.tables (frames m)) (u.write sp offset data) (fun r s' => Owns B sp.pml4 t s' ∧
      match (view m s).write u offset data with
      | .ok mem' => r = .ok () ∧ view m s' = mem' ∧ Filled m s (u.addr + offset) data data.length s'
      | .error e => r = .error e ∧ s' = s) s := by
  rw [UserSlice.write, UserMemory.write]
  cases hstop : u.stopOf offset data.length with
  | none => exact ⟨h, rfl, rfl⟩
  | some stop =>
    obtain ⟨rfl, hle⟩ := stopOf_eq_some hstop
    have hbits : lowerHalfEnd < 2 ^ 64 := by decide
    simp only [bind_eq, wp_bind]
    refine wp_plus.mpr ⟨by omega, wp_plus.mpr ⟨by omega, ?_⟩⟩
    refine wp_mono (wp_writable_view h hm (by omega)) fun r s' hr => ?_
    obtain ⟨hs, rfl⟩ := hr
    rw [hs]
    by_cases hw : (view m s).Writable (u.addr + offset) (u.addr + (offset + data.length))
    · simp only [if_pos hw]
      have hstart : Filled m s (u.addr + offset) data 0 s := fun x => by rw [if_neg (by omega)]
      have hloop := @wp_writeFrom_view B sp.pml4 t m s s (u.addr + offset) 0 data.length data h hm
          hstart (by omega)
        (by rw [Nat.add_assoc]; exact mapped_of_writable hw) (Nat.zero_le _) (by omega)
      rw [Nat.add_zero, Nat.add_assoc] at hloop
      exact wp_mono hloop fun r s' hr => ⟨hr.2.1, hr.1, view_of_filled hr.2.2, hr.2.2⟩
    · simp only [if_neg hw]
      exact ⟨h, rfl, rfl⟩

end UserSlice

end RelayOs.Mm
