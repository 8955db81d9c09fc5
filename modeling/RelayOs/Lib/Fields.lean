import RelayOs.Lib.Bytes

/-!
# Fields in byte strings

On-disk structures are byte strings with numbers at fixed places, little-endian. This
file reads and writes them, and says the two things every use of a field comes down to:
**what was written is read back**, and **a write changes nothing outside it**.

A write that would reach past the end of the byte string does nothing here; a program
that makes one stops dead, and says so where it does.
-/

namespace RelayOs

/-- The `n` bytes of `d` from byte `i` on. -/
def slice (d : Bytes) (i n : ℕ) : Bytes := (d.drop i).take n

/-- The bytes `d` with `v` laid over them from byte `i` on. -/
def splice (d : Bytes) (i : ℕ) (v : Bytes) : Bytes :=
  if i + v.length ≤ d.length then d.take i ++ (v ++ d.drop (i + v.length)) else d

/-- The 16-bit number at byte `i`. -/
def u16At (d : Bytes) (i : ℕ) : ℕ :=
  (d.getD i 0).toNat + 256 * (d.getD (i + 1) 0).toNat

/-- The 32-bit number at byte `i`. -/
def u32At (d : Bytes) (i : ℕ) : ℕ := u16At d i + 65536 * u16At d (i + 2)

/-- The two bytes of a 16-bit number. -/
def u16Bytes (v : ℕ) : Bytes := [UInt8.ofNat v, UInt8.ofNat (v / 256)]

/-- The four bytes of a 32-bit number. -/
def u32Bytes (v : ℕ) : Bytes := u16Bytes v ++ u16Bytes (v / 65536)

/-- Sets the 16-bit number at byte `i`. -/
def setU16 (d : Bytes) (i v : ℕ) : Bytes := splice d i (u16Bytes v)

/-- Sets the 32-bit number at byte `i`. -/
def setU32 (d : Bytes) (i v : ℕ) : Bytes := splice d i (u32Bytes v)

@[simp] theorem length_u16Bytes (v : ℕ) : (u16Bytes v).length = 2 := by
  simp [u16Bytes]

@[simp] theorem length_u32Bytes (v : ℕ) : (u32Bytes v).length = 4 := by
  simp [u32Bytes]

@[simp] theorem length_splice (d : Bytes) (i : ℕ) (v : Bytes) :
    (splice d i v).length = d.length := by
  unfold splice
  split
  · simp only [List.length_append, List.length_take, List.length_drop]
    omega
  · rfl

@[simp] theorem length_setU16 (d : Bytes) (i v : ℕ) : (setU16 d i v).length = d.length :=
  length_splice d i _

@[simp] theorem length_setU32 (d : Bytes) (i v : ℕ) : (setU32 d i v).length = d.length :=
  length_splice d i _

variable {d : Bytes} {i : ℕ}

theorem length_slice {n : ℕ} (h : i + n ≤ d.length) : (slice d i n).length = n := by
  simp only [slice, List.length_take, List.length_drop]
  omega

/-! ### Byte by byte -/

theorem getD_slice {n k : ℕ} (hk : k < n) : (slice d i n).getD k 0 = d.getD (i + k) 0 := by
  simp only [slice, List.getD_eq_getElem?_getD, List.getElem?_take, if_pos hk, List.getElem?_drop]

/-- Two byte strings of one length are equal if they are byte by byte. -/
theorem ext_getD {e : Bytes} (hlen : d.length = e.length)
    (h : ∀ k < d.length, d.getD k 0 = e.getD k 0) : d = e := by
  refine List.ext_getElem hlen fun k hk hk' => ?_
  have := h k hk
  simpa [List.getD_eq_getElem?_getD, hk, hk'] using this

/-- **A write, byte by byte.** -/
theorem getD_splice (d : Bytes) (i : ℕ) (v : Bytes) (k : ℕ) :
    (splice d i v).getD k 0 =
      if i + v.length ≤ d.length ∧ i ≤ k ∧ k < i + v.length then v.getD (k - i) 0
      else d.getD k 0 := by
  unfold splice
  by_cases hfit : i + v.length ≤ d.length
  swap
  · rw [if_neg hfit, if_neg fun h => hfit h.1]
  rw [if_pos hfit]
  have hi : (d.take i).length = i := by
    rw [List.length_take]
    omega
  simp only [List.getD_eq_getElem?_getD]
  -- before, inside and after what is laid over
  rcases Nat.lt_or_ge k i with hk | hk
  · rw [if_neg (by omega), List.getElem?_append_left (by omega), List.getElem?_take, if_pos hk]
  · rw [List.getElem?_append_right (by omega), hi]
    rcases Nat.lt_or_ge k (i + v.length) with hk' | hk'
    · rw [if_pos ⟨hfit, hk, hk'⟩, List.getElem?_append_left (by omega)]
    · rw [if_neg (by omega), List.getElem?_append_right (by omega), List.getElem?_drop]
      congr 2
      omega

theorem getD_splice_of_disjoint (d : Bytes) {v : Bytes} {k : ℕ}
    (h : k < i ∨ i + v.length ≤ k) : (splice d i v).getD k 0 = d.getD k 0 := by
  rw [getD_splice, if_neg (by omega)]

/-! ### What a write leaves alone -/

section Disjoint

variable {i j n : ℕ} {v : Bytes} (d : Bytes)

theorem slice_splice_of_disjoint (h : j + n ≤ i ∨ i + v.length ≤ j) :
    slice (splice d i v) j n = slice d j n := by
  refine ext_getD ?_ fun k hk => ?_
  · simp only [slice, List.length_take, List.length_drop, length_splice]
  · have hkn : k < n := by
      simp only [slice, List.length_take] at hk
      omega
    rw [getD_slice hkn, getD_slice hkn, getD_splice_of_disjoint d (by omega)]

theorem u16At_splice_of_disjoint (h : j + 2 ≤ i ∨ i + v.length ≤ j) :
    u16At (splice d i v) j = u16At d j := by
  unfold u16At
  rw [getD_splice_of_disjoint d (by omega), getD_splice_of_disjoint d (by omega)]

theorem u32At_splice_of_disjoint (h : j + 4 ≤ i ∨ i + v.length ≤ j) :
    u32At (splice d i v) j = u32At d j := by
  unfold u32At
  rw [u16At_splice_of_disjoint d (by omega), u16At_splice_of_disjoint d (by omega)]

end Disjoint

/-! ### What a write leaves behind -/

theorem slice_splice_same {v : Bytes} (h : i + v.length ≤ d.length) :
    slice (splice d i v) i v.length = v := by
  have hlen : (slice (splice d i v) i v.length).length = v.length :=
    length_slice (by rw [length_splice]; exact h)
  refine ext_getD hlen fun k hk => ?_
  rw [hlen] at hk
  rw [getD_slice hk, getD_splice, if_pos ⟨h, by omega, by omega⟩, Nat.add_sub_cancel_left]

theorem toNat_ofNat_byte (v : ℕ) : (UInt8.ofNat v).toNat = v % 256 := UInt8.toNat_ofNat'

theorem u16At_setU16 (v : ℕ) (h : i + 2 ≤ d.length) : u16At (setU16 d i v) i = v % 65536 := by
  have hlow : (splice d i (u16Bytes v)).getD i 0 = UInt8.ofNat v := by
    rw [getD_splice, if_pos ⟨h, le_rfl, by simp⟩, Nat.sub_self]
    rfl
  have hhigh : (splice d i (u16Bytes v)).getD (i + 1) 0 = UInt8.ofNat (v / 256) := by
    rw [getD_splice, if_pos ⟨h, by omega, by simp⟩, Nat.add_sub_cancel_left]
    rfl
  rw [setU16, u16At, hlow, hhigh, toNat_ofNat_byte, toNat_ofNat_byte]
  omega

theorem setU32_eq (d : Bytes) (v : ℕ) (h : i + 4 ≤ d.length) :
    setU32 d i v = setU16 (setU16 d (i + 2) (v / 65536)) i v := by
  refine ext_getD (by simp only [length_setU16, length_setU32]) fun k _ => ?_
  unfold setU32 setU16
  rw [getD_splice, getD_splice, getD_splice]
  simp only [length_u32Bytes, length_u16Bytes, length_splice]
  rcases Nat.lt_or_ge k i with hk | hk
  · rw [if_neg (by omega), if_neg (by omega), if_neg (by omega)]
  rcases Nat.lt_or_ge k (i + 2) with hk2 | hk2
  · rw [if_pos (by omega), if_pos (by omega)]
    simp only [u32Bytes, List.getD_eq_getElem?_getD]
    rw [List.getElem?_append_left (by rw [length_u16Bytes]; omega)]
  rcases Nat.lt_or_ge k (i + 4) with hk4 | hk4
  · rw [if_pos (by omega), if_neg (by omega), if_pos (by omega)]
    have hle : (u16Bytes v).length ≤ k - i := by
      rw [length_u16Bytes]
      omega
    simp only [u32Bytes, List.getD_eq_getElem?_getD]
    rw [List.getElem?_append_right hle, length_u16Bytes, Nat.sub_sub]
  · rw [if_neg (by omega), if_neg (by omega), if_neg (by omega)]

theorem u32At_setU32 (v : ℕ) (h : i + 4 ≤ d.length) : u32At (setU32 d i v) i = v % 2 ^ 32 := by
  have hhigh : u16At (setU16 (setU16 d (i + 2) (v / 65536)) i v) (i + 2) = v / 65536 % 65536 := by
    rw [setU16, u16At_splice_of_disjoint _ (by simp), u16At_setU16 _ (by omega)]
  rw [setU32_eq d v h, u32At, hhigh, u16At_setU16 _ (by rw [length_setU16]; omega)]
  omega

/-! ### Bounds -/

theorem u16At_lt (d : Bytes) (i : ℕ) : u16At d i < 65536 := by
  have h0 := (d.getD i 0).toNat_lt
  have h1 := (d.getD (i + 1) 0).toNat_lt
  unfold u16At
  omega

theorem u32At_lt (d : Bytes) (i : ℕ) : u32At d i < 2 ^ 32 := by
  have h0 := u16At_lt d i
  have h1 := u16At_lt d (i + 2)
  unfold u32At
  omega

/-! ### Fields of a part -/

theorem u16At_replicate (n i : ℕ) : u16At (List.replicate n 0) i = 0 := by
  have h : ∀ k, (List.replicate n (0 : UInt8)).getD k 0 = 0 := fun k => by
    simp only [List.getD_eq_getElem?_getD, List.getElem?_replicate]
    split <;> rfl
  rw [u16At, h, h]
  rfl

theorem u32At_replicate (n i : ℕ) : u32At (List.replicate n 0) i = 0 := by
  unfold u32At
  rw [u16At_replicate, u16At_replicate]

/-! ### 64-bit numbers -/

/-- The 64-bit number at byte `i`. -/
def u64At (d : Bytes) (i : ℕ) : ℕ := u32At d i + 2 ^ 32 * u32At d (i + 4)

/-- Sets the 64-bit number at byte `i`. -/
def setU64 (d : Bytes) (i v : ℕ) : Bytes := setU32 (setU32 d (i + 4) (v / 2 ^ 32)) i v

@[simp] theorem length_setU64 (d : Bytes) (i v : ℕ) : (setU64 d i v).length = d.length := by
  simp only [setU64, length_setU32]

theorem u64At_setU64 (v : ℕ) (h : i + 8 ≤ d.length) : u64At (setU64 d i v) i = v % 2 ^ 64 := by
  have hhigh : u32At (setU32 (setU32 d (i + 4) (v / 2 ^ 32)) i v) (i + 4) =
      v / 2 ^ 32 % 2 ^ 32 := by
    rw [setU32, u32At_splice_of_disjoint _ (by simp), u32At_setU32 _ (by omega)]
  rw [setU64, u64At, hhigh, u32At_setU32 _ (by rw [length_setU32]; omega)]
  omega

theorem u64At_setU64_of_disjoint (d : Bytes) {j : ℕ} (v : ℕ) (h : j + 8 ≤ i ∨ i + 8 ≤ j) :
    u64At (setU64 d i v) j = u64At d j := by
  unfold u64At setU64 setU32
  simp only [u32At_splice_of_disjoint _ (show j + 4 ≤ i ∨ i + (u32Bytes v).length ≤ j by
      rw [length_u32Bytes]; omega),
    u32At_splice_of_disjoint _ (show j + 4 + 4 ≤ i ∨ i + (u32Bytes v).length ≤ j + 4 by
      rw [length_u32Bytes]; omega),
    u32At_splice_of_disjoint _ (show j + 4 ≤ i + 4 ∨ i + 4 + (u32Bytes (v / 2 ^ 32)).length ≤ j by
      rw [length_u32Bytes]; omega),
    u32At_splice_of_disjoint _ (show j + 4 + 4 ≤ i + 4 ∨
        i + 4 + (u32Bytes (v / 2 ^ 32)).length ≤ j + 4 by
      rw [length_u32Bytes]; omega)]

theorem u64At_replicate (n i : ℕ) : u64At (List.replicate n 0) i = 0 := by
  rw [u64At, u32At_replicate, u32At_replicate, Nat.mul_zero]

theorem u64At_lt (d : Bytes) (i : ℕ) : u64At d i < 2 ^ 64 := by
  have h0 := u32At_lt d i
  have h1 := u32At_lt d (i + 4)
  unfold u64At
  omega

/-! ### Changes in place -/

namespace Edit

/-- The bytes `d` with `v` laid over them from byte `i` on. -/
def splice (i : ℕ) (v : Bytes) : Edit :=
  ⟨fun d => RelayOs.splice d i v, fun d => length_splice d i v⟩

/-- Nothing changes. -/
def keep : Edit := ⟨id, fun _ => rfl⟩

/-- One change after another. -/
def andThen (f g : Edit) : Edit :=
  ⟨fun d => g.apply (f.apply d), fun d => (g.length_apply _).trans (f.length_apply d)⟩

/-- Sets the 16-bit number at byte `i`. -/
def u16 (i v : ℕ) : Edit := splice i (u16Bytes v)

/-- Sets the 32-bit number at byte `i`. -/
def u32 (i v : ℕ) : Edit := splice i (u32Bytes v)

/-- Fills everything from byte `i` on with zeros. -/
def zeroFrom (i : ℕ) : Edit where
  apply d := d.take i ++ List.replicate (d.length - i) 0
  length_apply d := by
    simp only [List.length_append, List.length_take, List.length_replicate]
    omega

end Edit

end RelayOs
