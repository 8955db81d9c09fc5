import RelayOs.Lib.Fields

/-!
# Allocation bitmaps

Bit `i` of a bitmap is bit `i % 8` of byte `i / 8`, set while block or inode `i` of the
group is in use. A bitmap is used in three ways – a bit is tested, a bit is changed, and
a clear bit is looked for – and the lemmas here say what each comes to in terms of
`RelayOs.Ext2.Bitmap.test` alone, so that nothing above this file looks at bytes.
-/

namespace RelayOs.Ext2.Bitmap

/-- The byte with bit `k` alone set. -/
def mask (k : ℕ) : UInt8 := 1 <<< UInt8.ofNat k

/-- Whether bit `i` is set. -/
def test (bits : Bytes) (i : ℕ) : Bool := bits.getD (i / 8) 0 &&& mask (i % 8) != 0

/-- Sets bit `i`. -/
def set (bits : Bytes) (i : ℕ) : Bytes :=
  splice bits (i / 8) [bits.getD (i / 8) 0 ||| mask (i % 8)]

/-- Clears bit `i`. -/
def clear (bits : Bytes) (i : ℕ) : Bytes :=
  splice bits (i / 8) [bits.getD (i / 8) 0 &&& ~~~mask (i % 8)]

/-- The loop of `first_zero`: each turn moves on by at least one bit, so as many turns as there are
bits are enough. -/
def firstZeroLoop (bits : Bytes) (stop : ℕ) : ℕ → ℕ → Option ℕ
  | 0, _ => none
  | turns + 1, i =>
    if stop ≤ i then none
    -- whole bytes in use are skipped
    else if i % 8 = 0 ∧ i + 8 ≤ stop ∧ bits.getD (i / 8) 0 = 0xFF then
      firstZeroLoop bits stop turns (i + 8)
    else if !test bits i then some i
    else firstZeroLoop bits stop turns (i + 1)

/-- The first clear bit in `start..stop`. -/
def firstZero (bits : Bytes) (start stop : ℕ) : Option ℕ :=
  firstZeroLoop bits stop (stop - start) start

/-- The first clear bit at or after `goal` among the first `len`, wrapping around to the start. -/
def findZero (bits : Bytes) (len goal : ℕ) : Option ℕ :=
  (firstZero bits (min goal len) len).or (firstZero bits 0 (min goal len))

@[simp] theorem length_set (bits : Bytes) (i : ℕ) : (set bits i).length = bits.length :=
  length_splice bits _ _

@[simp] theorem length_clear (bits : Bytes) (i : ℕ) : (clear bits i).length = bits.length :=
  length_splice bits _ _

/-! ### Bits of a byte -/

section Byte

theorem getLsbD_mask {k j : ℕ} (hk : k < 8) (hj : j < 8) :
    (mask k).toBitVec.getLsbD j = decide (j = k) := by
  interval_cases k <;> interval_cases j <;> rfl

theorem and_mask_ne_zero (b : UInt8) {k : ℕ} (hk : k < 8) :
    (b &&& mask k != 0) = b.toBitVec.getLsbD k := by
  have h : (b &&& mask k = 0) ↔ b.toBitVec.getLsbD k = false := by
    constructor
    · intro h
      have h' := congrArg (fun c : UInt8 => c.toBitVec.getLsbD k) h
      simpa [getLsbD_mask hk hk] using h'
    · intro h
      refine UInt8.toBitVec_inj.mp (BitVec.eq_of_getLsbD_eq fun j hj => ?_)
      rw [UInt8.toBitVec_and, BitVec.getLsbD_and, getLsbD_mask hk hj]
      by_cases hjk : j = k
      · subst hjk
        simp [h]
      · simp [hjk]
  cases hb : b.toBitVec.getLsbD k with
  | false => simp [h.mpr hb]
  | true =>
    rw [bne_iff_ne]
    intro h0
    rw [h.mp h0] at hb
    cases hb

end Byte

theorem test_eq (bits : Bytes) (i : ℕ) :
    test bits i = (bits.getD (i / 8) 0).toBitVec.getLsbD (i % 8) :=
  and_mask_ne_zero _ (Nat.mod_lt i (by norm_num))

/-! ### Looking for a clear bit -/

variable {bits : Bytes} {i : ℕ}

theorem test_of_byte {j : ℕ} (h : bits.getD (i / 8) 0 = 0xFF) (hi : i % 8 = 0)
    (hj : i ≤ j) (hj' : j < i + 8) : test bits j = true := by
  have hd : j / 8 = i / 8 := by omega
  have h8 : j % 8 < 8 := by omega
  rw [test_eq, hd, h]
  interval_cases j % 8 <;> rfl

/-- **What a search from `start` finds**: the first clear bit before `stop`, if there is one. -/
def Finds (bits : Bytes) (start stop : ℕ) : Option ℕ → Prop
  | some i => (start ≤ i ∧ i < stop ∧ test bits i = false) ∧ ∀ k, start ≤ k → k < i →
      test bits k = true
  | none => ∀ k, start ≤ k → k < stop → test bits k = true

section Finds

variable {start stop len goal k : ℕ}

/-- A search may start late, past bits that are set. -/
theorem Finds.skip {late : ℕ} {r : Option ℕ} (h : Finds bits late stop r) (hle : start ≤ late)
    (hset : ∀ k, start ≤ k → k < late → test bits k = true) : Finds bits start stop r := by
  have hbits : ∀ k, start ≤ k → (late ≤ k → test bits k = true) → test bits k = true :=
    fun k hk hlate => by
    by_cases hk' : k < late
    · exact hset k hk hk'
    · exact hlate (not_lt.mp hk')
  cases r with
  | none => exact fun k hk hstop => hbits k hk fun hk' => h k hk' hstop
  | some i => exact ⟨⟨hle.trans h.1.1, h.1.2⟩, fun k hk hi => hbits k hk fun hk' => h.2 k hk' hi⟩

theorem finds_firstZeroLoop (bits : Bytes) (stop : ℕ) : ∀ turns i, stop - i ≤ turns →
    Finds bits i stop (firstZeroLoop bits stop turns i) := by
  intro turns
  induction turns with
  | zero =>
    intro i hi k hk hk'
    omega
  | succ turns ih =>
    intro i hi
    unfold firstZeroLoop
    split_ifs with hstop hbyte hbit
    · intro k hk hk'
      omega
    · exact (ih (i + 8) (by omega)).skip (by omega) fun k => test_of_byte hbyte.2.2 hbyte.1
    · refine ⟨⟨le_rfl, by omega, by simpa using hbit⟩, fun k hk hk' => ?_⟩
      omega
    · refine (ih (i + 1) (by omega)).skip (Nat.le_succ i) fun k hk hk' => ?_
      obtain rfl : k = i := by omega
      simpa using hbit

theorem finds_firstZero (bits : Bytes) (start stop : ℕ) :
    Finds bits start stop (firstZero bits start stop) :=
  finds_firstZeroLoop bits stop (stop - start) start le_rfl

/-- **What `first_zero` finds is clear** and lies in the range. -/
theorem of_firstZero (h : firstZero bits start stop = some i) :
    start ≤ i ∧ i < stop ∧ test bits i = false := by
  have hfinds := finds_firstZero bits start stop
  rw [h] at hfinds
  exact hfinds.1

theorem set_of_firstZero (h : firstZero bits start stop = some i) (hk : start ≤ k) (hk' : k < i) :
    test bits k = true := by
  have hfinds := finds_firstZero bits start stop
  rw [h] at hfinds
  exact hfinds.2 k hk hk'

theorem of_firstZero_none (h : firstZero bits start stop = none) (hk : start ≤ k) (hk' : k < stop) :
    test bits k = true := by
  have hfinds := finds_firstZero bits start stop
  rw [h] at hfinds
  exact hfinds k hk hk'

/-- **What `find_zero` finds is clear** and among the first `len` bits. -/
theorem of_findZero (h : findZero bits len goal = some i) :
    i < len ∧ test bits i = false := by
  rcases Option.or_eq_some_iff.mp h with h | ⟨-, h⟩
  · exact (of_firstZero h).2
  · obtain ⟨-, hlt, hclear⟩ := of_firstZero h
    exact ⟨by omega, hclear⟩

theorem of_findZero_none (h : findZero bits len goal = none) (hk : k < len) :
    test bits k = true := by
  obtain ⟨h1, h2⟩ := Option.or_eq_none_iff.mp h
  by_cases hg : k < min goal len
  · exact of_firstZero_none h2 (Nat.zero_le k) hg
  · exact of_firstZero_none h1 (by omega) hk

/-! ### The order of the search -/

/-- How far bit `i` lies ahead of the goal, going round at the end. -/
def ahead (len goal i : ℕ) : ℕ := (i + len - min goal len) % len

theorem ahead_eq (hi : i < len) :
    ahead len goal i = if min goal len ≤ i then i - min goal len else i + len - min goal len := by
  unfold ahead
  split_ifs with h
  · rw [show i + len - min goal len = i - min goal len + len by omega, Nat.add_mod_right]
    exact Nat.mod_eq_of_lt (by omega)
  · exact Nat.mod_eq_of_lt (by omega)

theorem ahead_inj {j : ℕ} (hi : i < len) (hj : j < len)
    (h : ahead len goal i = ahead len goal j) : i = j := by
  rw [ahead_eq hi, ahead_eq hj] at h
  split_ifs at h <;> omega

theorem ahead_le_of_findZero (h : findZero bits len goal = some i)
    (hk : k < len) (hclear : test bits k = false) : ahead len goal i ≤ ahead len goal k := by
  rw [ahead_eq (of_findZero h).1, ahead_eq hk]
  by_contra hlt
  have hset : test bits k = true := by
    rcases Option.or_eq_some_iff.mp h with h | ⟨hnone, h⟩
    · obtain ⟨hle, hi, -⟩ := of_firstZero h
      exact set_of_firstZero h (by split_ifs at hlt <;> omega) (by split_ifs at hlt <;> omega)
    · obtain ⟨-, hi, -⟩ := of_firstZero h
      by_cases hg : min goal len ≤ k
      · exact of_firstZero_none hnone hg hk
      · exact set_of_firstZero h (Nat.zero_le k) (by split_ifs at hlt <;> omega)
  simp [hset] at hclear

theorem findZero_eq_some_iff : findZero bits len goal = some i ↔ i < len ∧ test bits i = false ∧
      ∀ k < len, test bits k = false → ahead len goal i ≤ ahead len goal k := by
  refine ⟨fun h => ⟨(of_findZero h).1, (of_findZero h).2, fun k => ahead_le_of_findZero h⟩, ?_⟩
  rintro ⟨hi, hclear, hfirst⟩
  cases h : findZero bits len goal with
  | none => simp [of_findZero_none h hi] at hclear
  | some j =>
    obtain ⟨hj, hclear'⟩ := of_findZero h
    rw [ahead_inj hi hj (le_antisymm (hfirst j hj hclear') (ahead_le_of_findZero h hi hclear))]

/-- **The search goes round from the goal**: it finds the first clear bit from the goal on, none
exactly when all are set, and nothing past the length matters. -/
theorem findZero_cyclic (bits : Bytes) (len goal : ℕ) :
    (∀ i, findZero bits len goal = some i ↔ i < len ∧ test bits i = false ∧
      ∀ k < len, test bits k = false → ahead len goal i ≤ ahead len goal k) ∧
    (findZero bits len goal = none ↔ ∀ k < len, test bits k = true) ∧
    ∀ bits', (∀ k < len, test bits' k = test bits k) →
      findZero bits' len goal = findZero bits len goal := by
  refine ⟨fun i => findZero_eq_some_iff, ⟨fun h k => of_findZero_none h, fun h => ?_⟩,
    fun bits' hagree => Option.ext fun i => ?_⟩
  · refine Option.eq_none_iff_forall_ne_some.mpr fun i hi => ?_
    obtain ⟨hlt, hclear⟩ := of_findZero hi
    simp [h i hlt] at hclear
  · rw [findZero_eq_some_iff, findZero_eq_some_iff]
    grind

end Finds

end RelayOs.Ext2.Bitmap
