import RelayOs.Vfs.Contract

/-!
# Block devices

A `RelayOs.Vfs.Device` is a disk of fixed-size blocks that fails when it likes: its
**schedule** says, for the request of each number, whether it goes through or
fails, and what a failed write leaves in each block it covered, given what the block
held and what should have been written. Quantifying over the schedule is
quantifying over every pattern of device errors, so a property of a driver that
holds for every device holds whatever the hardware does. Two kinds of device are
named: a *reliable* one never fails, and on a *tearing* one a failed write leaves
every block either as it was or as it should be.
-/

namespace RelayOs.Vfs

/-- A device error. -/
inductive IoError
  | outOfRange
  | device
  deriving DecidableEq, Repr

/-- Every device error is `EIO`. -/
def IoError.toErrno (_ : IoError) : Errno := Errno.EIO

/-- Whether a request of `len` bytes at block `lba` is whole blocks and lies inside a device of
`blockCount` blocks of `blockSize` bytes. -/
def checkRequest (blockSize blockCount lba len : ℕ) : Except IoError Unit :=
  if blockSize = 0 ∨ len % blockSize ≠ 0 then .error .outOfRange
  else if lba + len / blockSize < 2 ^ 64 ∧ lba + len / blockSize ≤ blockCount then .ok ()
  else .error .outOfRange

/-- A write request as the device saw it: the blocks it covered, whether it went through, and what
the device held after it. -/
structure DeviceWrite where
  lba : ℕ
  count : ℕ
  ok : Bool
  after : ℕ → Bytes

/-- **A block device** with its schedule of failures. -/
structure Device where
  blockSize : ℕ
  blockCount : ℕ
  data : ℕ → Block blockSize
  /-- Whether the request of this number fails, and what a failed write leaves in a
  block that held the first content and should hold the second. -/
  fault : ℕ → Option (ℕ → Block blockSize → Block blockSize → Block blockSize)
  asked : ℕ
  history : List DeviceWrite

namespace Device

/-- A device that never fails a request. -/
def Reliable (d : Device) : Prop := ∀ t, d.fault t = none

/-- A device on which a failed write leaves every block it covers either as it was or as it should
be. -/
def Tears (d : Device) : Prop :=
  ∀ t g, d.fault t = some g → ∀ i old new, g i old new = old ∨ g i old new = new

/-- What the device holds, block by block. -/
def contents (d : Device) (i : ℕ) : Bytes := (d.data i).val

/-- What `n` blocks from `lba` on hold. -/
def span (d : Device) (lba n : ℕ) : Bytes :=
  (List.range n).flatMap fun j => (d.data (lba + j)).val

/-- Reads `len` bytes from block `lba` on. -/
def read (d : Device) (lba len : ℕ) : Except IoError Bytes × Device :=
  match checkRequest d.blockSize d.blockCount lba len with
  | .error e => (.error e, d)
  | .ok () =>
    match d.fault d.asked with
    | some _ => (.error .device, { d with asked := d.asked + 1 })
    | none => (.ok (d.span lba (len / d.blockSize)), { d with asked := d.asked + 1 })

/-- The device's blocks with `buf` laid over the `n` blocks from `lba` on. -/
def overlay (d : Device) (lba n : ℕ) (buf : Bytes) : ℕ → Block d.blockSize := fun i =>
  if lba ≤ i ∧ i < lba + n then sector d.blockSize (buf.drop ((i - lba) * d.blockSize))
  else d.data i

/-- The device's blocks after a failed write of `buf` over the `n` blocks from `lba` on. -/
def scramble (d : Device) (lba n : ℕ) (buf : Bytes)
    (g : ℕ → Block d.blockSize → Block d.blockSize → Block d.blockSize) :
    ℕ → Block d.blockSize := fun i =>
  if lba ≤ i ∧ i < lba + n then g i (d.data i) (d.overlay lba n buf i) else d.data i

/-- The device after a write request of `n` blocks at `lba` that left `after`. -/
def wrote (d : Device) (lba n : ℕ) (ok : Bool) (after : ℕ → Block d.blockSize) : Device :=
  { d with
    data := after
    asked := d.asked + 1
    history := ⟨lba, n, ok, fun i => (after i).val⟩ :: d.history }

/-- Writes `buf` from block `lba` on. -/
def write (d : Device) (lba : ℕ) (buf : Bytes) : Except IoError Unit × Device :=
  let n := buf.length / d.blockSize
  match checkRequest d.blockSize d.blockCount lba buf.length with
  | .error e => (.error e, d.wrote lba n false d.data)
  | .ok () =>
    match d.fault d.asked with
    | some g => (.error .device, d.wrote lba n false (d.scramble lba n buf g))
    | none => (.ok (), d.wrote lba n true (d.overlay lba n buf))

/-- Makes every completed write durable. -/
def flush (d : Device) : Except IoError Unit × Device :=
  match d.fault d.asked with
  | some _ => (.error .device, { d with asked := d.asked + 1 })
  | none => (.ok (), { d with asked := d.asked + 1 })

/-! ### What a request does -/

@[simp] theorem length_span (d : Device) (lba n : ℕ) : (d.span lba n).length = n * d.blockSize := by
  simp only [span, List.length_flatMap]
  rw [List.map_congr_left (g := fun _ => d.blockSize) fun j _ => (d.data (lba + j)).property]
  simp

variable {lba : ℕ} {d : Device}

theorem checkRequest_ok {bs count len : ℕ} (h : checkRequest bs count lba len = .ok ()) :
    bs ≠ 0 ∧ len % bs = 0 := by
  unfold checkRequest at h
  split at h
  · cases h
  · rename_i hne
    exact ⟨fun hb => hne (Or.inl hb), by_contra fun hl => hne (Or.inr hl)⟩

theorem checkRequest_of_le {bs count n : ℕ} (hbs : 0 < bs) (hcount : count < 2 ^ 64)
    (h : lba + n ≤ count) : checkRequest bs count lba (n * bs) = .ok () := by
  unfold checkRequest
  rw [if_neg, if_pos]
  · rw [Nat.mul_div_cancel n hbs]
    exact ⟨lt_of_le_of_lt h hcount, h⟩
  · rintro (hb | hl)
    · omega
    · exact hl (Nat.mul_mod_left n bs)

/-- **A successful read** gives what the blocks hold and changes nothing. -/
theorem read_ok {d' : Device} {len : ℕ} {b : Bytes} (h : d.read lba len = (.ok b, d')) :
    b = d.span lba (len / d.blockSize) ∧ d' = { d with asked := d.asked + 1 } ∧
      b.length = len := by
  unfold read at h
  split at h
  · cases h
  · rename_i hc
    split at h
    · cases h
    · cases h
      refine ⟨rfl, rfl, ?_⟩
      rw [length_span, Nat.div_mul_cancel (Nat.dvd_of_mod_eq_zero (checkRequest_ok hc).2)]

theorem read_device (d : Device) (lba len : ℕ) :
    (d.read lba len).2 = d ∨ (d.read lba len).2 = { d with asked := d.asked + 1 } := by
  unfold read
  split
  · exact Or.inl rfl
  · split
    · exact Or.inr rfl
    · exact Or.inr rfl

theorem read_succeeds (hd : d.Reliable) (lba len : ℕ)
    (h : checkRequest d.blockSize d.blockCount lba len = .ok ()) :
    ∃ b, (d.read lba len).1 = .ok b := by
  unfold read
  simp only [h, hd d.asked]
  exact ⟨_, rfl⟩

theorem flush_device (d : Device) : d.flush.2 = { d with asked := d.asked + 1 } := by
  unfold flush
  split <;> rfl

/-- **What was written is what is there.** -/
theorem span_overlay (d : Device) (lba n k m : ℕ) {buf : Bytes}
    (hbuf : buf.length = n * d.blockSize) (h : k + m ≤ n) :
    ({ d with data := d.overlay lba n buf } : Device).span (lba + k) m =
      (buf.drop (k * d.blockSize)).take (m * d.blockSize) := by
  rw [← flatMap_chunks]
  refine List.flatMap_congr fun j hj => ?_
  have hj' := List.mem_range.mp hj
  change (d.overlay lba n buf (lba + k + j)).val = _
  rw [overlay, if_pos (by omega)]
  change fit d.blockSize _ = _
  have hidx : lba + k + j - lba = k + j := by omega
  rw [hidx, Nat.add_mul, ← List.drop_drop, fit_of_length_ge]
  -- the piece lies inside the buffer
  simp only [List.length_drop, hbuf]
  have hfit : (k + j + 1) * d.blockSize ≤ n * d.blockSize := Nat.mul_le_mul_right _ (by omega)
  rw [Nat.add_mul, Nat.add_mul] at hfit
  omega

/-! ### What a write request does, whether it fails or not -/

/-- A write request leaves some content behind: the old one if it was refused, a scrambled one if
the device failed it, the new one if it went through. -/
theorem write_cases (d : Device) (lba : ℕ) (buf : Bytes) :
    ∃ after, (d.write lba buf).2 =
        d.wrote lba (buf.length / d.blockSize) (d.write lba buf).1.toBool after ∧
      (after = d.data ∨
        (∃ g, d.fault d.asked = some g ∧
          after = d.scramble lba (buf.length / d.blockSize) buf g) ∨
        after = d.overlay lba (buf.length / d.blockSize) buf) := by
  unfold write
  simp only
  split
  · exact ⟨_, rfl, Or.inl rfl⟩
  · split
    · rename_i g hg
      exact ⟨_, rfl, Or.inr (Or.inl ⟨g, hg, rfl⟩)⟩
    · exact ⟨_, rfl, Or.inr (Or.inr rfl)⟩

theorem write_blockSize (d : Device) (lba : ℕ) (buf : Bytes) :
    (d.write lba buf).2.blockSize = d.blockSize := by
  obtain ⟨after, h, -⟩ := d.write_cases lba buf
  rw [h]
  rfl

theorem write_blockCount (d : Device) (lba : ℕ) (buf : Bytes) :
    (d.write lba buf).2.blockCount = d.blockCount := by
  obtain ⟨after, h, -⟩ := d.write_cases lba buf
  rw [h]
  rfl

theorem write_reliable (hd : d.Reliable) (lba : ℕ) (buf : Bytes) :
    (d.write lba buf).2.Reliable := by
  obtain ⟨after, h, -⟩ := d.write_cases lba buf
  rw [h]
  exact hd

theorem write_tears (hd : d.Tears) (lba : ℕ) (buf : Bytes) : (d.write lba buf).2.Tears := by
  obtain ⟨after, h, -⟩ := d.write_cases lba buf
  rw [h]
  exact hd

theorem write_history (d : Device) (lba : ℕ) (buf : Bytes) :
    (d.write lba buf).2.history =
      ⟨lba, buf.length / d.blockSize, (d.write lba buf).1.toBool, (d.write lba buf).2.contents⟩ ::
        d.history := by
  obtain ⟨after, h, -⟩ := d.write_cases lba buf
  rw [h]
  rfl

theorem write_outside (d : Device) (lba : ℕ) (buf : Bytes) {i : ℕ}
    (hi : i < lba ∨ lba + buf.length / d.blockSize ≤ i) :
    (d.write lba buf).2.contents i = d.contents i := by
  obtain ⟨after, h, hafter⟩ := d.write_cases lba buf
  rw [h]
  change (after i).val = (d.data i).val
  have hout : ¬(lba ≤ i ∧ i < lba + buf.length / d.blockSize) := by omega
  rcases hafter with rfl | ⟨g, -, rfl⟩ | rfl
  · rfl
  · rw [scramble, if_neg hout]
  · rw [overlay, if_neg hout]

theorem write_torn (hd : d.Tears) (lba : ℕ) (buf : Bytes) (i : ℕ) :
    (d.write lba buf).2.contents i = d.contents i ∨
      (lba ≤ i ∧ i < lba + buf.length / d.blockSize ∧
        (d.write lba buf).2.contents i =
          fit d.blockSize (buf.drop ((i - lba) * d.blockSize))) := by
  obtain ⟨after, h, hafter⟩ := d.write_cases lba buf
  rw [h]
  by_cases hin : lba ≤ i ∧ i < lba + buf.length / d.blockSize
  swap
  · left
    rw [← h]
    exact write_outside d lba buf (by omega)
  have hover : (d.overlay lba (buf.length / d.blockSize) buf i).val =
      fit d.blockSize (buf.drop ((i - lba) * d.blockSize)) := by
    rw [overlay, if_pos hin]
    rfl
  change (after i).val = (d.data i).val ∨ _ ∧ _ ∧ (after i).val = _
  rcases hafter with rfl | ⟨g, hg, rfl⟩ | rfl
  · exact Or.inl rfl
  · rw [scramble, if_pos hin]
    rcases hd _ g hg i (d.data i) (d.overlay lba (buf.length / d.blockSize) buf i) with hg | hg
    · exact Or.inl (congrArg Subtype.val hg)
    · exact Or.inr ⟨hin.1, hin.2, (congrArg Subtype.val hg).trans hover⟩
  · exact Or.inr ⟨hin.1, hin.2, hover⟩

theorem write_ok (hd : d.Reliable) {buf : Bytes}
    (h : checkRequest d.blockSize d.blockCount lba buf.length = .ok ()) :
    (d.write lba buf).1 = .ok () := by
  unfold write
  simp only [h, hd d.asked]

end Device

end RelayOs.Vfs
