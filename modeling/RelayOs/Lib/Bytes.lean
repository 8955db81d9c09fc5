import Mathlib

/-!
# Byte strings of a given length

Devices, caches and on-disk structures hold byte strings whose length is fixed:
a sector, a block, an inode. A `RelayOs.Block` carries its length in its type;
`RelayOs.fit` cuts or pads a byte string to a length, and `RelayOs.flatMap_chunks`
says that cutting a byte string into equal pieces and joining them again loses
nothing – which is all a request for several sectors at once rests on.
-/

namespace RelayOs

/-- A byte string. -/
abbrev Bytes := List UInt8

/-- A byte string of exactly `n` bytes. -/
abbrev Block (n : ℕ) := {b : Bytes // b.length = n}

/-- The bytes, cut or padded with zeros to `n` of them. -/
def fit (n : ℕ) (d : Bytes) : Bytes :=
  d.take n ++ List.replicate (n - d.length) 0

@[simp] theorem length_fit (n : ℕ) (d : Bytes) : (fit n d).length = n := by
  simp only [fit, List.length_append, List.length_take, List.length_replicate]
  omega

theorem fit_of_length_ge {n : ℕ} {d : Bytes} (h : n ≤ d.length) : fit n d = d.take n := by
  simp [fit, Nat.sub_eq_zero_of_le h]

/-- The first `n` bytes of `d`, with the length in the type. -/
def sector (n : ℕ) (d : Bytes) : Block n := ⟨fit n d, length_fit n d⟩

/-- **A change made in place** to a buffer: it cannot make the buffer longer or
shorter. -/
structure Edit where
  apply : Bytes → Bytes
  length_apply : ∀ d, (apply d).length = d.length

theorem flatMap_chunks {α : Type} (n k : ℕ) (d : List α) :
    (List.range k).flatMap (fun j => (d.drop (j * n)).take n) = d.take (k * n) := by
  induction k with
  | zero => simp
  | succ k ih => rw [List.range_succ, List.flatMap_append, ih, List.flatMap_singleton,
      ← List.take_add, Nat.succ_mul]

end RelayOs
