import RelayOs.Lib.Fields
import RelayOs.Vfs.Contract

/-!
# A pipe's ring

Sixteen KiB between the processes that have the read end of a pipe and those that have the
write end. The bytes start somewhere in the memory and wrap around, so both copies – out of
the ring and into it – have two parts. `RelayOs.Pipes.Pipe.contents` is the queue the ring
stands for; a read takes from its front (`RelayOs.Pipes.Pipe.read_eq_some`) and a write adds
to its back (`RelayOs.Pipes.Pipe.write_eq_ok`).
-/

namespace RelayOs.Pipes

open Vfs

/-- The ring's size. -/
def size : ℕ := 16 * 1024

theorem size_pos : 0 < size := by decide

/-- **A pipe**: its memory as a ring, and how many may read and write. -/
structure Pipe where
  memory : Block size
  start : ℕ
  len : ℕ
  readers : ℕ
  writers : ℕ
  start_lt : start < size
  len_le : len ≤ size

namespace Pipe

/-- A new pipe in `memory`, with both ends open. -/
def new (memory : Block size) : Pipe := ⟨memory, 0, 0, 1, 1, size_pos, Nat.zero_le _⟩

/-- The pipe once `n` bytes are out of the ring. -/
def advance (p : Pipe) (n : ℕ) : Pipe :=
  { p with
    start := (p.start + n) % size
    len := p.len - n
    start_lt := Nat.mod_lt _ size_pos
    len_le := (Nat.sub_le _ _).trans p.len_le }

/-- The oldest `n` bytes, the part up to the end of the memory and the part from its beginning. -/
def oldest (p : Pipe) (n : ℕ) : Bytes :=
  let first := min n (size - p.start)
  slice p.memory.1 p.start first ++ slice p.memory.1 0 (n - first)

/-- **Takes up to `want` bytes**: none at all at the end of the data, and `none` if the caller
has to wait. -/
def read (p : Pipe) (want : ℕ) : Option (Bytes × Pipe) :=
  if p.len = 0 then if p.writers = 0 then some ([], p) else none
  else some (p.oldest (min want p.len), p.advance (min want p.len))

/-- The memory with `bytes` behind what the ring holds. -/
def laid (p : Pipe) (bytes : Bytes) : Block size :=
  let at_ := (p.start + p.len) % size
  let first := min bytes.length (size - at_)
  ⟨splice (splice p.memory.1 at_ (bytes.take first)) 0 (bytes.drop first), by
    rw [length_splice, length_splice, p.memory.2]⟩

/-- The pipe with `bytes`, which fit, in the ring. -/
def put (p : Pipe) (bytes : Bytes) (h : p.len + bytes.length ≤ size) : Pipe :=
  { p with memory := p.laid bytes, len := p.len + bytes.length, len_le := h }

theorem fits (p : Pipe) (bytes : Bytes) : p.len + (bytes.take (size - p.len)).length ≤ size := by
  have := p.len_le
  rw [List.length_take]
  omega

/-- **Puts as much of `bytes` as fits**: how many they were, or `none` if the caller has to
wait; `EPIPE` if there is no read end. -/
def write (p : Pipe) (bytes : Bytes) : Except Errno (Option (ℕ × Pipe)) :=
  if p.readers = 0 then .error .EPIPE
  else
    let n := min bytes.length (size - p.len)
    if n = 0 ∧ bytes ≠ [] then .ok none
    else .ok (some (n, p.put (bytes.take (size - p.len)) (p.fits bytes)))

/-! ### The queue -/

variable (p : Pipe)

/-- The byte `i` places on, counted around the ring. -/
def cell (i : ℕ) : UInt8 := p.memory.1.getD (i % size) 0

/-- **The queue the ring stands for.** -/
def contents : Bytes := (List.range p.len).map fun j => p.cell (p.start + j)

@[simp] theorem length_contents : p.contents.length = p.len := by
  rw [contents, List.length_map, List.length_range]

theorem getD_contents {j : ℕ} (hj : j < p.len) : p.contents.getD j 0 = p.cell (p.start + j) := by
  simp only [contents, List.getD_eq_getElem?_getD, List.getElem?_map, List.getElem?_range hj,
    Option.map_some,
    Option.getD_some]

variable {n : ℕ} {bytes : Bytes}

theorem slice_eq_map {d : Bytes} {i : ℕ} (h : i + n ≤ d.length) :
    slice d i n = (List.range n).map fun j => d.getD (i + j) 0 := by
  have hlen := length_slice h
  refine ext_getD (by rw [hlen, List.length_map, List.length_range]) fun k hk => ?_
  rw [hlen] at hk
  rw [getD_slice hk]
  simp only [List.getD_eq_getElem?_getD, List.getElem?_map, List.getElem?_range hk, Option.map_some,
    Option.getD_some]

theorem oldest_eq (h : n ≤ p.len) :
    p.oldest n = (List.range n).map fun j => p.cell (p.start + j) := by
  have hstart := p.start_lt
  have hlen := p.len_le
  obtain ⟨first, hfirst⟩ : ∃ first, first = min n (size - p.start) := ⟨_, rfl⟩
  have hsplit : n = first + (n - first) := by omega
  have hmem := p.memory.2
  rw [oldest, ← hfirst, slice_eq_map (by omega), slice_eq_map (by omega)]
  conv_rhs => rw [hsplit, List.range_add, List.map_append, List.map_map]
  congr 1
  · refine List.map_congr_left fun j hj => ?_
    rw [List.mem_range] at hj
    rw [cell, Nat.mod_eq_of_lt (by omega)]
  · refine List.map_congr_left fun j hj => ?_
    rw [List.mem_range] at hj
    -- the second part starts where the memory does
    have hwrap : p.start + (first + j) = j + size := by omega
    rw [Function.comp_apply, cell, hwrap, Nat.add_mod_right,
      Nat.mod_eq_of_lt (by omega), Nat.zero_add]

theorem contents_advance (h : n ≤ p.len) : p.contents = p.oldest n ++ (p.advance n).contents := by
  have hsplit : p.len = n + (p.len - n) := by omega
  rw [oldest_eq p h, contents, hsplit, List.range_add, List.map_append, List.map_map, contents]
  congr 1
  refine List.map_congr_left fun j _ => ?_
  change p.cell (p.start + (n + j)) = p.cell ((p.start + n) % size + j)
  rw [cell, cell, Nat.mod_add_mod, Nat.add_assoc]

/-- **What a read takes is the front of the queue**; it takes nothing only at the end of the
data. -/
theorem read_eq_some {want : ℕ} {p' : Pipe} (h : p.read want = some (bytes, p')) :
    p.contents = bytes ++ p'.contents ∧ bytes.length ≤ want ∧ p'.readers = p.readers ∧
      p'.writers = p.writers ∧
      (bytes = [] → 0 < want → p' = p ∧ p.len = 0 ∧ p.writers = 0) := by
  rw [read] at h
  split at h
  · next hlen =>
    split at h
    · next hw =>
      obtain ⟨rfl, rfl⟩ := Prod.mk.inj (Option.some.inj h)
      exact ⟨rfl, Nat.zero_le _, rfl, rfl, fun _ _ => ⟨rfl, hlen, hw⟩⟩
    · cases h
  · next hlen =>
    obtain ⟨rfl, rfl⟩ := Prod.mk.inj (Option.some.inj h)
    have hn : min want p.len ≤ p.len := Nat.min_le_right _ _
    have hlength : (p.oldest (min want p.len)).length = min want p.len := by
      rw [oldest_eq p hn, List.length_map, List.length_range]
    refine ⟨contents_advance p hn, hlength.trans_le (Nat.min_le_left _ _), rfl, rfl,
      fun hnil hwant => ?_⟩
    rw [hnil, List.length_nil] at hlength
    omega

theorem read_eq_none {want : ℕ} (h : p.read want = none) : p.len = 0 ∧ p.writers ≠ 0 := by
  rw [read] at h
  split at h
  · next hlen =>
    split at h
    · cases h
    · next hw => exact ⟨hlen, hw⟩
  · cases h

theorem cell_put (h : p.len + bytes.length ≤ size) {j : ℕ} (hj : j < p.len + bytes.length) :
    (p.put bytes h).cell (p.start + j) = if j < p.len then p.cell (p.start + j)
      else bytes.getD (j - p.len) 0 := by
  have hstart := p.start_lt
  have hmem := p.memory.2
  change (p.laid bytes).1.getD _ 0 = _
  obtain ⟨at_, hat⟩ : ∃ a, a = (p.start + p.len) % size := ⟨_, rfl⟩
  obtain ⟨first, hfirst⟩ : ∃ f, f = min bytes.length (size - at_) := ⟨_, rfl⟩
  have hatlt : at_ < size := hat ▸ Nat.mod_lt _ size_pos
  simp only [laid, ← hat, ← hfirst, getD_splice, length_splice, hmem, List.length_take,
    List.length_drop]
  -- where the queue ends: before the end of the memory, or once around
  have hends : at_ = p.start + p.len ∨ at_ + size = p.start + p.len := by
    rcases Nat.lt_or_ge (p.start + p.len) size with hlt | hge
    · exact Or.inl (hat.trans (Nat.mod_eq_of_lt hlt))
    · refine Or.inr ?_
      rw [hat, Nat.mod_eq_sub_mod hge, Nat.mod_eq_of_lt (by have := p.len_le; omega)]
      omega
  obtain ⟨q, hq⟩ : ∃ q, q = (p.start + j) % size := ⟨_, rfl⟩
  have hplace : q = p.start + j ∧ q < size ∨ q + size = p.start + j := by
    rcases Nat.lt_or_ge (p.start + j) size with hlt | hge
    · have heq : q = p.start + j := hq.trans (Nat.mod_eq_of_lt hlt)
      exact Or.inl ⟨heq, heq ▸ hlt⟩
    · refine Or.inr ?_
      rw [hq, Nat.mod_eq_sub_mod hge, Nat.mod_eq_of_lt (by omega)]
      omega
  rw [← hq]
  by_cases hold : j < p.len
  · rw [if_pos hold, if_neg (by omega), if_neg (by omega), cell, ← hq]
  · rw [if_neg hold]
    by_cases hsecond : q < bytes.length - first
    · have hidx : first + (q - 0) = j - p.len := by omega
      rw [if_pos (by omega), List.getD_eq_getElem?_getD, List.getElem?_drop, hidx,
        List.getD_eq_getElem?_getD]
    · have hidx : q - at_ = j - p.len := by omega
      rw [if_neg (by omega), if_pos (by omega), hidx, List.getD_eq_getElem?_getD,
        List.getElem?_take,
        if_pos (by omega), List.getD_eq_getElem?_getD]

theorem contents_put (h : p.len + bytes.length ≤ size) :
    (p.put bytes h).contents = p.contents ++ bytes := by
  have hlen : (p.put bytes h).contents.length = (p.contents ++ bytes).length := by
    rw [length_contents, List.length_append, length_contents]
    rfl
  refine ext_getD hlen fun j hj => ?_
  have hj' : j < p.len + bytes.length := by
    rw [length_contents] at hj
    exact hj
  rw [getD_contents _ hj']
  change (p.put bytes h).cell (p.start + j) = _
  rw [cell_put p h hj']
  split
  · next hold =>
    rw [List.getD_eq_getElem?_getD, List.getElem?_append_left (by rwa [length_contents]),
      ← List.getD_eq_getElem?_getD, getD_contents p hold]
  · next hnew =>
    simp only [List.getD_eq_getElem?_getD]
    rw [List.getElem?_append_right (by rw [length_contents]; omega), length_contents]

/-- **What a write puts goes to the back of the queue.** -/
theorem write_eq_ok {p' : Pipe} (h : p.write bytes = .ok (some (n, p'))) :
    p'.contents = p.contents ++ bytes.take n ∧ n ≤ bytes.length ∧ p'.readers = p.readers ∧
      p'.writers = p.writers ∧
      p.readers ≠ 0 ∧ (bytes ≠ [] → 0 < n) := by
  rw [write] at h
  split at h
  · cases h
  · next hreaders =>
    dsimp only at h
    split at h
    · cases h
    · next hn =>
      obtain ⟨rfl, rfl⟩ := Prod.mk.inj (Option.some.inj (Except.ok.inj h))
      have htake : bytes.take (min bytes.length (size - p.len)) = bytes.take (size - p.len) := by
        rw [← List.take_take, List.take_of_length_le (by rw [List.length_take]; omega)]
      refine ⟨?_, Nat.min_le_left _ _, rfl, rfl, hreaders, fun hne => ?_⟩
      · rw [contents_put, htake]
      · exact Nat.pos_of_ne_zero fun hzero => hn ⟨hzero, hne⟩

theorem write_eq_none (h : p.write bytes = .ok none) : p.len = size ∧ p.readers ≠ 0 := by
  rw [write] at h
  split at h
  · cases h
  · next hreaders =>
    dsimp only at h
    split at h
    · next hn =>
      have hlen := p.len_le
      have hpos : 0 < bytes.length := List.length_pos_iff.mpr hn.2
      exact ⟨by omega, hreaders⟩
    · cases h

theorem write_eq_error {e : Errno} (h : p.write bytes = .error e) : e = .EPIPE ∧ p.readers = 0 := by
  rw [write] at h
  split at h
  · next hreaders => exact ⟨(Except.error.inj h).symm, hreaders⟩
  · dsimp only at h
    split at h <;> cases h

end Pipe

end RelayOs.Pipes
