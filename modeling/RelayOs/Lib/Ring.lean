import Mathlib

/-!
# Ring buffers

A `RelayOs.Ring` keeps a queue in an array of fixed size: the queue starts at `head`,
goes on for `len` cells and wraps around. What a user of it cares about is the list it
stands for, `RelayOs.Ring.toList`, and every operation below comes with the one equation
that says what it does to that list.

Putting an element into a full ring is a failed assertion, so `RelayOs.Ring.push` gives
`none` there.
-/

namespace RelayOs

/-- **A ring buffer** with room for `n` elements. -/
structure Ring (α : Type) (n : ℕ) where
  cells : Fin n → α
  head : ℕ
  len : ℕ

namespace Ring

variable {α : Type} {n : ℕ} [NeZero n]

/-- The ring with nothing in it, every cell holding `a`. -/
def empty (a : α) : Ring α n := ⟨fun _ => a, 0, 0⟩

/-- The cell `i` places on, counted around the ring. -/
def cell (r : Ring α n) (i : ℕ) : α := r.cells (Fin.ofNat n i)

/-- **The queue the ring stands for**, first element first. -/
def toList (r : Ring α n) : List α := (List.range r.len).map fun j => r.cell (r.head + j)

/-- Adds `a` at the end; `none` if the ring is full. -/
def push (r : Ring α n) (a : α) : Option (Ring α n) :=
  if r.len < n then
    some
      { r with
        cells := Function.update r.cells (Fin.ofNat n (r.head + r.len)) a
        len := r.len + 1 }
  else none

/-- Takes the first element out. -/
def pop (r : Ring α n) : Option (α × Ring α n) :=
  if r.len = 0 then none
  else some (r.cell r.head, { r with head := (r.head + 1) % n, len := r.len - 1 })

/-- Moves what the ring holds, but `a`, to the end of `kept`. -/
def removeLoop [DecidableEq α] (a : α) : ℕ → Ring α n → Ring α n → Option (Ring α n)
  | 0, _, kept => some kept
  | turns + 1, r, kept =>
    match r.pop with
    | none => some kept
    | some (b, r) =>
      if b ≠ a then (kept.push b).bind (removeLoop a turns r) else removeLoop a turns r kept

/-- Takes `a` out of the ring, keeping the others' order; `fill` is what the cells of a new ring
hold. -/
def remove [DecidableEq α] (r : Ring α n) (fill a : α) : Option (Ring α n) :=
  removeLoop a r.len r (empty fill)

@[simp] theorem toList_empty (a : α) : (empty a : Ring α n).toList = [] := rfl

@[simp] theorem length_toList (r : Ring α n) : r.toList.length = r.len := by
  rw [toList, List.length_map, List.length_range]

theorem ofNat_ne {i j : ℕ} (hij : i < j) (hj : j < i + n) : Fin.ofNat n i ≠ Fin.ofNat n j := by
  intro h
  have hmod : i % n = j % n := congrArg Fin.val h
  have hdvd : n ∣ j - i := (Nat.modEq_iff_dvd' hij.le).mp hmod
  have := Nat.le_of_dvd (by omega) hdvd
  omega

variable {r : Ring α n}

/-- **A ring with room takes the element at its end.** -/
theorem push_of_lt (h : r.len < n) (a : α) :
    ∃ r', r.push a = some r' ∧ r'.toList = r.toList ++ [a] := by
  refine ⟨_, if_pos h, ?_⟩
  simp only [toList, List.range_succ, List.map_append, List.map_singleton, cell,
    Function.update_self]
  congr 1
  refine List.map_congr_left fun j hj => ?_
  have hj' := List.mem_range.mp hj
  exact Function.update_of_ne (ofNat_ne (by omega) (by omega)) _ _

theorem pop_eq_none : r.pop = none ↔ r.toList = [] := by
  rw [pop, ← List.length_eq_zero_iff, length_toList]
  split <;> simp_all

/-- **What comes out is the first element**, and what stays is the rest. -/
theorem toList_of_pop {r' : Ring α n} {a : α} (h : r.pop = some (a, r')) :
    r.toList = a :: r'.toList := by
  unfold pop at h
  split at h
  · cases h
  · rename_i hlen
    cases h
    obtain ⟨k, hk⟩ := Nat.exists_eq_succ_of_ne_zero hlen
    simp only [toList, hk, List.range_succ_eq_map, List.map_cons, List.map_map, Nat.add_zero,
      Nat.succ_sub_one]
    congr 1
    refine List.map_congr_left fun j _ => ?_
    have hmod : Fin.ofNat n (r.head + (j + 1)) = Fin.ofNat n ((r.head + 1) % n + j) := by
      refine Fin.ext ?_
      simp only [Fin.val_ofNat, Nat.mod_add_mod]
      congr 1
      omega
    exact congrArg r.cells hmod

theorem removeLoop_spec [DecidableEq α] (a : α) (turns : ℕ) :
    ∀ {r kept : Ring α n}, r.len ≤ turns → kept.len + r.len ≤ n →
      ∃ r', removeLoop a turns r kept = some r' ∧
        r'.toList = kept.toList ++ r.toList.filter (· ≠ a) := by
  induction turns with
  | zero =>
    intro r kept hr _
    have hnil : r.toList = [] := List.length_eq_zero_iff.mp ((length_toList r).trans (by omega))
    exact ⟨kept, rfl, by rw [hnil, List.filter_nil, List.append_nil]⟩
  | succ turns ih =>
    intro r kept hr hfit
    unfold removeLoop
    rcases hpop : r.pop with _ | ⟨b, r1⟩
    · refine ⟨kept, rfl, ?_⟩
      rw [pop_eq_none.mp hpop, List.filter_nil, List.append_nil]
    · have hlist := toList_of_pop hpop
      have hlen : r.len = r1.len + 1 := by
        rw [← length_toList r, ← length_toList r1, hlist, List.length_cons]
      by_cases hb : b = a
      · obtain ⟨r', h', hl'⟩ := @ih r1 kept (by omega) (by omega)
        refine ⟨r', ?_, ?_⟩
        · simp only [hb, ne_eq, not_true, if_false]
          exact h'
        · rw [hl', hlist, List.filter_cons_of_neg (by simp [hb])]
      · obtain ⟨k1, hk1, hkl⟩ := push_of_lt (r := kept) (by omega) b
        have hklen : k1.len = kept.len + 1 := by
          rw [← length_toList k1, hkl, List.length_append, length_toList]
          rfl
        obtain ⟨r', h', hl'⟩ := @ih r1 k1 (by omega) (by omega)
        refine ⟨r', ?_, ?_⟩
        · simp only [ne_eq, hb, not_false_iff, if_true, hk1, Option.bind_some]
          exact h'
        · rw [hl', hkl, hlist, List.filter_cons_of_pos (by simp [hb]), List.append_assoc]
          rfl

/-- **Taking an element out leaves the others in order.** -/
theorem remove_spec [DecidableEq α] (h : r.len ≤ n) (fill a : α) :
    ∃ r', r.remove fill a = some r' ∧ r'.toList = r.toList.filter (· ≠ a) := by
  obtain ⟨r', h', hl⟩ := @removeLoop_spec _ _ _ _ a r.len r (empty fill) le_rfl (by
    change 0 + r.len ≤ n
    omega)
  exact ⟨r', h', by rw [hl, toList_empty, List.nil_append]⟩

end Ring

end RelayOs
