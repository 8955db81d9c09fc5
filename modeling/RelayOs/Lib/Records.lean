import Mathlib
import RelayOs.Lib.Fields

/-!
# Records that tile a range

A sequence of records of varying length that cover a range without a gap, each starting where
the one before it ends (`RelayOs.Tiled`). A range so tiled can be cut at any record
(`RelayOs.tiled_append`), so a change to one record is a matter of that record: what lies before
and after it is tiled by what it was, as long as nothing was written there
(`RelayOs.Tiled.mono`).
-/

namespace RelayOs

section Tiled

variable {E : Type} (size : E → ℕ) (Good : ℕ → E → Prop)

/-- **The records tile the range** from `a` to `b`: each is good where it starts. -/
def Tiled : ℕ → ℕ → List E → Prop
  | a, b, [] => a = b
  | a, b, e :: es => Good a e ∧ Tiled (a + size e) b es

variable {size Good} {Good' : ℕ → E → Prop} {a b : ℕ} {e : E} {l l1 l2 : List E}

theorem tiled_append :
    Tiled size Good a b (l1 ++ l2) ↔ ∃ c, Tiled size Good a c l1 ∧ Tiled size Good c b l2 := by
  induction l1 generalizing a with
  | nil => exact ⟨fun h => ⟨a, rfl, h⟩, fun ⟨_, hc, h⟩ => hc ▸ h⟩
  | cons e l1 ih =>
    rw [List.cons_append, Tiled, ih]
    exact ⟨fun ⟨he, c, h1, h2⟩ => ⟨c, ⟨he, h1⟩, h2⟩, fun ⟨c, ⟨he, h1⟩, h2⟩ => ⟨he, c, h1, h2⟩⟩

theorem tiled_singleton : Tiled size Good a b [e] ↔ Good a e ∧ a + size e = b := Iff.rfl

theorem Tiled.le (h : Tiled size Good a b l) : a ≤ b := by
  induction l generalizing a with
  | nil => exact h.le
  | cons e l ih => exact (Nat.le_add_right _ _).trans (ih h.2)

/-- A range is tiled by the same records where each of them is good in another way. -/
theorem Tiled.mono (h : Tiled size Good a b l)
    (himp : ∀ x e, e ∈ l → a ≤ x → x + size e ≤ b → Good x e → Good' x e) :
    Tiled size Good' a b l := by
  induction l generalizing a with
  | nil => exact h
  | cons e l ih =>
    refine ⟨himp a e List.mem_cons_self le_rfl h.2.le h.1, ih h.2 fun x e' he' hx => ?_⟩
    exact himp x e' (List.mem_cons_of_mem e he') ((Nat.le_add_right _ _).trans hx)

theorem Tiled.exists_of_mem (h : Tiled size Good a b l) (he : e ∈ l) :
    ∃ x, a ≤ x ∧ x + size e ≤ b ∧ Good x e := by
  induction l generalizing a with
  | nil => cases he
  | cons e' l ih =>
    rcases List.mem_cons.mp he with rfl | he
    · exact ⟨a, le_rfl, h.2.le, h.1⟩
    · obtain ⟨x, hx, hrest⟩ := ih h.2 he
      exact ⟨x, (Nat.le_add_right _ _).trans hx, hrest⟩

end Tiled

/-! ### Parts of byte strings that are the same -/

/-- **The byte strings are the same** from byte `a` up to `b`. -/
def SameOn (d d' : Bytes) (a b : ℕ) : Prop := ∀ k, a ≤ k → k < b → d'.getD k 0 = d.getD k 0

namespace SameOn

variable {d d' d'' : Bytes} {a b i n : ℕ}

theorem mono {a' b' : ℕ} (h : SameOn d d' a b) (ha : a ≤ a') (hb : b' ≤ b) : SameOn d d' a' b' :=
  fun k hk hk' => h k (ha.trans hk) (hk'.trans_le hb)

theorem trans (h : SameOn d d' a b) (h' : SameOn d' d'' a b) : SameOn d d'' a b :=
  fun k hk hk' => (h' k hk hk').trans (h k hk hk')

/-- A write elsewhere. -/
theorem splice (d : Bytes) {v : Bytes} (h : b ≤ i ∨ i + v.length ≤ a) :
    SameOn d (RelayOs.splice d i v) a b :=
  fun k hk hk' => getD_splice_of_disjoint d (by omega)

theorem byte (h : SameOn d d' a b) (hi : a ≤ i) (hi' : i + 1 ≤ b) :
    d'.getD i 0 = d.getD i 0 := h i hi hi'

theorem u16At (h : SameOn d d' a b) (hi : a ≤ i) (hi' : i + 2 ≤ b) : u16At d' i = u16At d i := by
  rw [RelayOs.u16At, RelayOs.u16At, h i hi (by omega), h (i + 1) (by omega) (by omega)]

theorem u32At (h : SameOn d d' a b) (hi : a ≤ i) (hi' : i + 4 ≤ b) : u32At d' i = u32At d i := by
  rw [RelayOs.u32At, RelayOs.u32At, h.u16At hi (by omega), h.u16At (by omega) (by omega)]

theorem slice (h : SameOn d d' a b) (hlen : d'.length = d.length) (hi : a ≤ i) (hi' : i + n ≤ b) :
    slice d' i n = slice d i n := by
  have hlen' : (RelayOs.slice d' i n).length = (RelayOs.slice d i n).length := by
    simp only [RelayOs.slice, List.length_take, List.length_drop, hlen]
  refine ext_getD hlen' fun k hk => ?_
  have hkn : k < n := by
    simp only [RelayOs.slice, List.length_take] at hk
    omega
  rw [getD_slice hkn, getD_slice hkn, h (i + k) (by omega) (by omega)]

end SameOn

end RelayOs
