import Mathlib

/-!
# Records read in pieces

A queue holds records: runs of elements, and ends without any. A reader takes an end, or as many
elements of the first record as it has room for, and never goes on to the next record in the same
read. `RelayOs.Pieces.Cut rs ps left` says that the pieces `ps` were read off the records `rs`, and
`left` is still there.
-/

namespace RelayOs.Pieces

variable {α : Type}

/-- **Reading in pieces**: `none` is an end, which is read as such. -/
inductive Cut : List (Option (List α)) → List (Option (List α)) → List (Option (List α)) → Prop
  | nil (rs : List (Option (List α))) : Cut rs [] rs
  | stop {rs ps left} : Cut rs ps left → Cut (none :: rs) (none :: ps) left
  | whole {r rs ps left} : Cut rs ps left → Cut (some r :: rs) (some r :: ps) left
  | part {a b rs ps left} : a ≠ [] → b ≠ [] → Cut (some b :: rs) ps left →
      Cut (some (a ++ b) :: rs) (some a :: ps) left

/-- The elements of the records, without the ends. -/
def data (rs : List (Option (List α))) : List α := rs.flatMap fun r => r.getD []

/-- What the records take up: an end counts as one element. -/
def size (rs : List (Option (List α))) : ℕ := (rs.map fun r => r.elim 1 List.length).sum

@[simp] theorem data_nil : data ([] : List (Option (List α))) = [] := rfl

@[simp] theorem data_none (rs : List (Option (List α))) : data (none :: rs) = data rs := rfl

@[simp] theorem data_some (r : List α) (rs : List (Option (List α))) :
    data (some r :: rs) = r ++ data rs := rfl

@[simp] theorem size_nil : size ([] : List (Option (List α))) = 0 := rfl

@[simp] theorem size_none (rs : List (Option (List α))) : size (none :: rs) = 1 + size rs := by
  simp [size]

@[simp] theorem size_some (r : List α) (rs : List (Option (List α))) :
    size (some r :: rs) = r.length + size rs := by
  simp [size]

@[simp] theorem size_append (rs rs' : List (Option (List α))) :
    size (rs ++ rs') = size rs + size rs' := by
  simp [size]

theorem size_eq_zero_iff {rs : List (Option (List α))} (h : some [] ∉ rs) :
    size rs = 0 ↔ rs = [] := by
  cases rs with
  | nil => simp
  | cons r rs =>
    cases r with
    | none =>
      rw [size_none]
      simp
    | some r =>
      have hne : r ≠ [] := fun he => h (he ▸ List.mem_cons_self)
      have hpos := List.length_pos_iff.mpr hne
      rw [size_some]
      simp only [reduceCtorEq, iff_false]
      omega

namespace Cut

variable {rs ps left qs mid : List (Option (List α))}

/-- **Nothing is lost and nothing comes twice.** -/
theorem data_eq (h : Cut rs ps left) : data rs = data ps ++ data left := by
  induction h with
  | nil rs => rfl
  | stop _ ih => simpa using ih
  | whole _ ih => simpa using ih
  | part _ _ _ ih => simpa using ih

theorem size_eq (h : Cut rs ps left) : size rs = size ps + size left := by
  induction h with
  | nil rs => simp
  | stop _ ih =>
    simp only [size_none, ih]
    omega
  | whole _ ih =>
    simp only [size_some, ih]
    omega
  | part _ _ _ ih =>
    simp only [size_some, List.length_append] at ih ⊢
    omega

/-- Records that come later wait behind the others. -/
theorem append (h : Cut rs ps left) (more : List (Option (List α))) :
    Cut (rs ++ more) ps (left ++ more) := by
  induction h with
  | nil rs => exact nil _
  | stop _ ih => exact stop ih
  | whole _ ih => exact whole ih
  | part ha hb _ ih => exact part ha hb ih

theorem trans (h : Cut rs ps mid) (h' : Cut mid qs left) : Cut rs (ps ++ qs) left := by
  induction h with
  | nil rs => exact h'
  | stop _ ih => exact stop (ih h')
  | whole _ ih => exact whole (ih h')
  | part ha hb _ ih => exact part ha hb (ih h')

end Cut

end RelayOs.Pieces
