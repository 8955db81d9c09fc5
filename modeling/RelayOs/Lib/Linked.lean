import Mathlib

/-!
# Singly linked lists in memory

A list threaded through memory: `next a` is what the node at `a` names as the node after
it, and 0 names no node. `RelayOs.Linked.Path next a as b` says that from `a` the nodes `as`
are passed and `b` is arrived at; a whole list ends at 0. What a program changes in such a
list is `next` at a few nodes, and a path stays as it is while its own nodes are not
touched (`RelayOs.Linked.Path.congr`).
-/

namespace RelayOs.Linked

variable {next next' : ℕ → ℕ} {a b c : ℕ} {as bs : List ℕ}

/-- **From `a` over the nodes listed to `b`.** -/
def Path (next : ℕ → ℕ) (a : ℕ) : List ℕ → ℕ → Prop
  | [], b => a = b
  | n :: ns, b => a = n ∧ n ≠ 0 ∧ Path next (next n) ns b

@[simp]
theorem path_nil : Path next a [] b ↔ a = b := Iff.rfl

theorem path_cons {n : ℕ} {ns : List ℕ} :
    Path next a (n :: ns) b ↔ a = n ∧ n ≠ 0 ∧ Path next (next n) ns b := Iff.rfl

theorem path_append : Path next a (as ++ bs) c ↔ ∃ b, Path next a as b ∧ Path next b bs c := by
  induction as generalizing a with
  | nil => simp
  | cons n ns ih => simp [path_cons, ih, and_assoc]

theorem Path.congr (h : Path next a as b) (hn : ∀ n ∈ as, next' n = next n) :
    Path next' a as b := by
  induction as generalizing a with
  | nil => exact h
  | cons n ns ih =>
    obtain ⟨hn0, hns⟩ := List.forall_mem_cons.mp hn
    obtain ⟨rfl, h0, hp⟩ := h
    exact ⟨rfl, h0, hn0 ▸ ih hp hns⟩

theorem Path.eq_nil_iff (h : Path next a as 0) : a = 0 ↔ as = [] := by
  cases as with
  | nil => exact ⟨fun _ => rfl, fun _ => h⟩
  | cons n ns => exact ⟨fun ha => absurd (h.1.symm.trans ha) h.2.1, nofun⟩

end RelayOs.Linked
