import Mathlib

/-!
# Rings with an owner bit

A producer writes entry after entry around a ring of `N` slots and marks each with a bit that
changes with every lap (`RelayOs.Laps.lap`), so that a consumer who knows the lap it is on sees
which slots hold entries for it. `RelayOs.Laps.Holds` says what such a ring holds.
-/

namespace RelayOs.Laps

/-- The owner bit of entry `n`: set on the first lap, clear on the second. -/
def lap (N n : ℕ) : Bool := n / N % 2 = 0

variable {α β : Type*} {N n i j : ℕ}

theorem lap_add (hN : 0 < N) : lap N (n + N) = !lap N n := by
  rw [lap, lap, Nat.add_div_right n hN, ← decide_not]
  exact decide_eq_decide.mpr (by omega)

theorem mod_ne (h : i < j) (h' : j < i + N) : i % N ≠ j % N := by
  intro heq
  have hdvd : N ∣ j - i := (Nat.modEq_iff_dvd' h.le).mp heq
  have := Nat.le_of_dvd (by omega) hdvd
  omega

/-- A counter around the ring steps to the next slot. -/
theorem step_next (h : n % N + 1 < N) : (n + 1) % N = n % N + 1 ∧ lap N (n + 1) = lap N n := by
  have hn : n + 1 = N * (n / N) + (n % N + 1) := by
    have := Nat.div_add_mod n N
    omega
  have hdiv : (n + 1) / N = n / N := by
    rw [hn, Nat.mul_add_div (by omega), Nat.div_eq_of_lt h, Nat.add_zero]
  refine ⟨?_, by rw [lap, lap, hdiv]⟩
  conv_lhs => rw [hn, Nat.mul_add_mod, Nat.mod_eq_of_lt h]

/-- At the last slot it steps to the start, with the other bit. -/
theorem step_wrap (hN : 0 < N) (h : n % N + 1 = N) :
    (n + 1) % N = 0 ∧ lap N (n + 1) = !lap N n := by
  have hn : n + 1 = N * (n / N + 1) := by
    have := Nat.div_add_mod n N
    rw [Nat.mul_add, Nat.mul_one]
    omega
  have hdiv : (n + 1) / N = n / N + 1 := by rw [hn, Nat.mul_div_cancel_left _ hN]
  refine ⟨by rw [hn, Nat.mul_mod_right], ?_⟩
  rw [lap, lap, hdiv, ← decide_not]
  exact decide_eq_decide.mpr (by omega)

/-- **What a ring holds** for a consumer that has read `n` entries: the entries `unread` in the
slots from `n` on, with the bits of their laps, and then only slots whose bit is not that of the lap
to come. -/
structure Holds (N : ℕ) (bit : α → Bool) (read : ℕ → α → β) (slots : ℕ → α) (n : ℕ)
    (unread : List β) : Prop where
  fits : unread.length ≤ N
  owned : ∀ k x, unread[k]? = some x →
    read ((n + k) % N) (slots ((n + k) % N)) = x ∧ bit (slots ((n + k) % N)) = lap N (n + k)
  free : ∀ k < N, bit (slots ((n + unread.length + k) % N)) ≠ lap N (n + unread.length + k)

variable {bit : α → Bool} {read : ℕ → α → β} {slots : ℕ → α} {unread : List β} {x : β} {y : α}

theorem holds_nil_zero (h : ∀ i < N, bit (slots i) = false) : Holds N bit read slots 0 [] := by
  refine ⟨Nat.zero_le _, by simp, fun k hk => ?_⟩
  rw [List.length_nil, Nat.zero_add, Nat.mod_eq_of_lt hk, h k hk, lap, Nat.div_eq_of_lt hk]
  simp

namespace Holds

theorem stops (h : Holds N bit read slots n []) (hN : 0 < N) :
    bit (slots (n % N)) ≠ lap N n := h.free 0 hN

theorem head (h : Holds N bit read slots n (x :: unread)) :
    read (n % N) (slots (n % N)) = x ∧ bit (slots (n % N)) = lap N n := h.owned 0 x rfl

theorem tail (h : Holds N bit read slots n (x :: unread)) :
    Holds N bit read slots (n + 1) unread := by
  refine ⟨(Nat.le_succ _).trans h.fits, fun k z hz => ?_, fun k hk => ?_⟩
  · rw [Nat.add_right_comm, Nat.add_assoc]
    exact h.owned (k + 1) z hz
  · rw [show n + 1 + unread.length + k = n + (x :: unread).length + k by
      rw [List.length_cons]; omega]
    exact h.free k hk

/-- A consumer that starts where the producer is finds nothing until more is written. -/
theorem restart (h : Holds N bit read slots n unread) :
    Holds N bit read slots (n + unread.length) [] :=
  ⟨Nat.zero_le _, by simp, h.free⟩

/-- **One entry written.** -/
theorem write (h : Holds N bit read slots n unread) (hlt : unread.length < N)
    (hy : bit y = lap N (n + unread.length)) :
    Holds N bit read (Function.update slots ((n + unread.length) % N) y) n
      (unread ++ [read ((n + unread.length) % N) y]) := by
  refine ⟨by rw [List.length_append]; exact hlt, fun k z hz => ?_, fun k hk => ?_⟩
  · rcases Nat.lt_or_ge k unread.length with hk | hk
    · rw [List.getElem?_append_left hk] at hz
      rw [Function.update_of_ne (mod_ne (by omega) (by omega))]
      exact h.owned k z hz
    · rw [List.getElem?_append_right hk, List.getElem?_singleton] at hz
      obtain ⟨hk0, rfl⟩ : k - unread.length = 0 ∧ read ((n + unread.length) % N) y = z := by
        simpa using hz
      obtain rfl : k = unread.length := by omega
      rw [Function.update_self]
      exact ⟨rfl, hy⟩
  · rw [List.length_append, List.length_singleton]
    rcases Nat.lt_or_ge (k + 1) N with hlt' | hge
    · rw [Function.update_of_ne (Ne.symm (mod_ne (by omega) (by omega)))]
      have hfree := h.free (k + 1) hlt'
      rwa [← Nat.add_assoc, Nat.add_right_comm] at hfree
    · rw [show n + (unread.length + 1) + k = n + unread.length + N by omega, Nat.add_mod_right,
        Function.update_self,
        hy, lap_add (by omega)]
      simp

/-- **A slot's content changed**, with its bit as it was: the entries change as `f` says. -/
theorem rewrite (h : Holds N bit read slots n unread) {s : ℕ}
    (hy : bit y = bit (slots s)) {f : β → β}
    (hs : f (read s (slots s)) = read s y)
    (hf : ∀ i, i ≠ s → f (read i (slots i)) = read i (slots i)) :
    Holds N bit read (Function.update slots s y) n (unread.map f) := by
  have hbit : ∀ i, bit (Function.update slots s y i) = bit (slots i) := by
    intro i
    rcases eq_or_ne i s with rfl | hne
    · rw [Function.update_self, hy]
    · rw [Function.update_of_ne hne]
  refine ⟨by rw [List.length_map]; exact h.fits, fun k z hz => ?_, fun k hk => ?_⟩
  · rw [List.getElem?_map, Option.map_eq_some_iff] at hz
    obtain ⟨x, hx, rfl⟩ := hz
    obtain ⟨hread, howned⟩ := h.owned k x hx
    refine ⟨?_, (hbit _).trans howned⟩
    rw [← hread]
    rcases eq_or_ne ((n + k) % N) s with heq | hne
    · rw [heq, Function.update_self, hs]
    · rw [Function.update_of_ne hne, hf _ hne]
  · rw [List.length_map, hbit]
    exact h.free k hk

end Holds

end RelayOs.Laps
