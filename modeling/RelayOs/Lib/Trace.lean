import RelayOs.Lib.Program

/-!
# Traces

A specification of a store (`RelayOs.Spec`) says what one answer may be. Some properties of
a program are not of that kind: that it asks for nothing more after a certain reply, that
between two requests a third has been made. They are about the **trace** of a run – the
requests in order, each with the reply it got – and they have to hold whatever the replies
are, since the other end is a device or a user.
-/

namespace RelayOs

/-- A request, and the reply it got. -/
structure Event (S : Signature) where
  request : S.Request
  reply : S.Reply request

/-- The events of a run, in order. -/
abbrev Trace (S : Signature) := List (Event S)

namespace Prog

variable {S : Signature} {α β ε : Type}

/-- **A run in the open**: with some replies or other, `p` makes the trace and returns the
result. -/
def Runs : Prog S α → Trace S → α → Prop
  | ret a, t, b => t = [] ∧ b = a
  | fault, _, _ => False
  | ask r k, t, b => ∃ x t', t = ⟨r, x⟩ :: t' ∧ (k x).Runs t' b

variable {t : Trace S}

variable {a : α} {p : Prog S α} {r : Except ε α}

theorem runs_request {r : S.Request} {x : S.Reply r} : (request r).Runs t x ↔ t = [⟨r, x⟩] := by
  constructor
  · rintro ⟨y, t', rfl, rfl, rfl⟩
    rfl
  · rintro rfl
    exact ⟨x, [], rfl, rfl, rfl⟩

/-- **The trace of a run is that of its parts**, one after the other. -/
theorem runs_bind {f : α → Prog S β} {b : β} :
    (p.bind f).Runs t b ↔ ∃ t1 a t2, p.Runs t1 a ∧ (f a).Runs t2 b ∧ t = t1 ++ t2 := by
  induction p generalizing t with
  | ret a =>
    constructor
    · intro h
      exact ⟨[], a, t, ⟨rfl, rfl⟩, h, rfl⟩
    · rintro ⟨t1, a', t2, ⟨rfl, rfl⟩, h, rfl⟩
      exact h
  | fault =>
    constructor
    · exact False.elim
    · rintro ⟨t1, a, t2, h, -⟩
      exact h.elim
  | ask r k ih =>
    constructor
    · rintro ⟨x, t', rfl, h⟩
      obtain ⟨t1, a, t2, h1, h2, rfl⟩ := (ih x).mp h
      exact ⟨⟨r, x⟩ :: t1, a, t2, ⟨x, t1, rfl, h1⟩, h2, rfl⟩
    · rintro ⟨t1, a, t2, ⟨x, t', rfl, h1⟩, h2, rfl⟩
      exact ⟨x, t' ++ t2, rfl, (ih x).mpr ⟨t', a, t2, h1, h2, rfl⟩⟩

/-! ### What a program may ask -/

/-- Every request of the program is one of `P`. -/
def Asks (P : S.Request → Prop) : Prog S α → Prop
  | ret _ => True
  | fault => True
  | ask r k => P r ∧ ∀ x, (k x).Asks P

variable {P : S.Request → Prop}

theorem asks_bind {f : α → Prog S β} (hp : p.Asks P) (hf : ∀ a, (f a).Asks P) :
    (p.bind f).Asks P := by
  induction p with
  | ret a => exact hf a
  | fault => trivial
  | ask r k ih => exact ⟨hp.1, fun x => ih x (hp.2 x)⟩

theorem Asks.of_runs (hp : p.Asks P) (h : p.Runs t a) : ∀ e ∈ t, P e.request := by
  induction p generalizing t with
  | ret b =>
    obtain ⟨rfl, -⟩ := h
    exact fun _ he => absurd he List.not_mem_nil
  | fault => exact h.elim
  | ask r k ih =>
    obtain ⟨x, t', rfl, h⟩ := h
    intro e he
    rcases List.mem_cons.mp he with rfl | he
    · exact hp.1
    · exact ih x (hp.2 x) h e he

/-! ### Programs that can fail -/

theorem asks_lift (hp : p.Asks P) : (liftM p : ExceptT ε (Prog S) α).run.Asks P :=
  asks_bind hp fun _ => trivial

theorem asks_except_bind {x : ExceptT ε (Prog S) α} {f : α → ExceptT ε (Prog S) β}
    (hx : x.run.Asks P)
    (hf : ∀ a, (f a).run.Asks P) : (x >>= f).run.Asks P := by
  rw [run_bind_except]
  refine asks_bind hx fun r => ?_
  cases r with
  | ok a => exact hf a
  | error e => trivial

theorem runs_pure :
    (pure a : ExceptT ε (Prog S) α).run.Runs t r ↔ t = [] ∧ r = .ok a := Iff.rfl

theorem runs_throw {e : ε} :
    (throw e : ExceptT ε (Prog S) α).run.Runs t r ↔ t = [] ∧ r = .error e := Iff.rfl

theorem runs_lift :
    (liftM p : ExceptT ε (Prog S) α).run.Runs t r ↔ ∃ a, p.Runs t a ∧ r = .ok a := by
  refine runs_bind.trans ?_
  constructor
  · rintro ⟨t1, a, t2, h, ⟨rfl, rfl⟩, rfl⟩
    exact ⟨a, by rwa [List.append_nil], rfl⟩
  · rintro ⟨a, h, rfl⟩
    exact ⟨t, a, [], h, ⟨rfl, rfl⟩, (List.append_nil t).symm⟩

/-- A program that can fail: either both parts ran, or the first failed and was the run. -/
theorem runs_except_bind {x : ExceptT ε (Prog S) α} {f : α → ExceptT ε (Prog S) β}
    {r : Except ε β} :
    (x >>= f).run.Runs t r ↔
      (∃ t1 a t2, x.run.Runs t1 (.ok a) ∧ (f a).run.Runs t2 r ∧ t = t1 ++ t2) ∨
        ∃ e, x.run.Runs t (.error e) ∧ r = .error e := by
  rw [run_bind_except, runs_bind]
  constructor
  · rintro ⟨t1, _ | a, t2, h1, h2, rfl⟩
    · obtain ⟨rfl, rfl⟩ := h2
      exact Or.inr ⟨_, by rwa [List.append_nil], rfl⟩
    · exact Or.inl ⟨t1, a, t2, h1, h2, rfl⟩
  · rintro (⟨t1, a, t2, h1, h2, rfl⟩ | ⟨e, h, rfl⟩)
    · exact ⟨t1, .ok a, t2, h1, h2, rfl⟩
    · exact ⟨t, .error e, [], h, ⟨rfl, rfl⟩, (List.append_nil t).symm⟩

end Prog

end RelayOs
