import Mathlib

/-!
# Code that can fail, and code that can stop dead

A function of the source that returns a `Result` can do two things besides succeeding: fail,
which its caller sees, and stop dead – an index out of range, an overflow – which nobody
survives. Here it is a value of `ExceptT ε Option`: the outer layer is the failure, and
`none` below it is the stop.
-/

namespace RelayOs

variable {ε α β : Type}

/-- **It returns**: with a failure, or with a value that satisfies `Q`. -/
def Returns (x : ExceptT ε Option α) (Q : α → Prop) : Prop :=
  ∃ r, x.run = some r ∧ ∀ a, r = .ok a → Q a

/-- Fails with `e` if `c` holds. -/
def failIf (c : Prop) [Decidable c] (e : ε) : ExceptT ε Option Unit :=
  if c then throw e else pure ()

/-- The value, or the failure `e` if there is none. -/
def orFail (x : Option α) (e : ε) : ExceptT ε Option α :=
  match x with
  | none => throw e
  | some a => pure a

namespace Returns

variable {x : ExceptT ε Option α} {f : α → ExceptT ε Option β} {P Q : α → Prop} {R : β → Prop}

variable {a : α} {o : Option α}

theorem ret (h : Q a) : Returns (pure a : ExceptT ε Option α) Q :=
  ⟨.ok a, rfl, fun _ hb => (Except.ok.inj hb) ▸ h⟩

theorem fail (e : ε) : Returns (throw e : ExceptT ε Option α) Q := ⟨.error e, rfl, nofun⟩

theorem mono (h : Returns x P) (hPQ : ∀ a, P a → Q a) : Returns x Q := by
  obtain ⟨r, hr, hP⟩ := h
  exact ⟨r, hr, fun a ha => hPQ a (hP a ha)⟩

/-- One after the other. -/
theorem bind (h : Returns x P) (hf : ∀ a, P a → Returns (f a) R) : Returns (x >>= f) R := by
  obtain ⟨r, hr, hP⟩ := h
  have hrun : (x >>= f).run = x.run.bind fun r => match r with
      | .ok a => (f a).run
      | .error e => some (.error e) := by
    rw [ExceptT.run_bind]
    rfl
  cases r with
  | error e => exact ⟨.error e, by rw [hrun, hr, Option.bind_some], nofun⟩
  | ok a =>
    obtain ⟨r', hr', hR⟩ := hf a (hP a rfl)
    exact ⟨r', by rw [hrun, hr]; exact hr', hR⟩

theorem lift (h : o = some a) (hQ : Q a) : Returns (liftM o : ExceptT ε Option α) Q := by
  subst h
  exact ret hQ

/-- A step that could stop dead does not. -/
theorem lift_bind (h : o = some a) (hf : Returns (f a) R) :
    Returns ((liftM o : ExceptT ε Option α) >>= f) R :=
  (lift (Q := (· = a)) h rfl).bind fun _ hb => hb ▸ hf

theorem failIf_bind {c : Prop} [Decidable c] {e : ε} {g : Unit → ExceptT ε Option β}
    (h : ¬c → Returns (g ()) R) : Returns (failIf c e >>= g) R := by
  unfold failIf
  split
  · exact (fail (Q := fun _ => False) e).bind fun _ h => h.elim
  · next hc => exact (ret (Q := fun _ => True) trivial).bind fun _ _ => h hc

theorem orFail_bind {e : ε} (h : ∀ a, o = some a → Returns (f a) R) :
    Returns (orFail o e >>= f) R := by
  unfold orFail
  cases o with
  | none => exact (fail (Q := fun _ => False) e).bind fun _ h => h.elim
  | some a => exact (ret (Q := (· = a)) rfl).bind fun b hb => hb ▸ h a rfl

/-- **A loop**: `I` is what holds after the elements in `done`. -/
theorem foldlM {g : β → α → ExceptT ε Option β} {l : List α} {I : List α → β → Prop}
    {b : β} (h : I [] b)
    (hstep : ∀ done a b, a ∈ l → I done b → Returns (g b a) (I (done ++ [a]))) :
    Returns (l.foldlM g b) (I l) := by
  suffices ∀ rest done b, rest ⊆ l → I done b → Returns (rest.foldlM g b) (I (done ++ rest)) from
    this l [] b (List.Subset.refl l) h
  intro rest
  induction rest with
  | nil =>
    intro done b _ hI
    rw [List.append_nil]
    exact ret hI
  | cons a rest ih =>
    intro done b hsub hI
    obtain ⟨ha, hrest⟩ := List.cons_subset.1 hsub
    rw [List.foldlM_cons]
    refine (hstep done a b ha hI).bind fun b' hb' => ?_
    rw [List.append_cons]
    exact ih (done ++ [a]) b' hrest hb'

end Returns

end RelayOs
