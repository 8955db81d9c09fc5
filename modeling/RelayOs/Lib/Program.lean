import Mathlib

/-!
# Programs over a store of requests

A driver written against a store does three things: it computes, it asks the
store for something and looks at the reply, and – when one of its assumptions
is broken – it stops dead. `RelayOs.Prog` is that, and nothing else: a tree whose
inner nodes are requests, branching on the replies, and whose leaves are results
or `RelayOs.Prog.fault`.
-/

namespace RelayOs

/-- The requests a program may make, each with the type of its reply. -/
structure Signature where
  Request : Type
  Reply : Request → Type

/-- **A program** over the requests of `S`, with a result in `α`. -/
inductive Prog (S : Signature) (α : Type) where
  | ret (a : α) : Prog S α
  /-- The program stops dead: a failed assertion, an index out of range, an
  arithmetic overflow. -/
  | fault : Prog S α
  | ask (r : S.Request) (k : S.Reply r → Prog S α) : Prog S α

namespace Prog

variable {S : Signature} {α β γ : Type}

/-- One program after another. -/
protected def bind : Prog S α → (α → Prog S β) → Prog S β
  | ret a, f => f a
  | fault, _ => fault
  | ask r k, f => ask r fun x => (k x).bind f

instance : Monad (Prog S) where
  pure := ret
  bind := Prog.bind

/-- The program stops dead unless `c` holds. -/
def need (c : Prop) [Decidable c] : Prog S Unit :=
  if c then ret () else fault

/-- The value, if there is one; the program stops dead if there is none. -/
def ofOption : Option α → Prog S α
  | some a => ret a
  | none => fault

/-- A single request. -/
def request (r : S.Request) : Prog S (S.Reply r) :=
  ask r ret

theorem pure_eq (a : α) : (pure a : Prog S α) = ret a := rfl

theorem bind_eq (p : Prog S α) (f : α → Prog S β) : p >>= f = p.bind f := rfl

@[simp] theorem ret_bind (a : α) (f : α → Prog S β) : (ret a).bind f = f a := rfl

@[simp] theorem fault_bind (f : α → Prog S β) : (fault : Prog S α).bind f = fault := rfl

@[simp] theorem ask_bind (r : S.Request) (k : S.Reply r → Prog S α) (f : α → Prog S β) :
    (ask r k).bind f = ask r fun x => (k x).bind f := rfl

end Prog

/-! ### Running a program -/

/-- **A store**: what it answers to a request in a state, and the state it is in
afterwards; `none` when the store itself stops dead. -/
abbrev Handler (S : Signature) (σ : Type) :=
  (r : S.Request) → σ → Option (S.Reply r × σ)

/-- The run of a program against a store: its result and the store's last state,
or `none` if either stopped dead. -/
def Prog.run {S : Signature} {σ α : Type} (h : Handler S σ) : Prog S α → σ → Option (α × σ)
  | .ret a, s => some (a, s)
  | .fault, _ => none
  | .ask r k, s =>
    match h r s with
    | none => none
    | some (x, s') => (k x).run h s'

namespace Prog

variable {S : Signature} {σ α β : Type} (h : Handler S σ)

@[simp] theorem run_ret (a : α) (s : σ) : (ret a : Prog S α).run h s = some (a, s) := rfl

@[simp] theorem run_fault (s : σ) : (fault : Prog S α).run h s = none := rfl

end Prog

/-! ### What a store may answer -/

/-- **A specification of a store**: which requests are allowed in a state, and
which replies and next states are possible. -/
structure Spec (S : Signature) (σ : Type) where
  pre : S.Request → σ → Prop
  post : (r : S.Request) → σ → S.Reply r → σ → Prop

namespace Prog

variable {S : Signature} {σ α β : Type}

/-- **The total reading**: no fault, only allowed requests, and the result
satisfies the postcondition. -/
def wp (sp : Spec S σ) : Prog S α → (α → σ → Prop) → σ → Prop
  | ret a, Q, s => Q a s
  | fault, _, _ => False
  | ask r k, Q, s => sp.pre r s ∧ ∀ x s', sp.post r s x s' → wp sp (k x) Q s'

/-- **The liberal reading**: if a result is reached, it satisfies the
postcondition. -/
def wlp (sp : Spec S σ) : Prog S α → (α → σ → Prop) → σ → Prop
  | ret a, Q, s => Q a s
  | fault, _, _ => True
  | ask r k, Q, s => ∀ x s', sp.post r s x s' → wlp sp (k x) Q s'

variable {sp : Spec S σ} {Q Q' : α → σ → Prop} {s : σ}

@[simp] theorem wp_ret (a : α) : wp sp (ret a) Q s ↔ Q a s := Iff.rfl

@[simp] theorem wlp_ret (a : α) : wlp sp (ret a) Q s ↔ Q a s := Iff.rfl

@[simp] theorem wlp_fault : wlp sp (fault : Prog S α) Q s ↔ True := Iff.rfl

theorem wp_request {r : S.Request} {Q : S.Reply r → σ → Prop} :
    wp sp (request r) Q s ↔ sp.pre r s ∧ ∀ x s', sp.post r s x s' → Q x s' := Iff.rfl

theorem wp_bind (p : Prog S α) (f : α → Prog S β) {Q : β → σ → Prop} :
    wp sp (p.bind f) Q s ↔ wp sp p (fun a s' => wp sp (f a) Q s') s := by
  induction p generalizing s with
  | ret a => rfl
  | fault => rfl
  | ask r k ih =>
    simp only [ask_bind, wp]
    exact and_congr Iff.rfl
      (forall_congr' fun x => forall_congr' fun s' => imp_congr Iff.rfl (ih x))

theorem wlp_bind (p : Prog S α) (f : α → Prog S β) {Q : β → σ → Prop} :
    wlp sp (p.bind f) Q s ↔ wlp sp p (fun a s' => wlp sp (f a) Q s') s := by
  induction p generalizing s with
  | ret a => rfl
  | fault => rfl
  | ask r k ih =>
    simp only [ask_bind, wlp]
    exact forall_congr' fun x => forall_congr' fun s' => imp_congr Iff.rfl (ih x)

theorem wp_mono {p : Prog S α} (hp : wp sp p Q s) (hq : ∀ a s', Q a s' → Q' a s') :
    wp sp p Q' s := by
  induction p generalizing s with
  | ret a => exact hq a s hp
  | fault => exact hp
  | ask r k ih => exact ⟨hp.1, fun x s' hx => ih x (hp.2 x s' hx)⟩

theorem wlp_mono {p : Prog S α} (hp : wlp sp p Q s) (hq : ∀ a s', Q a s' → Q' a s') :
    wlp sp p Q' s := by
  induction p generalizing s with
  | ret a => exact hq a s hp
  | fault => trivial
  | ask r k ih => exact fun x s' hx => ih x (hp x s' hx)

theorem wp_need (c : Prop) [Decidable c] {Q : Unit → σ → Prop} :
    wp sp (need c) Q s ↔ c ∧ Q () s := by
  unfold need
  by_cases hc : c
  · rw [if_pos hc]
    exact ⟨fun h => ⟨hc, h⟩, fun h => h.2⟩
  · rw [if_neg hc]
    exact ⟨fun h => h.elim, fun h => hc h.1⟩

theorem wlp_need (c : Prop) [Decidable c] {Q : Unit → σ → Prop} :
    wlp sp (need c) Q s ↔ (c → Q () s) := by
  unfold need
  by_cases hc : c
  · rw [if_pos hc]
    exact ⟨fun h _ => h, fun h => h hc⟩
  · rw [if_neg hc]
    exact ⟨fun _ h => absurd h hc, fun _ => trivial⟩

theorem wp_ofOption {o : Option α} {a : α} (h : o = some a) : wp sp (ofOption o) Q s ↔ Q a s := by
  subst h
  rfl

/-- **Safety and meaning, put together.** -/
theorem wp_and {p : Prog S α} (hp : wp sp p Q s) (hl : wlp sp p Q' s) :
    wp sp p (fun a s' => Q a s' ∧ Q' a s') s := by
  induction p generalizing s with
  | ret a => exact ⟨hp, hl⟩
  | fault => exact hp
  | ask r k ih => exact ⟨hp.1, fun x s' hx => ih x (hp.2 x s' hx) (hl x s' hx)⟩

/-! ### Loops -/

section Loops

/-- The programs `f 0`, `f 1` and so on, `n` of them. -/
def upTo (f : ℕ → Prog S Unit) : ℕ → Prog S Unit
  | 0 => ret ()
  | n + 1 => (upTo f n).bind fun _ => f n

/-- **The invariant of a counted loop.** -/
theorem wp_upTo {f : ℕ → Prog S Unit} {n : ℕ} {I : ℕ → σ → Prop}
    (hstep : ∀ i < n, ∀ s, I i s → wp sp (f i) (fun _ s' => I (i + 1) s') s) (h : I 0 s) :
    wp sp (upTo f n) (fun _ s' => I n s') s := by
  induction n with
  | zero => exact h
  | succ n ih =>
    rw [upTo, wp_bind]
    have hrest := ih fun i hi => hstep i (Nat.lt_succ_of_lt hi)
    exact wp_mono hrest fun _ s' hs' => hstep n (Nat.lt_succ_self n) s' hs'

-- A loop of many rounds is never to be unrolled by unification.
attribute [irreducible] upTo

end Loops

/-! ### Programs that can fail -/

section Fallible

variable {ε : Type}

/-- A program that cannot fail, among those that can. -/
@[simp] theorem wp_lift (p : Prog S α) {Q : Except ε α → σ → Prop} :
    wp sp (liftM p : ExceptT ε (Prog S) α).run Q s ↔ wp sp p (fun a => Q (.ok a)) s :=
  wp_bind p _

@[simp] theorem wp_except_pure (a : α) {Q : Except ε α → σ → Prop} :
    wp sp (pure a : ExceptT ε (Prog S) α).run Q s ↔ Q (.ok a) s := Iff.rfl

theorem run_bind_except (x : ExceptT ε (Prog S) α) (f : α → ExceptT ε (Prog S) β) :
    (x >>= f).run = x.run.bind fun r => match r with
      | .ok a => (f a).run
      | .error e => ret (.error e) := by
  rw [ExceptT.run_bind, bind_eq]
  congr 1
  funext r
  cases r <;> rfl

theorem wp_except_bind (x : ExceptT ε (Prog S) α) (f : α → ExceptT ε (Prog S) β)
    {Q : Except ε β → σ → Prop} :
    wp sp (x >>= f).run Q s ↔ wp sp x.run (fun r s' => match r with
      | .ok a => wp sp (f a).run Q s'
      | .error e => Q (.error e) s') s := by
  rw [run_bind_except, wp_bind]
  constructor <;> intro h <;> refine wp_mono h fun r s' hr => ?_ <;> cases r <;> exact hr

theorem wlp_except_bind (x : ExceptT ε (Prog S) α) (f : α → ExceptT ε (Prog S) β)
    {Q : Except ε β → σ → Prop} :
    wlp sp (x >>= f).run Q s ↔ wlp sp x.run (fun r s' => match r with
      | .ok a => wlp sp (f a).run Q s'
      | .error e => Q (.error e) s') s := by
  rw [run_bind_except, wlp_bind]
  constructor <;> intro h <;> refine wlp_mono h fun r s' hr => ?_ <;> cases r <;> exact hr

end Fallible

/-! ### Programs that can fail and carry a value along

A function that is handed a value to change leaves the changed value behind even when it
fails. It is a program over `ExceptT ε (StateT ι (Prog S))`: unlike the other order of the
two, a failure here keeps the value. -/

section Carrying

variable {ε ι : Type}

/-- A program that can fail, next to a value it does not touch. -/
def beside (x : ExceptT ε (Prog S) α) : ExceptT ε (StateT ι (Prog S)) α :=
  ExceptT.mk fun i => x.run.bind fun r => ret (r, i)

/-- A program's failure as a result, so that its caller can go on. -/
def attempt (x : ExceptT ε (StateT ι (Prog S)) α) : ExceptT ε (StateT ι (Prog S)) (Except ε α) :=
  ExceptT.mk fun i => (x.run.run i).bind fun r => ret (.ok r.1, r.2)

/-- Hands `i` to a program: its result or failure, and what became of `i`. -/
def handing (x : ExceptT ε (StateT ι (Prog S)) α) (i : ι) : ExceptT ε (Prog S) (Except ε α × ι) :=
  ExceptT.mk ((x.run.run i).bind fun r => ret (.ok r))

theorem run_bind_carrying (x : ExceptT ε (StateT ι (Prog S)) α)
    (f : α → ExceptT ε (StateT ι (Prog S)) β) (i : ι) :
    (x >>= f).run.run i = (x.run.run i).bind fun r => match r.1 with
      | .ok a => (f a).run.run r.2
      | .error e => ret (.error e, r.2) := by
  rw [ExceptT.run_bind, StateT.run_bind, bind_eq]
  congr 1
  funext r
  obtain ⟨r, j⟩ := r
  cases r <;> rfl

theorem wp_carrying_bind (x : ExceptT ε (StateT ι (Prog S)) α)
    (f : α → ExceptT ε (StateT ι (Prog S)) β) (i : ι) {Q : Except ε β × ι → σ → Prop} :
    wp sp ((x >>= f).run.run i) Q s ↔ wp sp (x.run.run i) (fun r s' => match r.1 with
      | .ok a => wp sp ((f a).run.run r.2) Q s'
      | .error e => Q (.error e, r.2) s') s := by
  rw [run_bind_carrying, wp_bind]
  constructor <;> intro h <;> refine wp_mono h fun r s' hr => ?_ <;> obtain ⟨_ | _, j⟩ := r <;>
    exact hr

end Carrying

end Prog

/-! ### From one specification to another -/

/-- A specification **refines** another through `R`: what the coarse one allows, the fine one
allows, and what the fine one answers, the coarse one foresees. -/
def Spec.Refines {S : Signature} {σ τ : Type} (fine : Spec S τ) (coarse : Spec S σ)
    (R : σ → τ → Prop) : Prop :=
  ∀ r s t, R s t → coarse.pre r s →
    fine.pre r t ∧ ∀ x t', fine.post r t x t' → ∃ s', coarse.post r s x s' ∧ R s' t'

variable {S : Signature} {σ α : Type} {p : Prog S α} {s : σ}

/-- **What is proved against the coarse specification holds against the fine one.** -/
theorem Prog.wp_refine {τ : Type} {fine : Spec S τ} {coarse : Spec S σ}
    {R : σ → τ → Prop} (hr : fine.Refines coarse R) {Q : α → σ → Prop} {t : τ}
    (hR : R s t) (hp : p.wp coarse Q s) : p.wp fine (fun a t' => ∃ s', R s' t' ∧ Q a s') t := by
  induction p generalizing s t with
  | ret a => exact ⟨s, hR, hp⟩
  | fault => exact hp
  | ask r k ih =>
    obtain ⟨hpre, hpost⟩ := hr r s t hR hp.1
    refine ⟨hpre, fun x t' ht => ?_⟩
    obtain ⟨s', hs', hR'⟩ := hpost x t' ht
    exact ih x hR' (hp.2 x s' hs')

/-! ### From a specification to a store -/

/-- A store **keeps** a specification through `R`, which relates the store's
states to the specification's: an allowed request is answered, and the answer is
one the specification foresees. -/
def Handler.Keeps {S : Signature} {γ σ : Type} (h : Handler S γ) (sp : Spec S σ)
    (R : γ → σ → Prop) : Prop :=
  ∀ r c s, R c s → sp.pre r s →
    ∃ x c' s', h r c = some (x, c') ∧ sp.post r s x s' ∧ R c' s'

/-- **What is proved against the specification holds of every run** against a
store that keeps it. -/
theorem Prog.wp_run {γ : Type} {h : Handler S γ} {sp : Spec S σ}
    {R : γ → σ → Prop} (hk : h.Keeps sp R) {Q : α → σ → Prop} {c : γ}
    (hR : R c s) (hp : p.wp sp Q s) :
    ∃ a c' s', p.run h c = some (a, c') ∧ Q a s' ∧ R c' s' := by
  induction p generalizing c s with
  | ret a => exact ⟨a, c, s, rfl, hp, hR⟩
  | fault => exact hp.elim
  | ask r k ih =>
    obtain ⟨x, c', s', hx, hpost, hR'⟩ := hk r c s hR hp.1
    simp only [run, hx]
    exact ih x hR' (hp.2 x s' hpost)

/-- **What a run asks**: its requests in order, each with the state it is made in,
up to the first that the store does not answer. -/
def Prog.trail {γ : Type} (h : Handler S γ) : Prog S α → γ → List (S.Request × γ)
  | .ret _, _ => []
  | .fault, _ => []
  | .ask r k, c =>
    match h r c with
    | none => [(r, c)]
    | some (x, c') => (r, c) :: (k x).trail h c'

/-- **A request the specification does not allow is not asked**, in any run whose
answers are among those it tells of. -/
theorem Prog.pre_of_mem_trail {h : Handler S σ} {sp : Spec S σ}
    (hpost : ∀ r s x s', h r s = some (x, s') → sp.post r s x s') {Q : α → σ → Prop}
    (hp : p.wp sp Q s) {r : S.Request} {s' : σ} (hr : (r, s') ∈ p.trail h s) : sp.pre r s' := by
  induction p generalizing s with
  | ret a => simp [trail] at hr
  | fault => exact hp.elim
  | ask r₀ k ih =>
    rw [trail] at hr
    split at hr
    · obtain ⟨rfl, rfl⟩ := Prod.mk.inj (List.mem_singleton.mp hr)
      exact hp.1
    · next x s₁ hx =>
      rcases List.mem_cons.mp hr with heq | hr
      · obtain ⟨rfl, rfl⟩ := Prod.mk.inj heq
        exact hp.1
      · exact ih x (hp.2 x s₁ (hpost _ _ _ _ hx)) hr

end RelayOs
