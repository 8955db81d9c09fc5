import Mathlib

/-!
# Lexers that read on

A text that arrives line by line is read in pieces, and what is made of the pieces should be
what would be made of the whole. That depends on how far a lexer looks ahead: one that has
come to the end of the text it was given must not decide anything that a further line could
change.

`RelayOs.Steady` says of a way to read on from a place that

* it moves on in the text and nowhere else;
* **a new line after the text changes nothing**: a success is the same success with anything
  after the new line, and a failure is the same failure with the new line alone. (With more
  text, a failure need not stay: a quote that was open at the end may be closed.)

`RelayOs.Lex` is a lexer that is steady everywhere.
-/

namespace RelayOs

/-- A place in a text: how many characters are before it, and those that follow. -/
structure Cursor where
  pos : ℕ
  rest : List Char
  deriving DecidableEq

/-- The same place in a text that goes on with `t`. -/
def Cursor.followed (cur : Cursor) (t : List Char) : Cursor :=
  ⟨cur.pos, cur.rest ++ t⟩

/-- The place `b` is `a` or after it, in the same text. -/
def Cursor.Reaches (a b : Cursor) : Prop :=
  ∃ taken : List Char, a.rest = taken ++ b.rest ∧ b.pos = a.pos + taken.length

theorem Cursor.Reaches.refl (a : Cursor) : a.Reaches a :=
  ⟨[], rfl, rfl⟩

theorem Cursor.Reaches.trans {a b c : Cursor} (h : a.Reaches b) (h' : b.Reaches c) :
    a.Reaches c := by
  obtain ⟨t, ht, hp⟩ := h
  obtain ⟨t', ht', hp'⟩ := h'
  refine ⟨t ++ t', ?_, ?_⟩
  · rw [ht, ht', List.append_assoc]
  · rw [hp', hp, List.length_append, Nat.add_assoc]

theorem Cursor.reaches_cons (pos : ℕ) (c : Char) (rest : List Char) :
    Cursor.Reaches ⟨pos, c :: rest⟩ ⟨pos + 1, rest⟩ :=
  ⟨[c], rfl, rfl⟩

theorem Cursor.Reaches.length_le {a b : Cursor} (h : a.Reaches b) :
    b.rest.length ≤ a.rest.length := by
  obtain ⟨t, ht, -⟩ := h
  rw [ht, List.length_append]
  exact Nat.le_add_left _ _

/-- Where the text ends is the same from either place. -/
theorem Cursor.Reaches.end_eq {a b : Cursor} (h : a.Reaches b) :
    b.pos + b.rest.length = a.pos + a.rest.length := by
  obtain ⟨t, ht, hp⟩ := h
  rw [ht, hp, List.length_append, Nat.add_assoc]

/-- A mapped result was a result. -/
theorem exists_of_map_eq_ok {ε α β : Type} {x : Except ε α} {f : α → β} {b : β}
    (h : x.map f = .ok b) : ∃ a, x = .ok a ∧ f a = b := by
  rcases x with e | a
  · cases h
  · cases h
    exact ⟨a, rfl, rfl⟩

section Steady

variable {ε α β : Type}

/-- Reading on with `run` from `pos`, where `rest` follows, is steady. -/
structure Steady (pos : ℕ) (rest : List Char) (run : List Char → Except ε (α × Cursor)) :
    Prop where
  moves : ∀ {a cur}, run rest = .ok (a, cur) → Cursor.Reaches ⟨pos, rest⟩ cur
  ok_followed : ∀ {a cur} (t : List Char), run rest = .ok (a, cur) →
    run (rest ++ '\n' :: t) = .ok (a, cur.followed ('\n' :: t))
  error_followed : ∀ {e}, run rest = .error e → run (rest ++ ['\n']) = .error e

namespace Steady

variable {pos : ℕ} {rest : List Char} {run g : List Char → Except ε (α × Cursor)}

/-- A result, with the rest of the text still to come. -/
theorem ok {a : α} (h : ∀ t, run (rest ++ t) = .ok (a, ⟨pos, rest ++ t⟩)) :
    Steady pos rest run where
  moves := by
    intro b cur hrun
    have h0 := h []
    rw [List.append_nil, hrun] at h0
    cases h0
    exact .refl _
  ok_followed := by
    intro b cur t hrun
    have h0 := h []
    rw [List.append_nil, hrun] at h0
    cases h0
    exact h _
  error_followed := by
    intro e hrun
    have h0 := h []
    rw [List.append_nil, hrun] at h0
    cases h0

/-- A failure that stays. -/
theorem error {e : ε} (h : run rest = .error e) (h' : run (rest ++ ['\n']) = .error e) :
    Steady pos rest run where
  moves hrun := by
    rw [h] at hrun
    cases hrun
  ok_followed _ hrun := by
    rw [h] at hrun
    cases hrun
  error_followed hrun := by
    rw [h', ← h, hrun]

/-- Some characters are taken, and what is done then is steady. -/
theorem read {w : List Char} (h : run (w ++ rest) = g rest)
    (h' : ∀ t, run (w ++ (rest ++ '\n' :: t)) = g (rest ++ '\n' :: t))
    (hrest : Steady (pos + w.length) rest g) : Steady pos (w ++ rest) run where
  moves hrun := Cursor.Reaches.trans ⟨w, rfl, rfl⟩ (hrest.moves (h ▸ hrun))
  ok_followed t hrun := by
    rw [List.append_assoc, h' t]
    exact hrest.ok_followed t (h ▸ hrun)
  error_followed hrun := by
    rw [List.append_assoc, h' []]
    exact hrest.error_followed (h ▸ hrun)

/-- As `read`, where what is taken does not depend on what follows. -/
theorem take {w : List Char} (h : ∀ r, run (w ++ r) = g r)
    (hrest : Steady (pos + w.length) rest g) : Steady pos (w ++ rest) run :=
  read (h rest) (fun _ => h _) hrest

end Steady

end Steady

/-- **A lexer** with failures in `ε` and results in `α`. -/
structure Lex (ε α : Type) where
  run : Cursor → Except ε (α × Cursor)
  steady : ∀ pos rest, Steady pos rest fun rest => run ⟨pos, rest⟩

namespace Lex

variable {ε α β : Type}

section

variable {x : Lex ε α} {cur cur' : Cursor} {a : α}

theorem moves (h : x.run cur = .ok (a, cur')) : cur.Reaches cur' :=
  (x.steady cur.pos cur.rest).moves h

theorem ok_followed (t : List Char) (h : x.run cur = .ok (a, cur')) :
    x.run (cur.followed ('\n' :: t)) = .ok (a, cur'.followed ('\n' :: t)) :=
  (x.steady cur.pos cur.rest).ok_followed t h

theorem error_followed {e : ε} (h : x.run cur = .error e) :
    x.run (cur.followed ['\n']) = .error e :=
  (x.steady cur.pos cur.rest).error_followed h

end

/-- A result without reading anything. -/
protected def pure (a : α) : Lex ε α where
  run cur := .ok (a, cur)
  steady _ _ := .ok fun _ => rfl

/-- A failure. -/
def fail (e : ε) : Lex ε α where
  run _ := .error e
  steady _ _ := .error rfl rfl

/-- What the second of two lexers is run on. -/
def next (x : Except ε (α × Cursor)) (f : α → Cursor → Except ε (β × Cursor)) :
    Except ε (β × Cursor) :=
  match x with
  | .ok (a, cur) => f a cur
  | .error e => .error e

@[simp] theorem next_ok (a : α) (cur : Cursor) (f : α → Cursor → Except ε (β × Cursor)) :
    next (.ok (a, cur)) f = f a cur := rfl

@[simp] theorem next_error (e : ε) (f : α → Cursor → Except ε (β × Cursor)) :
    next (.error e) f = .error e := rfl

theorem next_eq_ok {x : Except ε (α × Cursor)} {f : α → Cursor → Except ε (β × Cursor)}
    {r : β × Cursor} (h : next x f = .ok r) : ∃ a cur, x = .ok (a, cur) ∧ f a cur = .ok r := by
  rcases x with e | ⟨a, cur⟩
  · cases h
  · exact ⟨a, cur, rfl, h⟩

/-- One lexer after another. -/
protected def bind (x : Lex ε α) (f : α → Lex ε β) : Lex ε β where
  run cur := next (x.run cur) fun a cur' => (f a).run cur'
  steady pos rest :=
    { moves := by
        intro b cur'' h
        obtain ⟨a, cur', hx, hf⟩ := next_eq_ok h
        exact (moves hx).trans (moves hf)
      ok_followed := by
        intro b cur'' t h
        obtain ⟨a, cur', hx, hf⟩ := next_eq_ok h
        have hx' := ok_followed t hx
        simp only [Cursor.followed] at hx'
        rw [hx']
        exact ok_followed t hf
      error_followed := by
        intro e h
        rcases hx : x.run ⟨pos, rest⟩ with e' | ⟨a, cur'⟩
        · have hx' := error_followed hx
          simp only [Cursor.followed] at hx'
          rw [hx] at h
          rw [hx']
          exact h
        · have hx' := ok_followed [] hx
          simp only [Cursor.followed] at hx'
          rw [hx] at h
          rw [hx']
          exact error_followed h }

instance : Monad (Lex ε) where
  pure := Lex.pure
  bind := Lex.bind

@[simp] theorem run_pure (a : α) (cur : Cursor) : (pure a : Lex ε α).run cur = .ok (a, cur) := rfl

theorem run_bind (x : Lex ε α) (f : α → Lex ε β) (cur : Cursor) :
    (x >>= f).run cur = next (x.run cur) fun a cur' => (f a).run cur' := rfl

/-- A computation that reads nothing. -/
def ofExcept : Except ε α → Lex ε α
  | .ok a => .pure a
  | .error e => fail e

@[simp] theorem run_ofExcept_ok (a : α) (cur : Cursor) :
    (ofExcept (.ok a) : Lex ε α).run cur = .ok (a, cur) := rfl

theorem ofExcept_bind_congr {x : Except ε α} {f g : α → Lex ε β}
    (h : ∀ a, x = .ok a → f a = g a) : ofExcept x >>= f = ofExcept x >>= g := by
  rcases x with e | a
  · rfl
  · exact h a rfl

/-- Where the lexer stands. -/
def pos : Lex ε ℕ where
  run cur := .ok (cur.pos, cur)
  steady _ _ := .ok fun _ => rfl

/-- The next character of the line, which is not taken; none at the line's end, be it a new
line or the end of the text. -/
def peek : Lex ε (Option Char) where
  run cur := .ok (cur.rest.head?.filter (· != '\n'), cur)
  steady _ rest :=
    match rest with
    | [] =>
      { moves := by
          rintro _ _ ⟨⟩
          exact .refl _
        ok_followed := by
          rintro _ _ _ ⟨⟩
          rfl
        error_followed := nofun }
    | _ :: _ => .ok fun _ => rfl

/-- What `take` does at a place. -/
def takeAt (p : Char → Bool) (pos : ℕ) : List Char → Option Char × Cursor
  | [] => (none, ⟨pos, []⟩)
  | c :: rest => if p c then (some c, ⟨pos + 1, rest⟩) else (none, ⟨pos, c :: rest⟩)

/-- Takes the next character if it is one of `p`; a new line is none of them. -/
def take (p : Char → Bool) (hp : p '\n' = false) : Lex ε (Option Char) where
  run cur := .ok (takeAt p cur.pos cur.rest)
  steady pos rest := by
    cases rest with
    | nil =>
      constructor
      · rintro _ _ ⟨⟩
        exact .refl _
      · rintro _ _ t ⟨⟩
        simp [Cursor.followed, takeAt, hp]
      · nofun
    | cons c rest =>
      by_cases hc : p c = true
      · refine .take (w := [c]) (g := fun r => .ok (some c, ⟨pos + 1, r⟩)) (fun r => ?_)
          (.ok fun _ => rfl)
        simp [takeAt, hc]
      · refine .ok (a := none) fun t => ?_
        simp [takeAt, hc]

/-- Takes the next character if it is `c`. -/
def takeEq (c : Char) (hc : ('\n' == c) = false) : Lex ε Bool := do
  let taken ← take (· == c) hc
  pure taken.isSome

theorem newline_stops : ('\n' != '\n') = false := rfl

/-- Takes the next character of the line, if there is one. -/
def skip : Lex ε Unit := do
  let _ ← take (· != '\n') newline_stops
  pure ()

/-- What `takeWhile` does at a place; `taken` was taken before. -/
def takeWhileAt (p : Char → Bool) (taken : List Char) (pos : ℕ) : List Char → List Char × Cursor
  | [] => (taken, ⟨pos, []⟩)
  | c :: rest =>
    if p c then takeWhileAt p (taken ++ [c]) (pos + 1) rest else (taken, ⟨pos, c :: rest⟩)

theorem steady_takeWhileAt {p : Char → Bool} (hp : p '\n' = false) (taken : List Char) (pos : ℕ)
    (rest : List Char) :
    Steady pos rest fun rest => (.ok (takeWhileAt p taken pos rest) : Except ε _) := by
  induction rest generalizing taken pos with
  | nil =>
    constructor
    · rintro _ _ ⟨⟩
      exact .refl _
    · rintro _ _ t ⟨⟩
      simp [Cursor.followed, takeWhileAt, hp]
    · nofun
  | cons c rest ih =>
    by_cases hc : p c = true
    · refine .take (w := [c]) (fun r => ?_) (ih (taken ++ [c]) (pos + 1))
      simp [takeWhileAt, hc]
    · refine .ok (a := taken) fun t => ?_
      simp [takeWhileAt, hc]

/-- Takes characters as long as they are of `p`; a new line is none of them. -/
def takeWhile (p : Char → Bool) (hp : p '\n' = false) : Lex ε (List Char) where
  run cur := .ok (takeWhileAt p [] cur.pos cur.rest)
  steady pos rest := steady_takeWhileAt hp [] pos rest

/-! ### Loops -/

section Loop

variable {σ : Type} (body : σ → Char → Lex ε (σ ⊕ α)) (e : ε)

/-- Gives `body` one character after another, and lets it read on, until it has a result; the
end of the text before that is the failure `e`. -/
def loopAt (s : σ) (pos : ℕ) : List Char → Except ε (α × Cursor)
  | [] => .error e
  | c :: rest =>
    match _h : (body s c).run ⟨pos + 1, rest⟩ with
    | .error e' => .error e'
    | .ok (.inl s', cur) => loopAt s' cur.pos cur.rest
    | .ok (.inr a, cur) => .ok (a, cur)
termination_by rest => rest.length
decreasing_by
  have := (moves _h).length_le
  simp only [List.length_cons] at this ⊢
  omega

theorem loopAt_nil (s : σ) (pos : ℕ) : loopAt body e s pos [] = .error e := by
  rw [loopAt]

/-- One turn of the loop. -/
theorem loopAt_cons (s : σ) (pos : ℕ) (c : Char) (rest : List Char) :
    loopAt body e s pos (c :: rest) = next ((body s c).run ⟨pos + 1, rest⟩) fun r cur =>
      match r with
      | .inl s' => loopAt body e s' cur.pos cur.rest
      | .inr a => .ok (a, cur) := by
  rw [loopAt]
  rcases (body s c).run ⟨pos + 1, rest⟩ with e' | ⟨s' | a, cur⟩ <;> rfl

variable {body} in
theorem steady_loopAt (hnl : ∀ s, ∃ s', body s '\n' = pure (.inl s')) (s : σ) (pos : ℕ)
    (rest : List Char) : Steady pos rest (loopAt body e s pos) := by
  -- The text gets shorter from turn to turn, by as much as the body reads.
  induction hn : rest.length using Nat.strong_induction_on generalizing s pos rest with
  | _ n ih =>
    subst hn
    cases rest with
    | nil =>
      obtain ⟨s', hs'⟩ := hnl s
      refine .error (loopAt_nil body e s pos) ?_
      rw [List.nil_append, loopAt_cons, hs', run_pure, next_ok]
      exact loopAt_nil body e s' (pos + 1)
    | cons c rest =>
      have hstep : Cursor.Reaches ⟨pos, c :: rest⟩ ⟨pos + 1, rest⟩ := Cursor.reaches_cons pos c rest
      rcases hrun : (body s c).run ⟨pos + 1, rest⟩ with e' | ⟨s' | a, cur⟩
      · have hrun' := error_followed hrun
        simp only [Cursor.followed] at hrun'
        refine .error (e := e') ?_ ?_
        · rw [loopAt_cons, hrun, next_error]
        · rw [List.cons_append, loopAt_cons, hrun', next_error]
      · have hlt : cur.rest.length < (c :: rest).length :=
          Nat.lt_succ_of_le (moves hrun).length_le
        have hrest := ih _ hlt s' cur.pos cur.rest rfl
        have hend : loopAt body e s pos (c :: rest) = loopAt body e s' cur.pos cur.rest := by
          rw [loopAt_cons, hrun, next_ok]
        have hend' : ∀ t, loopAt body e s pos (c :: rest ++ '\n' :: t) =
            loopAt body e s' cur.pos (cur.rest ++ '\n' :: t) := by
          intro t
          have hrun' := ok_followed t hrun
          simp only [Cursor.followed] at hrun'
          rw [List.cons_append, loopAt_cons, hrun', next_ok]
        constructor
        · intro a cur' h
          rw [hend] at h
          exact (hstep.trans (moves hrun)).trans (hrest.moves h)
        · intro a cur' t h
          rw [hend] at h
          rw [hend', hrest.ok_followed t h]
        · intro e0 h
          rw [hend] at h
          rw [hend', hrest.error_followed h]
      · have hend : loopAt body e s pos (c :: rest) = .ok (a, cur) := by
          rw [loopAt_cons, hrun, next_ok]
        constructor
        · intro b cur' h
          rw [hend] at h
          cases h
          exact hstep.trans (moves hrun)
        · intro b cur' t h
          rw [hend] at h
          cases h
          have hrun' := ok_followed t hrun
          simp only [Cursor.followed] at hrun'
          rw [List.cons_append, loopAt_cons, hrun', next_ok]
          rfl
        · intro e0 h
          rw [hend] at h
          cases h

/-- The loop as a lexer. -/
def loop (hnl : ∀ s, ∃ s', body s '\n' = pure (.inl s')) (s : σ) : Lex ε α where
  run cur := loopAt body e s cur.pos cur.rest
  steady pos rest := steady_loopAt e hnl s pos rest

end Loop

/-! ### What a lexer gives -/

/-- Whatever the lexer gives has `P`. -/
def Yields (x : Lex ε α) (P : α → Prop) : Prop :=
  ∀ cur a cur', x.run cur = .ok (a, cur') → P a

section Yields

variable {P : α → Prop} {Q : β → Prop}

theorem yields_pure {a : α} (h : P a) : (pure a : Lex ε α).Yields P := by
  rintro cur _ _ ⟨⟩
  exact h

theorem yields_fail {e : ε} : (fail e : Lex ε α).Yields P := by
  rintro _ _ _ ⟨⟩

theorem Yields.bind {x : Lex ε α} {f : α → Lex ε β} (hx : x.Yields P)
    (hf : ∀ a, P a → (f a).Yields Q) : (x >>= f).Yields Q := by
  intro cur b cur'' h
  obtain ⟨a, cur', ha, hb⟩ := next_eq_ok (run_bind x f cur ▸ h)
  exact hf a (hx _ _ _ ha) _ _ _ hb

/-- Where nothing needs to be known of the first result. -/
theorem yields_bind {x : Lex ε α} {f : α → Lex ε β} (hf : ∀ a, (f a).Yields Q) :
    (x >>= f).Yields Q :=
  Yields.bind (P := fun _ => True) (fun _ _ _ _ => trivial) fun a _ => hf a

theorem yields_ofExcept {x : Except ε α} (h : ∀ a, x = .ok a → P a) : (ofExcept x).Yields P := by
  rcases x with e | a
  · exact yields_fail
  · exact yields_pure (h a rfl)

theorem yields_ite {c : Prop} [Decidable c] {x y : Lex ε α} (hx : c → x.Yields P)
    (hy : ¬c → y.Yields P) : (if c then x else y).Yields P := by
  by_cases hc : c
  · rw [if_pos hc]
    exact hx hc
  · rw [if_neg hc]
    exact hy hc

theorem yields_guard {c : Prop} [Decidable c] {e : ε} {y : Lex ε α} (hy : ¬c → y.Yields P) :
    (if c then fail e else y).Yields P :=
  yields_ite (fun _ => yields_fail) hy

theorem yields_loop {σ : Type} {body : σ → Char → Lex ε (σ ⊕ α)} {e : ε}
    {hnl : ∀ s, ∃ s', body s '\n' = pure (.inl s')} {I : σ → Prop} {s : σ} (hs : I s)
    (hbody : ∀ s c, I s → (body s c).Yields (Sum.elim I P)) : (loop body e hnl s).Yields P := by
  intro cur a cur' h
  -- As for `steady_loopAt`, on the text that is left.
  obtain ⟨pos, rest⟩ := cur
  change loopAt body e s pos rest = _ at h
  induction hn : rest.length using Nat.strong_induction_on generalizing s pos rest with
  | _ n ih =>
    subst hn
    cases rest with
    | nil =>
      rw [loopAt_nil] at h
      cases h
    | cons c rest =>
      rw [loopAt_cons] at h
      obtain ⟨r, cur'', hr, hnext⟩ := next_eq_ok h
      have hI := hbody s c hs _ _ _ hr
      rcases r with s' | b
      · exact ih _ (Nat.lt_succ_of_le (moves hr).length_le) hI cur''.pos cur''.rest hnext rfl
      · cases hnext
        exact hI

end Yields

end Lex

end RelayOs
