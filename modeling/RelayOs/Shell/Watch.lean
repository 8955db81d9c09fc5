import RelayOs.Shell.Walker

/-!
# Watching the walker

What the shell's surroundings may answer is left open (`RelayOs.Sh.Answers`): only the
requests about the shell's own state have one answer. What is specified is what the walker
**may ask** (`RelayOs.Sh.Allowed`), in terms of a view of the run so far
(`RelayOs.Sh.View`), which knows more than the shell does: whether the line has ended, for the
lines around a script too, and which files have been opened and closed.
-/

namespace RelayOs.Sh

/-! ### The view -/

/-- **A run, as it is watched.** -/
structure View where
  shell : Shell
  ended : Bool
  ctrlC : Bool
  outer : List (Bool × Bool)
  next : ℕ
  closed : List ℕ

namespace View

/-- What an answer says of the line: that it has ended, and by Ctrl-C. -/
abbrev News := Bool × Bool

/-- An answer that says nothing of the line. -/
def noNews : News := (false, false)

/-- An answer is heard. -/
def hear (v : View) (n : News) : View :=
  { v with ended := v.ended || n.1, ctrlC := v.ctrlC || n.2 }

/-- The shell changes; its flags are looked at. -/
def note (v : View) (s : Shell) : View :=
  { v with shell := s, ended := v.ended || s.endsLine, ctrlC := v.ctrlC || s.cancelled }

/-- A new line starts. -/
def newLine (v : View) : View :=
  { v with shell := v.shell.newLine, ended := v.shell.newLine.endsLine, ctrlC := false }

/-- A script starts: the line that runs it waits. -/
def enterScript (v : View) : View :=
  { v with shell := v.shell.enterScript, outer := (v.ended, v.ctrlC) :: v.outer }

/-- A script is over: the line that ran it goes on. -/
def leaveScript (v : View) : View :=
  let (ended, ctrlC) := v.outer.headD (v.ended, v.ctrlC)
  { v with ended := ended, ctrlC := ctrlC, outer := v.outer.tail }.note v.shell.leaveScript

end View

/-- What the end of a command says of the line. -/
def Ran.news (ran : Ran) : View.News :=
  (ran.stop || ran.cancelled, ran.cancelled)

/-! ### What may be asked -/

/-- The request starts a command, expands a word, sets a variable or opens a file. -/
def Call.works : Call → Bool
  | .expandWords _ _ | .expandParts _ _ | .expandAll _ _ | .expandValue _ _ | .expandTarget _ _
  | .positional | .setVar _ _ | .holdVars _ | .openFile _ | .run _ _ _ _ _ | .pipeline _
  | .background _ => true
  | _ => false

/-- The contexts the request hands to commands. -/
def Call.contexts : Call → List Fds
  | .run _ _ _ _ fds => [fds]
  | .pipeline stages | .background stages => stages.filterMap Stage.fds
  | _ => []

/-- No file is open that no live context holds. -/
def View.Prompt (v : View) : Prop :=
  ∀ i e, v.shell.files.entry i = some e → Slot.file i ∈ v.shell.files.held

/-- **What the walker may ask.** -/
structure Allowed (c : Call) (v : View) : Prop where
  going : c.works = true → v.ended = false
  prompt : c.works = true → v.Prompt
  opened : ∀ fds ∈ c.contexts, ∀ k i, fds k = .file i → ∃ e, v.shell.files.entry i = some e
  closes : ∀ i e, c = .closeFile i e →
    e.key < v.next ∧ e.key ∉ v.closed ∧ Slot.file i ∉ v.shell.files.held

/-- **What may be answered**, and the view from then on. Of a pipeline only Ctrl-C is heard: the
shell does not take its stop (`RelayOs.Sh.pipeline`), so that to the walker it is not an end. -/
def Answers : (c : Call) → View → c.Reply → View → Prop
  | .look, v, s, v' => s = v.shell ∧ v' = v
  | .change f, v, _, v' => v' = v.note (f v.shell)
  | .newLine, v, _, v' => v' = v.newLine
  | .enterScript _, v, _, v' => v' = v.enterScript
  | .leaveScript, v, _, v' => v' = v.leaveScript
  | .openFile _, v, .ok opened, v' => opened.1 = v.next ∧ v' = { v with next := v.next + 1 }
  | .openFile _, v, .error _, v' => v' = v
  | .closeFile _ e, v, _, v' => v' = { v with closed := e.key :: v.closed }
  | .interrupted, v, typed, v' => v' = v.hear (typed, typed)
  | .run _ _ _ _ _, v, x, v' => v' = v.hear x.1.news
  | .pipeline _, v, x, v' => v' = v.hear (x.1.cancelled, x.1.cancelled)
  | _, v, _, v' => v' = v

/-- The walker's surroundings. -/
def watch : Spec calls View :=
  ⟨Allowed, Answers⟩

open Prog

variable {α β : Type} {v v' : View} {Q : α → View → Prop}

variable {c : Call}

theorem wp_call {Q : c.Reply → View → Prop} :
    wp watch (call c) Q v ↔ Allowed c v ∧ ∀ x v', Answers c v x v' → Q x v' := Iff.rfl

/-- Requests that are neither work nor about files are always allowed. -/
theorem Allowed.of_idle (hw : c.works = false) (hc : c.contexts = [])
    (hn : ∀ i e, c ≠ .closeFile i e) : Allowed c v :=
  ⟨fun h => by simp [hw] at h, fun h => by simp [hw] at h, fun fds hfds => by simp [hc] at hfds,
    fun i e h => absurd h (hn i e)⟩

theorem Allowed.of_going (hv : v.ended = false) (hp : v.Prompt) (hc : c.contexts = [])
    (hn : ∀ i e, c ≠ .closeFile i e) : Allowed c v :=
  ⟨fun _ => hv, fun _ => hp, fun fds hfds => by simp [hc] at hfds, fun i e h => absurd h (hn i e)⟩

@[simp] theorem wp_look {Q : Shell → View → Prop} : wp watch look Q v ↔ Q v.shell v := by
  constructor
  · intro h
    exact h.2 v.shell v ⟨rfl, rfl⟩
  · intro h
    refine ⟨.of_idle rfl rfl (fun _ _ => nofun), ?_⟩
    rintro _ _ ⟨rfl, rfl⟩
    exact h

@[simp] theorem wp_change {f : Shell → Shell} {Q : Unit → View → Prop} :
    wp watch (change f) Q v ↔ Q () (v.note (f v.shell)) := by
  constructor
  · intro h
    exact h.2 () _ rfl
  · intro h
    refine ⟨.of_idle rfl rfl (fun _ _ => nofun), ?_⟩
    rintro _ _ rfl
    exact h

/-- The request changes nothing of the view. -/
def Call.idle : Call → Bool
  | .look | .change _ | .newLine | .enterScript _ | .leaveScript | .openFile _ | .closeFile _ _
  | .interrupted | .run _ _ _ _ _ | .pipeline _ => false
  | _ => true

theorem answers_idle (h : c.idle = true) {x : c.Reply} : Answers c v x v' → v' = v := by
  cases c <;> first | exact id | cases h

/-- A request that changes nothing and is no work. -/
theorem wp_idle {Q : c.Reply → View → Prop} (hi : c.idle = true) (hw : c.works = false)
    (hQ : ∀ x, Q x v) : wp watch (call c) Q v := by
  refine wp_call.mpr ⟨.of_idle hw ?_ ?_, ?_⟩
  · cases c <;> first | rfl | cases hw
  · rintro i e rfl
    cases hi
  · intro x v' h
    exact answers_idle hi h ▸ hQ x

/-- A request that changes nothing and is work, without a context. -/
theorem wp_going {Q : c.Reply → View → Prop} (hi : c.idle = true) (hc : c.contexts = [])
    (hv : v.ended = false) (hp : v.Prompt) (hQ : ∀ x, Q x v) : wp watch (call c) Q v := by
  refine wp_call.mpr ⟨.of_going hv hp hc ?_, ?_⟩
  · rintro i e rfl
    cases hi
  · intro x v' h
    exact answers_idle hi h ▸ hQ x

theorem wp_interrupted {Q : Bool → View → Prop} (hQ : ∀ typed, Q typed (v.hear (typed, typed))) :
    wp watch (call .interrupted) Q v := by
  refine wp_call.mpr ⟨.of_idle rfl rfl (fun _ _ => nofun), ?_⟩
  rintro typed _ rfl
  exact hQ typed

theorem wp_hang {f : Empty → Walk α} : wp watch ((call .hang).bind f) Q v :=
  (wp_bind _ _).mpr (wp_idle rfl rfl nofun)

/-! ### The books of the files -/

/-- **Every file that was opened is in the table once or was closed once.** -/
structure Books (files : Files) (next : ℕ) (closed : List ℕ) : Prop where
  entry_lt : ∀ i e, files.entry i = some e → e.key < next
  not_closed : ∀ i e, files.entry i = some e → e.key ∉ closed
  entry_inj : ∀ i j e e', files.entry i = some e → files.entry j = some e' → e.key = e'.key → i = j
  closed_nodup : closed.Nodup
  closed_lt : ∀ k ∈ closed, k < next
  covers : ∀ k < next, k ∈ closed ∨ ∃ i e, files.entry i = some e ∧ e.key = k

namespace Books

variable {files files' : Files} {next i : ℕ} {closed : List ℕ} {e : Entry}

theorem key_of_id (hid : files'.id = files.id) (he : files'.entry i = some e) :
    ∃ e', files.entry i = some e' ∧ e'.key = e.key := by
  have hi := congrFun hid i
  simp only [Files.id, he, Option.map_some] at hi
  obtain ⟨e', he', hee⟩ := Option.map_eq_some_iff.mp hi.symm
  exact ⟨e', he', (Prod.mk.inj hee).1⟩

/-- The books are about openings only. -/
theorem of_id (h : Books files next closed) (hid : files'.id = files.id) :
    Books files' next closed where
  entry_lt i e he := by
    obtain ⟨e', he', hkey⟩ := key_of_id hid he
    exact hkey ▸ h.entry_lt i e' he'
  not_closed i e he := by
    obtain ⟨e', he', hkey⟩ := key_of_id hid he
    exact hkey ▸ h.not_closed i e' he'
  entry_inj i j e1 e2 h1 h2 heq := by
    obtain ⟨e1', h1', hk1⟩ := key_of_id hid h1
    obtain ⟨e2', h2', hk2⟩ := key_of_id hid h2
    exact h.entry_inj i j e1' e2' h1' h2' (by rw [hk1, hk2, heq])
  closed_nodup := h.closed_nodup
  closed_lt := h.closed_lt
  covers k hk := by
    rcases h.covers k hk with hc | ⟨i, e, he, hkey⟩
    · exact .inl hc
    · obtain ⟨e', he', hk'⟩ := key_of_id hid.symm he
      exact .inr ⟨i, e', he', by rw [hk', hkey]⟩

/-- A file is opened. -/
theorem add (h : Books files next closed) (handle : Handle) :
    Books (files.add next handle).1 (next + 1) closed := by
  obtain ⟨hfree, hentry⟩ := Files.entry_add files next handle
  generalize hn : (files.add next handle).2 = n at hfree hentry
  have hcases : ∀ j e, (files.add next handle).1.entry j = some e →
      (n = j ∧ e.key = next) ∨ (n ≠ j ∧ files.entry j = some e) := by
    intro j e he
    rw [hentry] at he
    by_cases hj : n = j
    · rw [if_pos hj] at he
      cases he
      exact .inl ⟨hj, rfl⟩
    · rw [if_neg hj] at he
      exact .inr ⟨hj, he⟩
  constructor
  · intro j e he
    rcases hcases j e he with ⟨-, hk⟩ | ⟨-, he⟩
    · omega
    · have := h.entry_lt j e he
      omega
  · intro j e he
    rcases hcases j e he with ⟨-, hk⟩ | ⟨-, he⟩
    · intro hc
      have := h.closed_lt _ hc
      omega
    · exact h.not_closed j e he
  · intro j j' e e' he he' hee
    rcases hcases j e he with ⟨hj, hk⟩ | ⟨hj, he⟩ <;> rcases hcases j' e' he' with
      ⟨hj', hk'⟩ | ⟨hj', he'⟩
    · exact hj ▸ hj'
    · have := h.entry_lt j' e' he'
      omega
    · have := h.entry_lt j e he
      omega
    · exact h.entry_inj j j' e e' he he' hee
  · exact h.closed_nodup
  · intro k hk
    exact Nat.lt_succ_of_lt (h.closed_lt k hk)
  · intro k hk
    rcases Nat.lt_succ_iff_lt_or_eq.mp hk with hk | rfl
    · rcases h.covers k hk with hc | ⟨j, e, he, hkey⟩
      · exact .inl hc
      · refine .inr ⟨j, e, ?_, hkey⟩
        rw [hentry, if_neg]
        · exact he
        · rintro rfl
          rw [hfree] at he
          cases he
    · refine .inr ⟨n, ⟨k, handle, 1⟩, ?_, rfl⟩
      rw [hentry, if_pos rfl]

/-- A file is taken out of the table and closed. -/
theorem close (h : Books files next closed) (he : files.entry i = some e)
    (hentry : ∀ j, files'.entry j = if i = j then none else files.entry j) :
    Books files' next (e.key :: closed) := by
  have hcases : ∀ j e', files'.entry j = some e' → i ≠ j ∧ files.entry j = some e' := by
    intro j e' he'
    rw [hentry] at he'
    by_cases hj : i = j
    · rw [if_pos hj] at he'
      cases he'
    · rw [if_neg hj] at he'
      exact ⟨hj, he'⟩
  constructor
  · intro j e' he'
    exact h.entry_lt j e' (hcases j e' he').2
  · intro j e' he'
    obtain ⟨hj, he'⟩ := hcases j e' he'
    rw [List.mem_cons, not_or]
    exact ⟨fun hk => hj (h.entry_inj i j e e' he he' hk.symm), h.not_closed j e' he'⟩
  · intro j j' e1 e2 h1 h2
    exact h.entry_inj j j' e1 e2 (hcases j e1 h1).2 (hcases j' e2 h2).2
  · exact List.nodup_cons.mpr ⟨h.not_closed i e he, h.closed_nodup⟩
  · intro k hk
    rcases List.mem_cons.mp hk with rfl | hk
    · exact h.entry_lt i e he
    · exact h.closed_lt k hk
  · intro k hk
    rcases h.covers k hk with hc | ⟨j, e', he', hkey⟩
    · exact .inl (List.mem_cons_of_mem _ hc)
    · by_cases hj : i = j
      · subst hj
        rw [he] at he'
        cases he'
        exact .inl (hkey ▸ List.mem_cons_self)
      · exact .inr ⟨j, e', by rw [hentry, if_neg hj, he'], hkey⟩

end Books

end RelayOs.Sh
