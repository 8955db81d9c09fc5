import RelayOs.Pipes.Steps

/-!
# Pipes deliver every byte once, in order

Added up over a run, the bytes the programs wrote are the bytes the programs read, followed
by what the ring holds (`RelayOs.Pipes.Sys.pipes_deliver`); and nobody sleeps on a pipe that
is ready (`RelayOs.Pipes.Sys.no_sleep_on_ready`). The runs are those of the whole kernel,
from the moment process 1 exists.
-/

namespace RelayOs.Pipes

open Vfs Mm Kernel

namespace Sys

variable {s s' : Sys}

/-! ### The books -/

/-- The bytes of the program's buffer that the call on the pipe `k` says it has moved. -/
def reported (call : Side) (k : ℕ) (e : Event) : Bytes :=
  if e.call = call ∧ e.pipe = k then
    match e.result with
    | .ok n => e.mem.bytes e.slice.addr n
    | .error _ => []
  else []

/-- **The bytes reported written** to the pipe `k`, in the order the writes put them in. -/
def written (k : ℕ) (es : List Event) : Bytes := es.flatMap (reported .write k)

/-- **The bytes copied to the readers** of the pipe `k`, in the order the reads happened. -/
def copied (k : ℕ) (es : List Event) : Bytes := es.flatMap (reported .read k)

/-- The books of the pipes: what was written is what was read, and what the ring holds; and of
a pipe that is not there yet, nothing was. -/
def Books (s : Sys) (es : List Event) : Prop :=
  ∀ k, match s.queue k with
    | some q => written k es = copied k es ++ q
    | none => written k es = [] ∧ copied k es = []

variable {es : List Event}

theorem Books.unmoved (h : Books s es) (hmoved : Unmoved s s') : Books s' es := by
  intro k
  have hk := h k
  rcases hmoved k with he | ⟨hnone, hnil⟩
  · rw [he]
    exact hk
  · rw [hnone] at hk
    rw [hnil]
    dsimp only
    rw [hk.1, hk.2]
    rfl

theorem flatMap_concat {f : Event → Bytes} {e : Event} :
    (es ++ [e]).flatMap f = es.flatMap f ++ f e := by
  rw [List.flatMap_append, List.flatMap_singleton]

theorem Books.honest {e : Event} (h : Books s es) (he : Honest e s s') : Books s' (es ++ [e]) := by
  obtain ⟨c, c', hc, hc', hother, -, hmoved⟩ := he
  intro k
  have hk := h k
  rw [written, copied, flatMap_concat, flatMap_concat]
  change match s'.queue k with
    | some q => written k es ++ _ = copied k es ++ _ ++ q
    | none => written k es ++ _ = [] ∧ copied k es ++ _ = []
  by_cases hek : e.pipe = k
  · subst hek
    rw [queue, hc, Option.map_some] at hk
    rw [queue, hc', Option.map_some]
    dsimp only at hk ⊢
    rw [hk]
    obtain ⟨call, k, u, r, mem⟩ := e
    cases call with
    | read =>
      cases r with
      | ok n =>
        obtain ⟨hcontents, -, -⟩ := hmoved
        simp [reported, hcontents]
      | error err =>
        have hsame : c'.pipe = c.pipe := hmoved
        simp [reported, hsame]
    | write =>
      cases r with
      | ok n =>
        obtain ⟨hcontents, -⟩ := hmoved
        simp [reported, hcontents]
      | error err =>
        have hsame : c'.pipe = c.pipe := hmoved.1
        simp [reported, hsame]
  · have hnone : ∀ call, reported call k e = [] := fun call => if_neg fun hc => hek hc.2
    rw [hnone, hnone, List.append_nil, List.append_nil, hother k (Ne.symm hek)]
    exact hk

theorem Books.does {e : Option Event} (h : Books s es) (he : Does s s' e) :
    Books s' (es ++ e.toList) := by
  cases e with
  | none =>
    rw [Option.toList_none, List.append_nil]
    exact h.unmoved he
  | some e => exact h.honest he

/-! ### Runs -/

/-- **A run can be made, and keeps the invariant and the books.** -/
theorem Sound.run (h : Sound [] s) (as : List Action) {es0 : List Event} (hbooks : Books s es0) :
    ∃ s' es, run as s = some (s', es) ∧ Sound [] s' ∧ Books s' (es0 ++ es) := by
  induction as generalizing s es0 with
  | nil => exact ⟨s, [], rfl, h, by rwa [List.append_nil]⟩
  | cons a as ih =>
    obtain ⟨s1, e, hstep, hsound, hdoes⟩ := h.step a
    obtain ⟨s', es, hrun, hsound', hbooks'⟩ := ih hsound (hbooks.does hdoes)
    refine ⟨s', e.toList ++ es, ?_, hsound', by rwa [← List.append_assoc]⟩
    simp only [Sys.run, hstep, hrun, Option.bind_eq_bind, Option.bind_some]

theorem notMem_console {k : ℕ} {side : Side} :
    FileRef.pipe k side ∉ (FdTable.console (.other 0)).files := by
  intro h
  rw [FdTable.console] at h
  rcases FdTable.mem_set h with h | h
  · rcases FdTable.mem_set h with h | h
    · rcases FdTable.mem_set h with h | h
      · rw [FdTable.files_new] at h
        cases h
      · cases h
    · cases h
  · cases h

theorem boot_sound (mem : UserMemory) : ∃ s, boot mem = some s ∧ Sound [] s ∧ Books s [] := by
  have hempty : Sound [] ⟨Table.new, []⟩ := by
    constructor
    · exact Table.inv_new
    · rintro k side (hf | ⟨q, p, hp, -⟩)
      · cases hf
      · cases hp
    · exact fun hc => nomatch hc
    · exact fun hc => nomatch hc
    · exact fun hp => nomatch hp
    · exact fun hp => nomatch hp
    · exact fun hp => nomatch hp
  obtain ⟨⟨answer, t⟩, hr, ht⟩ :=
    Table.inv_new.insert 0 .new "init" (⟨.console (.other 0), mem, .user⟩ : Res)
  have hanswer : (Table.new.insert 0 .new "init"
      (⟨.console (.other 0), mem, .user⟩ : Res)).map Prod.fst =
    some (.ok 1) := rfl
  rw [hr, Option.map_some] at hanswer
  cases hanswer
  refine ⟨⟨t, []⟩, by rw [boot, hr, Option.map_some], hempty.born ht hr trivial fun hf =>
    absurd hf notMem_console, ?_⟩
  exact fun k => ⟨rfl, rfl⟩

/-- **Pipes deliver every byte once, in order.** In every run of the kernel from its start, the
bytes reported written to a pipe are the bytes copied to its readers followed by what its ring
holds; and whatever happens next, if it makes a read or a write answer, the answer is true. -/
theorem pipes_deliver (mem : UserMemory) (as : List Action) :
    ∃ s es, (boot mem).bind (run as) = some (s, es) ∧
      (∀ k c, s.pipes[k]? = some c → written k es = copied k es ++ c.pipe.contents) ∧
      ∀ a, ∃ s' e, s.step a = some (s', e) ∧ Does s s' e := by
  obtain ⟨s₀, hboot, hsound₀, hbooks₀⟩ := boot_sound mem
  obtain ⟨s, es, hrun, hsound, hbooks⟩ := hsound₀.run as hbooks₀
  refine ⟨s, es, by rw [hboot, Option.bind_some, hrun], fun k c hc => ?_, fun a => ?_⟩
  · have hk := hbooks k
    rwa [queue, hc, Option.map_some] at hk
  · obtain ⟨s', e, hstep, -, hdoes⟩ := hsound.step a
    exact ⟨s', e, hstep, hdoes⟩

/-- **Nobody sleeps on a pipe that is ready.** In every run of the kernel from its start, a
process that sleeps on a pipe is not killed; it waits in a read of an empty pipe whose write
end somebody has, or in a write to a full pipe whose read end somebody has. -/
theorem no_sleep_on_ready (mem : UserMemory) (as : List Action) :
    ∃ s es, (boot mem).bind (run as) = some (s, es) ∧
      ∀ q p id, s.table.get q = some p → p.state = .blocked (.pipe id) → p.killed = none ∧
        ∃ k c, s.pipes[k]? = some c ∧ c.id = id ∧
          ((∃ u, p.res.phase = .reading k u ∧ c.pipe.len = 0 ∧ s.Held [] k .write) ∨
            ∃ u chunk, p.res.phase = .writing k u chunk ∧ c.pipe.len = size ∧
              s.Held [] k .read) := by
  obtain ⟨s₀, hboot, hsound₀, hbooks₀⟩ := boot_sound mem
  obtain ⟨s, es, hrun, hsound, -⟩ := hsound₀.run as hbooks₀
  refine ⟨s, es, by rw [hboot, Option.bind_some, hrun], fun q p id hp hstate => ?_⟩
  obtain ⟨hkilled, k, c, hc, hid, hsleep⟩ := hsound.asleep hp hstate
  refine ⟨hkilled, k, c, hc, hid, ?_⟩
  -- an end that is counted as open is somebody's
  have hheld : ∀ side, c.pipe.count side ≠ 0 → s.Held [] k side := fun side hne => by
    by_contra hnot
    exact hne (hsound.closed hc hnot)
  cases hphase : p.res.phase with
  | user =>
    rw [hphase] at hsleep
    exact hsleep.elim
  | reading k' u =>
    rw [hphase] at hsleep
    obtain ⟨rfl, hlen, hwriters⟩ := hsleep
    exact Or.inl ⟨u, rfl, hlen, hheld .write hwriters⟩
  | writing k' u chunk =>
    rw [hphase] at hsleep
    obtain ⟨rfl, hlen, hreaders⟩ := hsleep
    exact Or.inr ⟨u, chunk, rfl, hlen, hheld .read hreaders⟩

end Sys

end RelayOs.Pipes
