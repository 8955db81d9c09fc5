import RelayOs.Pipes.Sound

/-!
# What one step does to the pipes

Every step keeps the invariant, and a step in which a read or a write answers does to the
pipe just what the answer says (`RelayOs.Pipes.Sys.Honest`). No step stops dead
(`RelayOs.Pipes.Sys.Sound.step`).
-/

namespace RelayOs.Pipes

open Vfs Mm Kernel

namespace Sys

variable {s s' : Sys} {fs : List FileRef} {p : Process Res} {k : ℕ} {c : Channel} {call : Side}
  {u : UserSlice}

/-- **The answer is the truth**: a read that answers `n` has taken from the front of the queue
just what is now in the first `n` bytes of the program's buffer, a write that answers `n` has
put the first `n` bytes of its buffer behind the queue, and a call that fails has moved
nothing. -/
def Honest (e : Event) (s s' : Sys) : Prop :=
  ∃ c c', s.pipes[e.pipe]? = some c ∧ s'.pipes[e.pipe]? = some c' ∧
    (∀ j, j ≠ e.pipe → s'.queue j = s.queue j) ∧
    (∃ p, s'.running = some p ∧ p.res.mem = e.mem) ∧
    match e.call, e.result with
    | .read, .ok n => c.pipe.contents = e.mem.bytes e.slice.addr n ++ c'.pipe.contents ∧
        n ≤ e.slice.len ∧
        (n = 0 → 0 < e.slice.len → c'.pipe.len = 0 ∧ ¬s'.Held [] e.pipe .write)
    | .write, .ok n => c'.pipe.contents = c.pipe.contents ++ e.mem.bytes e.slice.addr n ∧
        n ≤ e.slice.len
    | .read, .error _ => c'.pipe = c.pipe
    | .write, .error err => c'.pipe = c.pipe ∧ (err = .EPIPE → ¬s'.Held [] e.pipe .read)

/-- What a step does to the pipes. -/
def Does (s s' : Sys) : Option Event → Prop
  | none => Unmoved s s'
  | some e => Honest e s s'

/-! ### Stretches -/

/-- What a stretch of a call on the pipe `k` may do, `moved` being the bytes it moves. -/
structure Fine (call : Side) (k : ℕ) (u : UserSlice) (fds : FdTable FileRef) (w : Work)
    (moved : Bytes)
    (r : Stop × Work) : Prop where
  queue : match call with
    | .read => w.pipe.contents = moved ++ r.2.pipe.contents
    | .write => r.2.pipe.contents = w.pipe.contents ++ moved
  count : ∀ side, r.2.pipe.count side = w.pipe.count side
  woke : r.2.woke = true ∨ r.2 = w
  stop : match r.1 with
    | .waits chunk => r.2 = w ∧ PhaseOk ⟨fds, w.mem, waiting call k u chunk⟩ ∧
        Sleeps k w.pipe (waiting call k u chunk)
    | .returns (.ok n) => moved = r.2.mem.bytes u.addr n ∧ n ≤ u.len ∧
        (call = .read → n = 0 → 0 < u.len → r.2.pipe.len = 0 ∧ r.2.pipe.writers = 0)
    | .returns (.error e) => r.2 = w ∧ (call = .write → e = .EPIPE → w.pipe.readers = 0)

variable {fds : FdTable FileRef} {w : Work}

theorem Fine.refused {e : Errno} (he : e ≠ .EPIPE) :
    Fine call k u fds w [] (.returns (.error e), w) where
  queue := by
    cases call with
    | read => rfl
    | write => exact (List.append_nil _).symm
  count := fun _ => rfl
  woke := Or.inr rfl
  stop := ⟨rfl, fun _ h => absurd h he⟩

theorem fine_readFrom (hfd : .pipe k .read ∈ fds.files) (hu : u.len < 2 ^ 64)
    (hw : w.mem.checkWritable u = .ok ()) :
    ∃ moved, Fine .read k u fds w moved (readFrom u u.len 0 w) := by
  obtain ⟨moved, htook, hstop⟩ := @readFrom_spec u w 0 u.len hu hw (Nat.zero_le _) (by omega)
  refine ⟨moved, htook.contents, fun side => ?_, htook.woke, ?_⟩
  · cases side with
    | read => exact htook.readers
    | write => exact htook.writers
  · cases hr : (readFrom u u.len 0 w).1 with
    | waits chunk =>
      rw [hr] at hstop
      obtain ⟨-, -, hsame, hlen, hwriters⟩ := hstop
      exact ⟨hsame, ⟨hfd, hw, hu⟩, rfl, hlen, hwriters⟩
    | returns r =>
      rw [hr] at hstop
      cases r with
      | error e => exact hstop.elim
      | ok n =>
        obtain ⟨hn, hle, hend⟩ := hstop
        refine ⟨?_, hle, fun _ => hend⟩
        rw [htook.mem, hn, Nat.zero_add, Nat.add_zero]
        exact (UserMemory.bytes_put_self _ _ _).symm

theorem fine_of_write {r : Stop × Work} (hfd : .pipe k .write ∈ fds.files) {moved : Bytes}
    (hgave : Gave w moved r.2)
    (hstop : WriteStop u 0 w moved r.2 r.1) : Fine .write k u fds w moved r := by
  obtain ⟨stop, w'⟩ := r
  refine ⟨hgave.contents, fun side => ?_, hgave.woke, ?_⟩
  · cases side with
    | read => exact hgave.readers
    | write => exact hgave.writers
  · cases stop with
    | waits chunk =>
      obtain ⟨-, hsame, hlen, hreaders, hne, hchunk, hle⟩ := hstop
      exact ⟨hsame, ⟨hfd, hchunk, by omega, hne⟩, rfl, hlen, hreaders⟩
    | returns r =>
      cases r with
      | error e => exact ⟨hstop.2.1, fun _ => hstop.2.2⟩
      | ok n =>
        obtain ⟨hn, hle, hmoved⟩ := hstop
        refine ⟨?_, hle, nofun⟩
        have hlen : moved.length = n := by omega
        rw [hlen] at hmoved
        rw [hgave.mem]
        exact hmoved

variable {addr len : ℕ}

theorem new_eq_ok (h : UserSlice.new addr len = .ok u) : u = ⟨addr, len⟩ ∧ len < 2 ^ 64 := by
  rw [UserSlice.new, checkedAdd] at h
  by_cases hadd : addr + len < 2 ^ 64
  · rw [if_pos hadd] at h
    dsimp only at h
    split at h
    · exact ⟨(Except.ok.inj h).symm, by omega⟩
    · cases h
  · rw [if_neg hadd] at h
    cases h

theorem new_eq_error {e : Errno} (h : UserSlice.new addr len = .error e) : e = .EFAULT := by
  rw [UserSlice.new] at h
  split at h
  · split at h
    · cases h
    · exact (Except.error.inj h).symm
  · exact (Except.error.inj h).symm

theorem fine_read {side : Side} (hfd : .pipe k side ∈ fds.files) :
    ∃ moved, Fine .read k ⟨addr, min len size⟩ fds w moved (Pipes.read side addr len w) := by
  rw [Pipes.read]
  split
  · next hside =>
    subst hside
    split
    · next e he => exact ⟨[], .refused (by simp [new_eq_error he])⟩
    · next u hu =>
      obtain ⟨rfl, hlen⟩ := new_eq_ok hu
      split
      · next e he =>
        refine ⟨[], .refused ?_⟩
        rw [UserMemory.checkWritable] at he
        split at he
        · cases he
        · simp [← Except.error.inj he]
      · next hw => exact fine_readFrom hfd hlen hw
  · exact ⟨[], .refused (by simp)⟩

theorem fine_write {side : Side} (hfd : .pipe k side ∈ fds.files) :
    ∃ moved, Fine .write k ⟨addr, len⟩ fds w moved (Pipes.write side addr len w) := by
  rw [Pipes.write]
  split
  · next hside =>
    subst hside
    split
    · next e he => exact ⟨[], .refused (by rw [new_eq_error he]; nofun)⟩
    · next u hu =>
      obtain ⟨rfl, -⟩ := new_eq_ok hu
      obtain ⟨moved, hgave, hstop⟩ := @writeFrom_spec ⟨addr, len⟩ w 0 len (Nat.zero_le _) (by simp)
      exact ⟨moved, fine_of_write hfd hgave hstop⟩
  · exact ⟨[], .refused nofun⟩

/-- **What a stretch leaves behind is written back.** -/
theorem Sound.writeBack (h : Sound [] s) (hrun : s.running = some p) (hc : s.pipes[k]? = some c)
    {w : Work} {r : Res}
    (hcount : ∀ side, w.pipe.count side = c.pipe.count side)
    (hwoke : w.woke = true ∨ w.pipe = c.pipe)
    (hfds : r.fds = p.res.fds) (hphase : PhaseOk r) :
    ∃ s', s.writeBack k c w r = some s' ∧ Sound [] s' ∧ s'.running = some { p with res := r } ∧
      s'.pipes = s.pipes.set k { c with pipe := w.pipe } := by
  have hsound : Sound [] (s.setRes r) := h.setRes hrun hphase fun k side => by rw [hfds]
  have hrun' := running_setRes hrun r
  rw [Sys.writeBack]
  change ∃ s', (if w.woke = true then ((s.setRes r).setPipe k _).wakePipe c.id
      else some ((s.setRes r).setPipe k _)) =
    some s' ∧ _
  by_cases hw : w.woke = true
  · rw [if_pos hw]
    obtain ⟨s', hs', hsound', hpipes, hrun''⟩ :=
      @Sound.rewire (s.setRes r) [] [] k c hsound hc w.pipe (fun _ => Iff.rfl) id
      (fun hh => by rw [hcount]; exact hsound.open_ hc hh) fun hh => by
        rw [hcount]; exact hsound.closed hc hh
    exact ⟨s', hs', hsound', hrun'' _ hrun', hpipes⟩
  · rw [if_neg hw, hwoke.resolve_left hw]
    have hset : s.pipes.set k c = s.pipes := by
      obtain ⟨hk, hget⟩ := List.getElem?_eq_some_iff.mp hc
      rw [← hget, List.set_getElem_self]
    have hsame : (s.setRes r).setPipe k { c with pipe := c.pipe } = s.setRes r := by
      change ({ s.setRes r with pipes := s.pipes.set k c } : Sys) = s.setRes r
      rw [hset]
      rfl
    exact ⟨_, rfl, by rw [hsame]; exact hsound, by rw [hsame]; exact hrun', rfl⟩

theorem queue_set (hc : s.pipes[k]? = some c) {pipe : Pipe}
    (hpipes : s'.pipes = s.pipes.set k { c with pipe := pipe })
    {j : ℕ} : s'.queue j = if k = j then some pipe.contents else s.queue j := by
  have hget := @getElem_setPipe s k c j { c with pipe := pipe } hc
  change (s.pipes.set k _)[j]? = _ at hget
  rw [queue, hpipes, hget]
  split <;> rfl

theorem Sound.answer (h : Sound [] s) (hrun : s.running = some p)
    (hc : s.pipes[k]? = some c) {w : Work}
    (hcount : ∀ side, w.pipe.count side = c.pipe.count side)
    (hwoke : w.woke = true ∨ w.pipe = c.pipe)
    {r : Except Errno ℕ}
    (hmoved : match call, r with
      | .read, .ok n => c.pipe.contents = w.mem.bytes u.addr n ++ w.pipe.contents ∧ n ≤ u.len ∧
          (n = 0 → 0 < u.len → w.pipe.len = 0 ∧ w.pipe.writers = 0)
      | .write, .ok n => w.pipe.contents = c.pipe.contents ++ w.mem.bytes u.addr n ∧ n ≤ u.len
      | .read, .error _ => w.pipe = c.pipe
      | .write, .error e => w.pipe = c.pipe ∧ (e = .EPIPE → c.pipe.readers = 0)) :
    ∃ s', s.writeBack k c w ⟨p.res.fds, w.mem, .user⟩ = some s' ∧ Sound [] s' ∧
      Honest ⟨call, k, u, r, w.mem⟩ s s' := by
  obtain ⟨s', hs', hsound, hrun', hpipes⟩ :=
    h.writeBack hrun hc hcount hwoke (r := ⟨p.res.fds, w.mem, .user⟩) rfl trivial
  have hc' : s'.pipes[k]? = some { c with pipe := w.pipe } := by
    obtain ⟨hk, -⟩ := List.getElem?_eq_some_iff.mp hc
    rw [hpipes, List.getElem?_set_self hk]
  -- an end nobody has is counted as closed
  have hnone : ∀ side, w.pipe.count side = 0 → ¬s'.Held [] k side := by
    intro side hzero hheld
    have hone : w.pipe.count side = 1 := hsound.open_ hc' hheld
    omega
  refine ⟨s', hs', hsound, c, _, hc, hc', fun j hj => ?_, ⟨_, hrun', rfl⟩, ?_⟩
  · rw [queue_set hc hpipes, if_neg (Ne.symm hj)]
  · match call, r, hmoved with
    | .read, .ok n, hmoved => exact ⟨hmoved.1, hmoved.2.1,
        fun hz hpos => ⟨(hmoved.2.2 hz hpos).1, hnone .write (hmoved.2.2 hz hpos).2⟩⟩
    | .write, .ok n, hmoved => exact hmoved
    | .read, .error e, hmoved => exact hmoved
    | .write, .error e, hmoved =>
        exact ⟨hmoved.1, fun he => hnone .read (by rw [hmoved.1]; exact hmoved.2 he)⟩

/-- **A stretch of a call**: it answers truly, or sleeps with a reason to and has moved
nothing. -/
theorem Sound.stretch (h : Sound [] s) (hrun : s.running = some p) {f : Work → Stop × Work}
    (hf : ∀ w, w.mem = p.res.mem → ∃ moved, Fine call k u p.res.fds w moved (f w)) :
    ∃ s' e, s.stretch p call k u f = some (s', e) ∧ Sound [] s' ∧ Does s s' e := by
  rw [Sys.stretch]
  cases hc : s.pipes[k]? with
  | none => exact ⟨s, none, rfl, h, .refl s⟩
  | some c =>
    obtain ⟨moved, hfine⟩ := hf ⟨c.pipe, p.res.mem, false⟩ rfl
    dsimp only
    generalize f ⟨c.pipe, p.res.mem, false⟩ = r at hfine
    obtain ⟨stop, w⟩ := r
    obtain ⟨hqueue, hcount, hwoke', hstop⟩ := hfine
    have hwoke : w.woke = true ∨ w.pipe = c.pipe := hwoke'.imp_right (congrArg Work.pipe)
    dsimp only at hstop hqueue hcount ⊢
    cases stop with
    | returns r =>
      obtain ⟨s', hs', hsound, hhonest⟩ :=
        @Sound.answer s p k c call u h hrun hc w hcount hwoke r (by
        cases r with
        | error e =>
          obtain ⟨rfl, hpipe⟩ := hstop
          cases call with
          | read => rfl
          | write => exact ⟨rfl, hpipe rfl⟩
        | ok n =>
          obtain ⟨rfl, hle, hend⟩ := hstop
          cases call with
          | read => exact ⟨hqueue, hle, hend rfl⟩
          | write => exact ⟨hqueue, hle⟩)
      exact ⟨s', some ⟨call, k, u, r, w.mem⟩, by dsimp only; rw [hs', Option.map_some],
        hsound, hhonest⟩
    | waits chunk =>
      obtain ⟨rfl, hphase, hsleep⟩ := hstop
      dsimp only
      split
      · obtain ⟨s', hs', hsound, hhonest⟩ :=
          @Sound.answer s p k c call u h hrun hc ⟨c.pipe, p.res.mem, false⟩ hcount hwoke
          (.error .EINTR) (by
            cases call with
            | read => rfl
            | write => exact ⟨rfl, nofun⟩)
        exact ⟨s', some ⟨call, k, u, .error .EINTR, p.res.mem⟩, by rw [hs', Option.map_some],
          hsound, hhonest⟩
      · next hkilled =>
        obtain ⟨s1, hs1, hsound1, hrun1, hpipes1⟩ :=
          h.writeBack hrun hc (w := ⟨c.pipe, p.res.mem, false⟩)
          (r := ⟨p.res.fds, p.res.mem, waiting call k u chunk⟩) hcount hwoke rfl hphase
        have hc1 : s1.pipes[k]? = some c := by
          obtain ⟨hk, -⟩ := List.getElem?_eq_some_iff.mp hc
          rw [hpipes1, List.getElem?_set_self hk]
        obtain ⟨s', hs', hsound', hpipes'⟩ :=
          hsound1.sleepOn hrun1 (by simpa using hkilled) hc1 hsleep
        refine ⟨s', none, by rw [hs1, Option.bind_some, hs', Option.map_some], hsound',
          fun j => Or.inl ?_⟩
        rw [queue, hpipes', ← queue, queue_set hc hpipes1]
        split
        · next hj => rw [← hj, queue, hc, Option.map_some]
        · rfl

/-! ### The calls -/

section

variable (h : Sound [] s) (hrun : s.running = some p)

include h hrun

theorem Sound.readCall (fd addr len : ℕ) :
    ∃ s' e, s.readCall p fd addr len = some (s', e) ∧ Sound [] s' ∧ Does s s' e := by
  rw [Sys.readCall]
  split
  · next k side hfd => exact h.stretch hrun fun w _ => fine_read (FdTable.mem_of_get hfd)
  · exact ⟨s, none, rfl, h, .refl s⟩

theorem Sound.writeCall (fd addr len : ℕ) :
    ∃ s' e, s.writeCall p fd addr len = some (s', e) ∧ Sound [] s' ∧ Does s s' e := by
  rw [Sys.writeCall]
  split
  · next k side hfd => exact h.stretch hrun fun w _ => fine_write (FdTable.mem_of_get hfd)
  · exact ⟨s, none, rfl, h, .refl s⟩

theorem Sound.resume :
    ∃ s' e, s.resume p = some (s', e) ∧ Sound [] s' ∧ Does s s' e := by
  have hphase : PhaseOk p.res := h.phase (running_eq_some.mp hrun).1
  rw [PhaseOk] at hphase
  rw [Sys.resume]
  cases hp : p.res.phase with
  | user => exact ⟨s, none, rfl, h, .refl s⟩
  | reading k u =>
    rw [hp] at hphase
    exact h.stretch hrun fun w hw => fine_readFrom hphase.1 hphase.2.2 (hw ▸ hphase.2.1)
  | writing k u chunk =>
    rw [hp] at hphase
    refine h.stretch hrun fun w hw => ?_
    obtain ⟨moved, hgave, hstop⟩ := @writeAgain_spec u w chunk (hw ▸ hphase.2)
    exact ⟨moved, fine_of_write hphase.1 hgave hstop⟩

theorem Sound.close (hphase : p.res.phase = .user) (fd : ℕ) :
    ∃ s', s.close p fd = some s' ∧ Sound [] s' ∧ Unmoved s s' := by
  rw [Sys.close]
  split
  · exact ⟨s, rfl, h, .refl s⟩
  · next file fds hremove =>
    have hsound : Sound [file] (s.setRes { p.res with fds := fds }) := by
      refine h.setRes hrun (by rw [PhaseOk, hphase]; trivial) fun k side => ?_
      rw [List.mem_singleton, or_comm, ← FdTable.mem_remove hremove]
      exact (or_iff_right List.not_mem_nil).symm
    obtain ⟨s', hs', hsound', hkept⟩ := hsound.dropAll
    exact ⟨s', hs', hsound', (Unmoved.of_pipes rfl).trans hkept.1⟩

end

theorem mem_insertEnds (t : FdTable FileRef) (read write : FileRef) {f : FileRef} :
    (f = read ∨ f = write ∨ f ∈ (insertEnds t read write).2.files) ↔
      (f = read ∨ f = write ∨ f ∈ t.files) := by
  rw [insertEnds]
  split
  · exact Iff.rfl
  · next r t1 h1 =>
    have hfirst : f ∈ t1.files ↔ f ∈ t.files ∨ f = read := FdTable.mem_insert h1
    split
    · next w t2 h2 =>
      rw [FdTable.mem_insert h2, hfirst]
      tauto
    · split
      · next file t2 h2 =>
        -- what is taken out again is one of the files that are in
        have hback : f ∈ t1.files ↔ f ∈ t2.files ∨ f = file := FdTable.mem_remove h2
        have hfile : file = read := by
          rw [FdTable.insert] at h1
          split at h1
          · next i hi =>
            cases h1
            obtain ⟨hlt, -, -⟩ := List.findIdx?_eq_some_iff_getElem.mp hi
            rw [FdTable.remove, FdTable.set, List.getElem?_set_self hlt] at h2
            cases h2
            rfl
          · cases h1
        subst hfile
        dsimp only
        tauto
      · dsimp only
        rw [hfirst]
        tauto

/-- **A pipe is made**, and its maker has both ends. -/
theorem Sound.made (h : Sound [] s) (id : ℕ) (memory : Block size) :
    Sound [.pipe s.pipes.length .read, .pipe s.pipes.length .write]
      { s with pipes := s.pipes ++ [⟨id, .new memory⟩] } := by
  have hboth : ∀ {j side}, FileRef.pipe j side ∈ [FileRef.pipe s.pipes.length .read,
      .pipe s.pipes.length .write] ↔
      j = s.pipes.length := by
    intro j side
    cases side <;> simp
  have hheld : ∀ {j side}, Held { s with pipes := s.pipes ++ [⟨id, .new memory⟩] }
      [.pipe s.pipes.length .read, .pipe s.pipes.length .write] j side ↔ j = s.pipes.length ∨
        s.Held [] j side := by
    intro j side
    refine or_congr hboth ?_
    exact (or_iff_right List.not_mem_nil).symm
  have hget : ∀ {j : ℕ} {c : Channel}, (s.pipes ++ [⟨id, .new memory⟩])[j]? = some c →
      s.pipes[j]? = some c ∧ j ≠ s.pipes.length ∨ j = s.pipes.length ∧ c = ⟨id, .new memory⟩ := by
    intro j c hc
    rcases Nat.lt_trichotomy j s.pipes.length with hj | hj | hj
    · rw [List.getElem?_append_left hj] at hc
      exact Or.inl ⟨hc, by omega⟩
    · subst hj
      rw [List.getElem?_concat_length] at hc
      exact Or.inr ⟨rfl, (Option.some.inj hc).symm⟩
    · rw [List.getElem?_eq_none (by rw [List.length_append, List.length_singleton]; omega)] at hc
      cases hc
  constructor
  · exact h.table
  · intro j side hh
    rw [List.length_append, List.length_singleton]
    rcases hheld.mp hh with rfl | hh
    · omega
    · exact Nat.lt_succ_of_lt (h.known hh)
  · intro j c side hc hh
    rcases hget hc with ⟨hc, hj⟩ | ⟨-, rfl⟩
    · exact h.open_ hc ((hheld.mp hh).resolve_left hj)
    · cases side <;> rfl
  · intro j c side hc hh
    rcases hget hc with ⟨hc, -⟩ | ⟨hj, -⟩
    · exact h.closed hc fun hh' => hh (hheld.mpr (Or.inr hh'))
    · exact absurd (hheld.mpr (Or.inl hj)) hh
  · exact h.zombie
  · exact h.phase
  · intro q p id' hp hs
    obtain ⟨hkilled, k, c, hc, hid, hsleep⟩ := h.asleep hp hs
    obtain ⟨hk, -⟩ := List.getElem?_eq_some_iff.mp hc
    refine ⟨hkilled, k, c, ?_, hid, hsleep⟩
    change (s.pipes ++ _)[k]? = some c
    rw [List.getElem?_append_left hk, hc]

theorem unmoved_made (s : Sys) (id : ℕ) (memory : Block size) :
    Unmoved s { s with pipes := s.pipes ++ [⟨id, .new memory⟩] } := by
  intro j
  rw [queue, queue]
  rcases Nat.lt_trichotomy j s.pipes.length with hj | hj | hj
  · exact Or.inl (by rw [List.getElem?_append_left hj])
  · subst hj
    refine Or.inr ⟨by rw [List.getElem?_eq_none le_rfl, Option.map_none], ?_⟩
    rw [List.getElem?_concat_length]
    rfl
  · refine Or.inl ?_
    rw [List.getElem?_eq_none (by rw [List.length_append, List.length_singleton]; omega),
      List.getElem?_eq_none (by omega)]

theorem Sound.placePipe (h : Sound [] s) (hrun : s.running = some p) (hphase : p.res.phase = .user)
    (u : UserSlice) (id : ℕ)
    (memory : Block size) : ∃ s', s.placePipe p u id memory = some s' ∧ Sound [] s' ∧
      Unmoved s s' := by
  rw [Sys.placePipe]
  dsimp only
  generalize hends : insertEnds p.res.fds (.pipe s.pipes.length .read)
    (.pipe s.pipes.length .write) = ends
  have hok : ∀ mem, PhaseOk ⟨ends.2, mem, p.res.phase⟩ := fun mem => by
    rw [PhaseOk, hphase]
    trivial
  have hmade := h.made id memory
  have hrun1 : running { s with pipes := s.pipes ++ [⟨id, .new memory⟩] } = some p := hrun
  have hplaced := hmade.setRes
      (g := [.pipe s.pipes.length .read, .pipe s.pipes.length .write]) hrun1
    (hok p.res.mem) fun k side => by
      rw [← hends]
      simpa only [List.mem_cons, List.not_mem_nil, or_false, or_assoc] using
        mem_insertEnds p.res.fds _ _
  obtain ⟨s2, hs2, hsound2, hkept⟩ := hplaced.dropAll
  have hrun2 := hkept.2 _ (running_setRes hrun1 _)
  have hmoved : Unmoved s s2 :=
    (unmoved_made s id memory).trans ((Unmoved.of_pipes rfl).trans hkept.1)
  refine ⟨s2.tellFds { p.res with fds := ends.2 } u ends.1, by rw [hs2, Option.map_some], ?_⟩
  cases ends.1 with
  | error e => exact ⟨hsound2, hmoved⟩
  | ok fds =>
    rw [tellFds]
    split
    · exact ⟨hsound2, hmoved⟩
    · exact ⟨hsound2.setRes hrun2 (hok _) fun _ _ => Iff.rfl, hmoved.trans (Unmoved.of_pipes rfl)⟩

theorem Sound.newPipe (h : Sound [] s) (hrun : s.running = some p)
    (hphase : p.res.phase = .user) (addr id : ℕ)
    (memory : Option (Block size)) : ∃ s', s.newPipe p addr id memory = some s' ∧ Sound [] s' ∧
      Unmoved s s' := by
  rw [Sys.newPipe]
  split
  · exact ⟨s, rfl, h, .refl s⟩
  · split
    · split
      · exact ⟨s, rfl, h, .refl s⟩
      · exact h.placePipe hrun hphase _ _ _
    · exact ⟨s, rfl, h, .refl s⟩

/-- **A process starts**, with fds of its parent's. -/
theorem Sound.born (h : Sound [] s) {group : Group} {name : String} {ppid : ℕ} {res : Res} {pid : ℕ}
    {t : Table Res}
    (ht : t.Inv) (hinsert : s.table.insert ppid group name res = some (.ok pid, t))
    (hphase : PhaseOk res)
    (hfds : ∀ {k side}, .pipe k side ∈ res.fds.files → s.Held [] k side) :
    Sound [] { s with table := t } := by
  obtain ⟨⟨e, he⟩, -⟩ | ⟨-, -, hne, -, ring, -, hnew⟩ := Table.insert_cases hinsert
  · cases he
  · have hget : ∀ {q p}, t.get q = some p → s.table.get q = some p ∨
        (p.res = res ∧ p.state = .ready) := by
      intro q p hp
      dsimp only at hnew
      rw [hnew, Table.get_append rfl (h.table.toPids.get_next hne)] at hp
      split at hp
      · cases hp
        exact Or.inr ⟨rfl, rfl⟩
      · exact Or.inl hp
    have hold : ∀ {q p}, s.table.get q = some p → t.get q = some p := by
      intro q p hp
      dsimp only at hnew
      rw [hnew, Table.get_append rfl (h.table.toPids.get_next hne), if_neg, hp]
      rintro rfl
      rw [h.table.toPids.get_next hne] at hp
      cases hp
    have hheld : ∀ {k side}, Held { s with table := t } [] k side ↔ s.Held [] k side := by
      intro k side
      constructor
      · rintro (hf | ⟨q, p, hp, hf⟩)
        · cases hf
        · rcases hget hp with hp | ⟨hres, -⟩
          · exact Or.inr ⟨q, p, hp, hf⟩
          · exact hfds (hres ▸ hf)
      · exact Or.imp_right fun ⟨q, p, hp, hf⟩ => ⟨q, p, hold hp, hf⟩
    refine h.of_held rfl ht hheld fun hp => ?_
    rcases hget hp with hp | ⟨hres, hstate⟩
    · exact h.proc hp
    · refine ⟨fun hz => ?_, hres ▸ hphase, fun hs => ?_⟩
      · rw [hstate] at hz
        cases hz
      · cases hstate.symm.trans hs

theorem Sound.spawn (h : Sound [] s) (hrun : s.running = some p) (maps : List FdMap) (group : Group)
    (name : String)
    (image : Option UserMemory) : ∃ s', s.spawn p maps group name image = some s' ∧ Sound [] s' ∧
      Unmoved s s' := by
  rw [Sys.spawn]
  split
  · exact ⟨s, rfl, h, .refl s⟩
  · next fds hfds =>
    have hheld : ∀ {k side}, .pipe k side ∈ fds.files → s.Held [] k side := fun hf =>
      Or.inr ⟨_, p, (running_eq_some.mp hrun).1, FdTable.mem_forChild hfds hf⟩
    -- the child's fds are given back when it does not start; its parent has them all
    obtain ⟨s', hs', hsound', hkept⟩ := (h.borrow hheld).dropAll
    split
    · exact ⟨s', hs', hsound', hkept.1⟩
    · next mem =>
      obtain ⟨⟨answer, t⟩, hr, ht⟩ := h.table.insert p.pid group name ⟨fds, mem, .user⟩
      rw [hr, Option.bind_some]
      cases answer with
      | ok pid => exact ⟨_, rfl, h.born ht hr trivial hheld, .of_pipes rfl⟩
      | error e =>
        obtain ⟨-, hsame⟩ | ⟨hok, -⟩ := Table.insert_cases hr
        · obtain rfl : t = s.table := hsame
          exact ⟨s', hs', hsound', hkept.1⟩
        · cases hok

theorem Sound.exit (h : Sound [] s) (hrun : s.running = some p) (status : WaitStatus) :
    ∃ s', s.exit p status = some s' ∧ Sound [] s' ∧ Unmoved s s' := by
  have hcur := (running_eq_some.mp hrun).1
  have hpid : p.pid = s.table.current := Table.pid_of_get hcur
  -- its fds are out of the table, and all that it had is to be dropped
  have htaken : Sound p.res.fds.files (s.setRes ⟨.new, noMemory, .user⟩) := by
    refine h.setRes hrun trivial fun k side => ?_
    rw [FdTable.files_new]
    exact or_comm
  obtain ⟨t, ht, hinv⟩ := htaken.table.endProc p.pid status
  have hended : Sound p.res.fds.files { s.setRes ⟨.new, noMemory, .user⟩ with table := t } := by
    refine htaken.spares hinv (.endProc ht) fun q hq p' hp' => ?_
    rw [Set.mem_singleton_iff.mp hq, hpid, get_setRes, if_pos rfl, hcur] at hp'
    cases hp'
    exact FdTable.files_new
  obtain ⟨s1, hs1, hsound1, hkept⟩ := hended.dropAll
  obtain ⟨r, hr, hinv'⟩ := hsound1.table.schedule
  refine ⟨{ s1 with table := r.2 }, ?_,
    hsound1.spares hinv' (.schedule (D := ∅) hr) fun q hq => hq.elim, ?_⟩
  · simp only [Sys.exit, ht, hs1, hr, Option.bind_eq_bind, Option.bind_some]
  · exact ((Unmoved.of_pipes rfl).trans hkept.1).trans (Unmoved.of_pipes rfl)

/-! ### Steps -/

theorem Sound.reap (h : Sound [] s) (parent : ℕ) (want : Want) :
    Sound [] { s with table := (s.table.reap parent want).2 } := by
  obtain ⟨hafter, hbefore⟩ := Table.get_reap h.table.toPids parent want
  have hheld : ∀ {k side}, Held { s with table := (s.table.reap parent want).2 } [] k side ↔
      s.Held [] k side := by
    intro k side
    refine or_congr_right ⟨fun ⟨q, p, hp, hf⟩ => ⟨q, p, hafter hp, hf⟩, fun ⟨q, p, hp, hf⟩ => ?_⟩
    rcases hbefore hp with hz | hp'
    · rw [h.zombie hp hz] at hf
      cases hf
    · exact ⟨q, p, hp', hf⟩
  exact h.of_held rfl (h.table.reap parent want) hheld fun hp => h.proc (hafter hp)

/-- **The rest of the kernel calls on the table.** -/
theorem Sound.tableCall (h : Sound [] s) (op : Op Res) :
    ∃ s', s.tableCall op = some s' ∧ Sound [] s' ∧ Unmoved s s' := by
  rw [Sys.tableCall]
  split
  · next hop =>
    rw [Bool.and_eq_true] at hop
    have hblocks : s.table.BlocksRunning op := by
      cases op with
      | block why =>
        intro p hp
        obtain ⟨p', hp', -⟩ := (Option.any_eq_true _ _).mp hop.2
        obtain ⟨hget, hstate⟩ := running_eq_some.mp hp'
        rw [hp] at hget
        cases hget
        exact hstate
      | _ => trivial
    obtain ⟨r, t, hstep, hinv⟩ := Table.step_inv h.table op hblocks
    refine ⟨{ s with table := t }, by rw [hstep, Option.map_some], ?_, .of_pipes rfl⟩
    by_cases hreap : ∃ parent want, op = .reap parent want
    · obtain ⟨parent, want, rfl⟩ := hreap
      cases hstep
      exact h.reap parent want
    · refine h.spares hinv (Table.spares_step hop.1 (fun parent want he => hreap ⟨parent, want, he⟩)
        hstep) fun q hq => hq.elim
  · exact ⟨s, rfl, h, .refl s⟩

theorem Sound.act (h : Sound [] s) (hrun : s.running = some p) (hphase : p.res.phase = .user)
    (a : Action) :
    ∃ s' e, s.act p a = some (s', e) ∧ Sound [] s' ∧ Does s s' e := by
  have hquiet : ∀ {r : Option Sys}, (∃ s', r = some s' ∧ Sound [] s' ∧ Unmoved s s') →
      ∃ s' e, r.map (fun s => ((s, none) : Sys × Option Event)) = some (s', e) ∧ Sound [] s' ∧
        Does s s' e := by
    rintro _ ⟨s', rfl, hsound, hmoved⟩
    exact ⟨s', none, rfl, hsound, hmoved⟩
  have hok : ∀ fds mem, PhaseOk ⟨fds, mem, p.res.phase⟩ := fun fds mem => by
    rw [PhaseOk, hphase]
    trivial
  cases a with
  | pipe addr id memory => exact hquiet (h.newPipe hrun hphase addr id memory)
  | close fd => exact hquiet (h.close hrun hphase fd)
  | read fd addr len => exact h.readCall hrun fd addr len
  | write fd addr len => exact h.writeCall hrun fd addr len
  | spawn maps group name image => exact hquiet (h.spawn hrun maps group name image)
  | exit status => exact hquiet (h.exit hrun status)
  | compute mem => exact ⟨_, none, rfl, h.setRes hrun (hok _ _) fun _ _ => Iff.rfl, .of_pipes rfl⟩
  | openFile n =>
    rw [Sys.act]
    split
    · next fd fds hfds =>
      refine ⟨_, none, rfl, h.setRes hrun (hok _ _) fun k side => ?_, .of_pipes rfl⟩
      exact or_congr_right ((FdTable.mem_insert hfds).trans (or_iff_left nofun))
    · exact ⟨s, none, rfl, h, .refl s⟩
  | resume => exact ⟨s, none, rfl, h, .refl s⟩
  | table op => exact ⟨s, none, rfl, h, .refl s⟩

/-- **Every step can be made, keeps the invariant and answers truly.** -/
theorem Sound.step (h : Sound [] s) (a : Action) :
    ∃ s' e, s.step a = some (s', e) ∧ Sound [] s' ∧ Does s s' e := by
  cases a
  case table op =>
    obtain ⟨s', hs', hsound, hmoved⟩ := h.tableCall op
    exact ⟨s', none, by rw [Sys.step, hs', Option.map_some], hsound, hmoved⟩
  -- the running process goes on, in its program or where it waited
  all_goals
    simp only [Sys.step]
    cases hrun : s.running with
    | none => exact ⟨s, none, rfl, h, .refl s⟩
    | some p =>
      dsimp only
      cases hphase : p.res.phase with
      | user => exact h.act hrun hphase _
      | reading k u => exact h.resume hrun
      | writing k u chunk => exact h.resume hrun

end Sys

end RelayOs.Pipes
