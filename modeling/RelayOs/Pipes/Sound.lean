import RelayOs.Pipes.System

/-!
# What holds between the calls

`RelayOs.Pipes.Sys.Sound` is the invariant of processes and pipes: an end is open just while
somebody refers to it, who waits in a call still has the end and the buffer it was made with,
and who sleeps on a pipe has reason to. It is stated with a list of references that are in
nobody's fds, so that it holds in the middle of a call too, while those are being dropped.
-/

namespace RelayOs.Pipes

open Vfs Mm Kernel

namespace Sys

variable {s s' : Sys} {fs g : List FileRef} {p : Process Res} {k : ℕ} {side : Side} {c : Channel}

/-- **Somebody refers to the end**: one of `fs`, or a process's fd. -/
def Held (s : Sys) (fs : List FileRef) (k : ℕ) (side : Side) : Prop :=
  .pipe k side ∈ fs ∨ ∃ q p, s.table.get q = some p ∧ .pipe k side ∈ p.res.fds.files

/-- A process that waits in a call has the end it was made on, and its buffer is as it was. -/
def PhaseOk (r : Res) : Prop :=
  match r.phase with
  | .user => True
  | .reading k u => .pipe k .read ∈ r.fds.files ∧ r.mem.checkWritable u = .ok () ∧ u.len < 2 ^ 64
  | .writing k u chunk => .pipe k .write ∈ r.fds.files ∧ Chunk u r.mem 0 chunk

/-- **A reason to sleep** on the pipe `k`: there is nothing to read and a writer, or no room
and a reader. -/
def Sleeps (k : ℕ) (pipe : Pipe) : Phase → Prop
  | .user => False
  | .reading k' _ => k' = k ∧ pipe.len = 0 ∧ pipe.writers ≠ 0
  | .writing k' _ _ => k' = k ∧ pipe.len = size ∧ pipe.readers ≠ 0

/-- **The invariant**, with the references `fs` in nobody's fds. -/
structure Sound (fs : List FileRef) (s : Sys) : Prop where
  table : s.table.Inv
  known : ∀ {k side}, s.Held fs k side → k < s.pipes.length
  open_ : ∀ {k c side}, s.pipes[k]? = some c → s.Held fs k side → c.pipe.count side = 1
  closed : ∀ {k c side}, s.pipes[k]? = some c → ¬s.Held fs k side → c.pipe.count side = 0
  zombie : ∀ {q p}, s.table.get q = some p → p.state.isZombie = true → p.res.fds.files = []
  phase : ∀ {q p}, s.table.get q = some p → PhaseOk p.res
  asleep : ∀ {q p id}, s.table.get q = some p → p.state = .blocked (.pipe id) →
    p.killed = none ∧ ∃ k c, s.pipes[k]? = some c ∧ c.id = id ∧ Sleeps k c.pipe p.res.phase

/-- What the invariant says of one process. -/
structure ProcOk (s : Sys) (p : Process Res) : Prop where
  zombie : p.state.isZombie = true → p.res.fds.files = []
  phase : PhaseOk p.res
  asleep : ∀ {id}, p.state = .blocked (.pipe id) →
    p.killed = none ∧ ∃ k c, s.pipes[k]? = some c ∧ c.id = id ∧ Sleeps k c.pipe p.res.phase

variable {q : ℕ} {r : Res}

theorem Sound.proc (h : Sound fs s) (hp : s.table.get q = some p) : s.ProcOk p :=
  ⟨h.zombie hp, h.phase hp, h.asleep hp⟩

/-- **The same pipes with the same ends held**: only the processes are to be looked at. -/
theorem Sound.of_held (h : Sound fs s) (hpipes : s'.pipes = s.pipes) (htable : s'.table.Inv)
    (hheld : ∀ {k side}, s'.Held g k side ↔ s.Held fs k side)
    (hproc : ∀ {q p}, s'.table.get q = some p → s.ProcOk p) : Sound g s' where
  table := htable
  known := fun hh => by
    rw [hpipes]
    exact h.known (hheld.mp hh)
  open_ := fun hc hh => h.open_ (hpipes ▸ hc) (hheld.mp hh)
  closed := fun hc hh => h.closed (hpipes ▸ hc) fun hh' => hh (hheld.mpr hh')
  zombie := fun hp => (hproc hp).zombie
  phase := fun hp => (hproc hp).phase
  asleep := fun hp => by
    rw [hpipes]
    exact (hproc hp).asleep

/-- What the pipe `k` holds. -/
def queue (s : Sys) (k : ℕ) : Option Bytes := (s.pipes[k]?).map fun c => c.pipe.contents

/-- **No byte has moved**: a pipe holds what it held, and a new one nothing. -/
def Unmoved (s s' : Sys) : Prop :=
  ∀ k, s'.queue k = s.queue k ∨ (s.queue k = none ∧ s'.queue k = some [])

theorem Unmoved.refl (s : Sys) : Unmoved s s := fun _ => Or.inl rfl

theorem Unmoved.trans {s'' : Sys} (h : Unmoved s s') (h' : Unmoved s' s'') : Unmoved s s'' := by
  intro k
  rcases h k with he | ⟨hnone, hnil⟩
  · rw [← he]
    exact h' k
  · rcases h' k with he' | ⟨hnone', -⟩
    · exact Or.inr ⟨hnone, he'.trans hnil⟩
    · rw [hnone'] at hnil
      cases hnil

theorem Unmoved.of_pipes (h : s'.pipes = s.pipes) : Unmoved s s' :=
  fun k => Or.inl (by rw [queue, queue, h])

/-! ### The processes -/

theorem held_eq_true (h : s.table.Inv) : s.held (.pipe k side) = true ↔
    ∃ q p, s.table.get q = some p ∧ .pipe k side ∈ p.res.fds.files := by
  rw [held, List.any_eq_true]
  constructor
  · rintro ⟨p, hp, hf⟩
    exact ⟨p.pid, p, h.toPids.get_eq hp, of_decide_eq_true hf⟩
  · rintro ⟨q, p, hp, hf⟩
    exact ⟨p, Table.mem_of_get hp, decide_eq_true hf⟩

theorem running_eq_some : s.running = some p ↔ s.table.get s.table.current = some p ∧
    p.state = .running := by
  rw [running, Option.filter_eq_some_iff, decide_eq_true_eq]

theorem get_setRes : (s.setRes r).table.get q =
    if q = s.table.current then (s.table.get q).map fun p => { p with res := r }
      else s.table.get q :=
  Table.get_modify (f := fun p => { p with res := r }) fun _ => rfl

theorem running_setRes (h : s.running = some p) (r : Res) :
    (s.setRes r).running = some { p with res := r } := by
  obtain ⟨hget, hstate⟩ := running_eq_some.mp h
  refine running_eq_some.mpr ⟨?_, hstate⟩
  change (s.setRes r).table.get s.table.current = _
  rw [get_setRes, if_pos rfl, hget, Option.map_some]

theorem of_get_setRes (hrun : s.running = some p) {p' : Process Res}
    (h : (s.setRes r).table.get q = some p') :
    (q = s.table.current ∧ p' = { p with res := r }) ∨
      (q ≠ s.table.current ∧ s.table.get q = some p') := by
  rw [get_setRes] at h
  split at h
  · next hq =>
    rw [hq, (running_eq_some.mp hrun).1] at h
    exact Or.inl ⟨hq, (Option.some.inj h).symm⟩
  · next hq => exact Or.inr ⟨hq, h⟩

theorem held_setRes (hrun : s.running = some p)
    (hfds : (.pipe k side ∈ g ∨ .pipe k side ∈ r.fds.files) ↔
      (.pipe k side ∈ fs ∨ .pipe k side ∈ p.res.fds.files)) :
    (s.setRes r).Held g k side ↔ s.Held fs k side := by
  have hcur := (running_eq_some.mp hrun).1
  have hcur' := (running_eq_some.mp (running_setRes hrun r)).1
  constructor
  · rintro (hf | ⟨q, p', hp', hf⟩)
    · exact (hfds.mp (Or.inl hf)).imp_right fun hf => ⟨_, p, hcur, hf⟩
    · rcases of_get_setRes hrun hp' with ⟨-, rfl⟩ | ⟨-, hp⟩
      · exact (hfds.mp (Or.inr hf)).imp_right fun hf => ⟨_, p, hcur, hf⟩
      · exact Or.inr ⟨q, p', hp, hf⟩
  · rintro (hf | ⟨q, p', hp', hf⟩)
    · exact (hfds.mpr (Or.inl hf)).imp_right fun hf => ⟨_, _, hcur', hf⟩
    · by_cases hq : q = s.table.current
      · rw [hq, hcur] at hp'
        cases hp'
        exact (hfds.mpr (Or.inr hf)).imp_right fun hf => ⟨_, _, hcur', hf⟩
      · refine Or.inr ⟨q, p', ?_, hf⟩
        rw [get_setRes, if_neg hq, hp']

/-- **The running process's resources change.** -/
theorem Sound.setRes (h : Sound fs s) (hrun : s.running = some p) (hphase : PhaseOk r)
    (hfds : ∀ k side, (.pipe k side ∈ g ∨ .pipe k side ∈ r.fds.files) ↔
      (.pipe k side ∈ fs ∨ .pipe k side ∈ p.res.fds.files)) : Sound g (s.setRes r) := by
  have hstate := (running_eq_some.mp hrun).2
  refine h.of_held rfl (h.table.modify (fun _ => rfl) fun _ => rfl)
    (held_setRes hrun (hfds _ _)) fun hp' => ?_
  rcases of_get_setRes hrun hp' with ⟨-, rfl⟩ | ⟨-, hp⟩
  · refine ⟨fun hz => ?_, hphase, fun hs => ?_⟩
    · change p.state.isZombie = true at hz
      rw [hstate] at hz
      cases hz
    · cases hstate.symm.trans hs
  · exact h.proc hp

theorem held_spares {D : Set ℕ} (hs : Table.Spares D s.table s'.table) :
    s'.Held fs k side ↔ s.Held fs k side := by
  refine or_congr_right ⟨?_, ?_⟩
  · rintro ⟨q, p', hp', hf⟩
    obtain ⟨p, hp, hres, -⟩ := hs.after hp'
    exact ⟨q, p, hp, hres ▸ hf⟩
  · rintro ⟨q, p, hp, hf⟩
    obtain ⟨p', hp', hres⟩ := hs.before hp
    exact ⟨q, p', hp', hres.symm ▸ hf⟩

/-- A call on the table that spares what the processes have; those of `D` may end if they have no
fds. -/
theorem Sound.spares {D : Set ℕ} {t : Table Res} (h : Sound fs s) (ht : t.Inv)
    (hs : Table.Spares D s.table t)
    (hD : ∀ q ∈ D, ∀ p, s.table.get q = some p → p.res.fds.files = []) :
    Sound fs { s with table := t } := by
  refine h.of_held rfl ht (held_spares hs) fun {q p'} hp' => ?_
  obtain ⟨p, hp, hres, hzombie, hsleep⟩ := hs.after hp'
  refine ⟨fun hz => ?_, hres ▸ h.phase hp, fun hstate => ?_⟩
  · rw [hres]
    rcases hzombie hz with hz' | hq
    · exact h.zombie hp hz'
    · exact hD q hq p hp
  · obtain ⟨hstate', hkilled⟩ := hsleep _ hstate
    rw [hres, hkilled]
    exact h.asleep hp hstate'

/-! ### Waking -/

/-- **Waking those on a pipe.** -/
theorem wakePipe_spec (h : s.table.Inv) (id : ℕ) :
    ∃ t, s.wakePipe id = some { s with table := t } ∧ t.Inv ∧
    Table.Spares ∅ s.table t ∧ (∀ q p, t.get q = some p → p.state ≠ .blocked (.pipe id)) ∧
    ∀ p, s.running = some p → running { s with table := t } = some p := by
  obtain ⟨t, ht, hinv, hcur⟩ :=
    Table.Inv.wakeEach (s.table.pidsOf fun p => p.state = .blocked (.pipe id)) h
  have hwake : s.table.wakeAll (.pipe id) = some t := ht
  refine ⟨t, ?_, hinv, .wakeEach ht, fun q p hp => Table.wakeAll_woken hwake hp, fun p hp => ?_⟩
  · rw [wakePipe, hwake, Option.map_some]
  · obtain ⟨hget, hstate⟩ := running_eq_some.mp hp
    refine running_eq_some.mpr ⟨?_, hstate⟩
    change t.get t.current = some p
    -- who runs is not blocked, so it is not woken
    rw [hcur, Table.get_wakeEach ht, hget, Option.map_some, hstate, if_neg fun hb => nomatch hb.2]

theorem getElem_setPipe {j : ℕ} {c' : Channel} (hc : s.pipes[k]? = some c) :
    (s.setPipe k c').pipes[j]? = if k = j then some c' else s.pipes[j]? := by
  obtain ⟨hk, -⟩ := List.getElem?_eq_some_iff.mp hc
  change (s.pipes.set k c')[j]? = _
  rw [List.getElem?_set]
  refine if_congr Iff.rfl ?_ rfl
  rw [if_pos hk]

/-- **A pipe changes, and those who wait on it are woken**: nobody is left asleep on it. -/
theorem Sound.rewire (h : Sound fs s) (hc : s.pipes[k]? = some c) {pipe : Pipe}
    (hother : ∀ {j side}, j ≠ k → (s.Held g j side ↔ s.Held fs j side))
    (hknown : ∀ {side}, s.Held g k side → s.Held fs k side)
    (hopen : ∀ {side}, s.Held g k side → pipe.count side = 1)
    (hclosed : ∀ {side}, ¬s.Held g k side → pipe.count side = 0) :
    ∃ s', (s.setPipe k { c with pipe := pipe }).wakePipe c.id = some s' ∧ Sound g s' ∧
      s'.pipes = s.pipes.set k { c with pipe := pipe } ∧ ∀ p, s.running = some p →
        s'.running = some p := by
  have htable : (s.setPipe k { c with pipe := pipe }).table.Inv := h.table
  obtain ⟨t, hwake, ht, hs, hwoken, hrun⟩ := wakePipe_spec htable c.id
  refine ⟨_, hwake, ?_, rfl, hrun⟩
  have hget : ∀ j : ℕ, (s.setPipe k { c with pipe := pipe }).pipes[j]? =
      if k = j then some { c with pipe := pipe } else s.pipes[j]? := fun j => getElem_setPipe hc
  have hheld : ∀ {j side}, Held { s.setPipe k { c with pipe := pipe } with table := t } g j side ↔
      s.Held g j side :=
    @fun j side => held_spares (s := s) hs
  constructor
  · exact ht
  · intro j side hh
    change j < (s.pipes.set k _).length
    rw [List.length_set]
    by_cases hj : j = k
    · subst hj
      exact h.known (hknown (hheld.mp hh))
    · exact h.known ((hother hj).mp (hheld.mp hh))
  · intro j c' side hc' hh
    rw [hget] at hc'
    split at hc'
    · next hj =>
      subst hj
      cases hc'
      exact hopen (hheld.mp hh)
    · next hj => exact h.open_ hc' ((hother (Ne.symm hj)).mp (hheld.mp hh))
  · intro j c' side hc' hh
    rw [hget] at hc'
    split at hc'
    · next hj =>
      subst hj
      cases hc'
      exact hclosed fun hh' => hh (hheld.mpr hh')
    · next hj => exact h.closed hc' fun hh' => hh (hheld.mpr ((hother (Ne.symm hj)).mpr hh'))
  · intro q p' hp' hz
    obtain ⟨p, hp, hres, hzombie, -⟩ := hs.after hp'
    rw [hres]
    exact h.zombie hp ((hzombie hz).resolve_right (Set.notMem_empty _))
  · intro q p' hp'
    obtain ⟨p, hp, hres, -⟩ := hs.after hp'
    rw [hres]
    exact h.phase hp
  · intro q p' id hp' hstate
    obtain ⟨p, hp, hres, -, hsleep⟩ := hs.after hp'
    obtain ⟨hstate', hkilled⟩ := hsleep id hstate
    obtain ⟨hnone, j, c', hc', hid, hreason⟩ := h.asleep hp hstate'
    rw [hres, hkilled]
    refine ⟨hnone, j, c', ?_, hid, hreason⟩
    rw [hget, if_neg, hc']
    -- who still sleeps does so on another pipe
    rintro rfl
    rw [hc] at hc'
    cases hc'
    exact hwoken q p' hp' (hid.symm ▸ hstate)

/-! ### Dropping references -/

theorem held_cons {f : FileRef} (h : ∀ {k side}, f = .pipe k side → s.Held fs k side) :
    s.Held fs k side ↔ s.Held (f :: fs) k side := by
  constructor
  · exact Or.imp_left (List.mem_cons_of_mem f)
  · rintro (hf | hf)
    · rcases List.mem_cons.mp hf with rfl | hf
      · exact h rfl
      · exact Or.inl hf
    · exact Or.inr hf

theorem count_close (pipe : Pipe) (side side' : Side) :
    (pipe.close side).count side' = if side' = side then pipe.count side' - 1
      else pipe.count side' := by
  cases side <;> cases side' <;> rfl

theorem contents_close (pipe : Pipe) (side : Side) :
    (pipe.close side).contents = pipe.contents := by
  cases side <;> rfl

/-- What a system keeps while references are dropped: the bytes, and who runs. -/
def Kept (s s' : Sys) : Prop := Unmoved s s' ∧ ∀ p, s.running = some p → s'.running = some p

theorem Kept.refl (s : Sys) : Kept s s := ⟨.refl s, fun _ => id⟩

theorem Kept.trans {s'' : Sys} (h : Kept s s') (h' : Kept s' s'') : Kept s s'' :=
  ⟨h.1.trans h'.1, fun p hp => h'.2 p (h.2 p hp)⟩

/-- **The last reference to an end goes.** -/
theorem Sound.closeEnd (h : Sound (.pipe k side :: fs) s) (hlast : ¬s.Held fs k side) :
    ∃ s', s.closeEnd k side = some s' ∧ Sound fs s' ∧ Kept s s' := by
  have hheld : s.Held (.pipe k side :: fs) k side := Or.inl List.mem_cons_self
  have hk := h.known hheld
  obtain ⟨c, hc⟩ : ∃ c, s.pipes[k]? = some c := ⟨_, List.getElem?_eq_getElem hk⟩
  have hmem : ∀ {j side'}, FileRef.pipe j side' ≠ .pipe k side →
      (s.Held fs j side' ↔ s.Held (.pipe k side :: fs) j side') := by
    intro j side' hne
    refine or_congr_left ?_
    rw [List.mem_cons, or_iff_right hne]
  have hrewire := @Sound.rewire s (.pipe k side :: fs) fs k c h hc (c.pipe.close side)
    (fun hj => hmem fun he => hj (FileRef.pipe.inj he).1)
      (Or.imp_left (List.mem_cons_of_mem _)) ?_ ?_
  · obtain ⟨s', hs', hsound, hpipes, hrun⟩ := hrewire
    refine ⟨s', ?_, hsound, fun j => ?_, hrun⟩
    · rw [Sys.closeEnd, hc]
      exact hs'
    · refine Or.inl ?_
      have hget := @getElem_setPipe s k c j { c with pipe := c.pipe.close side } hc
      change (s.pipes.set k _)[j]? = _ at hget
      rw [queue, queue, hpipes, hget]
      split
      · next hj =>
        rw [← hj, hc, Option.map_some, Option.map_some]
        exact congrArg some (contents_close _ _)
      · rfl
  · intro side' hh
    have hne : side' ≠ side := by
      rintro rfl
      exact hlast hh
    rw [count_close, if_neg hne]
    exact h.open_ hc (Or.imp_left (List.mem_cons_of_mem _) hh)
  · intro side' hh
    rw [count_close]
    split
    · next he =>
      subst he
      rw [h.open_ hc hheld]
    · next hne =>
      exact h.closed hc fun hh' => hh ((hmem fun he => hne (FileRef.pipe.inj he).2).mpr hh')

/-- **A reference is dropped**, and the end closed if it was the last one. -/
theorem Sound.dropFile {f : FileRef} (h : Sound (f :: fs) s) :
    ∃ s', s.dropFile fs f = some s' ∧ Sound fs s' ∧ Kept s s' := by
  cases f with
  | other n => exact ⟨s, rfl, h.of_held rfl h.table (held_cons nofun) h.proc, .refl s⟩
  | pipe k side =>
    have hcond : (.pipe k side ∈ fs ∨ s.held (.pipe k side) = true) ↔ s.Held fs k side :=
      or_congr_right (held_eq_true h.table)
    rw [Sys.dropFile]
    split
    · next hin =>
      refine ⟨s, rfl, h.of_held rfl h.table (held_cons ?_) h.proc, .refl s⟩
      rintro k' side' he
      cases he
      exact hcond.mp hin
    · next hnot => exact h.closeEnd fun hh => hnot (hcond.mpr hh)

theorem Sound.dropAll (h : Sound fs s) :
    ∃ s', dropAll fs s = some s' ∧ Sound [] s' ∧ Kept s s' := by
  induction fs generalizing s with
  | nil => exact ⟨s, rfl, h, .refl s⟩
  | cons f fs ih =>
    obtain ⟨s1, h1, hsound1, hkept1⟩ := h.dropFile
    obtain ⟨s2, h2, hsound2, hkept2⟩ := ih hsound1
    refine ⟨s2, ?_, hsound2, hkept1.trans hkept2⟩
    rw [Sys.dropAll, h1]
    exact h2

theorem Sound.borrow (h : Sound [] s) (hheld : ∀ {k side}, .pipe k side ∈ fs → s.Held [] k side) :
    Sound fs s := by
  refine h.of_held rfl h.table (fun {k side} => ⟨?_, ?_⟩) h.proc
  · rintro (hf | hf)
    · exact hheld hf
    · exact Or.inr hf
  · rintro (hf | hf)
    · cases hf
    · exact Or.inr hf

/-! ### Waiting -/

/-- **The running process goes to sleep**, with a reason to. -/
theorem Sound.sleepOn (h : Sound [] s) (hrun : s.running = some p) (hkilled : p.killed = none)
    (hc : s.pipes[k]? = some c) (hsleep : Sleeps k c.pipe p.res.phase) :
    ∃ s', s.sleepOn c.id = some s' ∧ Sound [] s' ∧ s'.pipes = s.pipes := by
  obtain ⟨hcur, hstate⟩ := running_eq_some.mp hrun
  have hinv : (s.table.block (.pipe c.id)).Inv := h.table.block _ fun p' hp' => by
    rw [hcur] at hp'
    cases hp'
    exact hstate
  have hget : ∀ {q p'}, (s.table.block (.pipe c.id)).get q = some p' →
      (p' = { p with state := .blocked (.pipe c.id) }) ∨ s.table.get q = some p' := by
    intro q p' hp'
    rw [Table.block, Table.get_setState] at hp'
    split at hp'
    · next hq =>
      rw [hq, hcur] at hp'
      exact Or.inl (Option.some.inj hp').symm
    · exact Or.inr hp'
  have hheld : ∀ {j side}, Held { s with table := s.table.block (.pipe c.id) } [] j side ↔
      s.Held [] j side := by
    intro j side
    refine or_congr_right ⟨?_, ?_⟩
    · rintro ⟨q, p', hp', hf⟩
      rcases hget hp' with rfl | hp
      · exact ⟨_, p, hcur, hf⟩
      · exact ⟨q, p', hp, hf⟩
    · rintro ⟨q, p', hp', hf⟩
      refine ⟨q, if q = s.table.current then { p' with state := .blocked (.pipe c.id) }
        else p', ?_, ?_⟩
      · change (s.table.setState s.table.current _).get q = _
        rw [Table.get_setState, hp', Option.map_some]
        split <;> rfl
      · split <;> exact hf
  have hsound : Sound [] { s with table := s.table.block (.pipe c.id) } := by
    refine h.of_held rfl hinv hheld fun hp' => ?_
    rcases hget hp' with rfl | hp
    · refine ⟨nofun, (h.phase hcur : PhaseOk p.res), fun hs => ?_⟩
      cases hs
      exact ⟨hkilled, k, c, hc, rfl, hsleep⟩
    · exact h.proc hp
  obtain ⟨r, hr, ht⟩ := hinv.schedule
  refine ⟨{ s with table := r.2 }, ?_,
    hsound.spares ht (.schedule (D := ∅) hr) fun q hq => hq.elim, rfl⟩
  rw [Sys.sleepOn, hr, Option.map_some]

end Sys

end RelayOs.Pipes
