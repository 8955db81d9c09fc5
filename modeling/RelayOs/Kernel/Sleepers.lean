import RelayOs.Kernel.RunQueue

/-!
# Processes that sleep on a pipe

What the calls on the table do to what a process has (`R`), and to the processes that are
blocked on a pipe. Two things matter. No call but `block` puts a process to sleep on a pipe,
and none but `kill` marks one as killed; and `kill` wakes those it marks, so nobody sleeps on
who is killed (`RelayOs.Kernel.Table.Spares.mark`).
-/

namespace RelayOs.Kernel.Table

variable {R : Type} {t t' t'' : Table R} {pid q : ℕ} {D : Set ℕ}

/-! ### Waking -/

theorem get_wake {r : Bool × Table R} (h : t.wake pid = some r) : r.2.get q =
    (t.get q).map fun p => if q = pid ∧ p.state.isBlocked = true then { p with
      state := .ready } else p := by
  rw [wake] at h
  by_cases hq : q = pid
  · subst hq
    split at h
    · next p hp =>
      split at h
      · next hb =>
        obtain ⟨t1, h1, rfl⟩ := Option.map_eq_some_iff.mp h
        change t1.get q = _
        rw [get_enqueue h1, get_setState, if_pos rfl, hp, Option.map_some, Option.map_some,
          if_pos ⟨rfl, hb⟩]
      · next hb =>
        cases h
        rw [hp, Option.map_some, if_neg fun hc => hb hc.2]
    · next hp =>
      cases h
      rw [hp, Option.map_none]
  · have hid : (fun p : Process R => if q = pid ∧ p.state.isBlocked = true then { p with
        state := .ready } else p) = id :=
      funext fun p => if_neg fun hc => hq hc.1
    rw [hid, Option.map_id, id]
    split at h
    · split at h
      · obtain ⟨t1, h1, rfl⟩ := Option.map_eq_some_iff.mp h
        change t1.get q = _
        rw [get_enqueue h1, get_setState, if_neg hq]
      · cases h
        rfl
    · cases h
      rfl

/-- **Waking wakes those listed that are blocked**, and changes nothing else about anybody. -/
theorem get_wakeEach {pids : List ℕ} (h : wakeEach pids t = some t') : t'.get q =
    (t.get q).map fun p => if q ∈ pids ∧ p.state.isBlocked = true then { p with
      state := .ready } else p := by
  induction pids generalizing t with
  | nil =>
    cases h
    cases t'.get q with
    | none => rfl
    | some p => rw [Option.map_some, if_neg fun hc => List.not_mem_nil hc.1]
  | cons pid pids ih =>
    obtain ⟨r, hr, h'⟩ := Option.bind_eq_some_iff.mp h
    rw [ih h', get_wake hr]
    cases t.get q with
    | none => rfl
    | some p =>
      rw [Option.map_some, Option.map_some, Option.map_some]
      congr 1
      by_cases hb : p.state.isBlocked = true
      · by_cases hq : q = pid
        · have hready : State.ready.isBlocked = false := rfl
          simp [hb, hq, hready]
        · simp [hb, hq]
      · simp [hb]

theorem mem_pidsOf {c : Process R → Bool} {p : Process R} (hp : t.get q = some p)
    (hc : c p = true) : q ∈ t.pidsOf c :=
  List.mem_map.mpr ⟨p, List.mem_filter.mpr ⟨mem_of_get hp, hc⟩, pid_of_get hp⟩

/-- **After `wakeAll` nobody is blocked on it.** -/
theorem wakeAll_woken {why : Blocked} (h : t.wakeAll why = some t') {p : Process R}
    (hp : t'.get q = some p) :
    p.state ≠ .blocked why := by
  rw [get_wakeEach h] at hp
  obtain ⟨p0, hp0, rfl⟩ := Option.map_eq_some_iff.mp hp
  split
  · nofun
  · next hnot =>
    intro hs
    exact hnot ⟨mem_pidsOf hp0 (decide_eq_true hs), by rw [hs]; rfl⟩

/-! ### Calls that spare what the processes have -/

/-- **The call spares what the processes have**: nobody's resources change, none ends but
those of `D`, and who sleeps on a pipe afterwards did so before and is not marked
meanwhile. -/
structure Spares (D : Set ℕ) (t t' : Table R) : Prop where
  after : ∀ {q p'}, t'.get q = some p' → ∃ p, t.get q = some p ∧ p'.res = p.res ∧
    (p'.state.isZombie = true → p.state.isZombie = true ∨ q ∈ D) ∧
    ∀ id, p'.state = .blocked (.pipe id) → p.state = .blocked (.pipe id) ∧ p'.killed = p.killed
  before : ∀ {q p}, t.get q = some p → ∃ p', t'.get q = some p' ∧ p'.res = p.res

namespace Spares

/-- A change that takes every process to one with the same resources. -/
theorem of_get (f : ℕ → Process R → Process R) (hget : ∀ q, t'.get q = (t.get q).map (f q))
    (hf : ∀ {q p}, t.get q = some p → (f q p).res = p.res ∧
      ((f q p).state.isZombie = true → p.state.isZombie = true ∨ q ∈ D) ∧
      ∀ id, (f q p).state = .blocked (.pipe id) → p.state = .blocked (.pipe id) ∧
        (f q p).killed = p.killed) :
    Spares D t t' where
  after := fun {q p'} hq => by
    rw [hget] at hq
    obtain ⟨p, hp, rfl⟩ := Option.map_eq_some_iff.mp hq
    exact ⟨p, hp, hf hp⟩
  before := fun {q p} hq => ⟨f q p, by rw [hget, hq, Option.map_some], (hf hq).1⟩

theorem of_procs (h : t'.procs = t.procs) : Spares D t t' := by
  refine .of_get (fun _ p => p) (fun q => ?_) fun _ => ⟨rfl, Or.inl, fun _ hs => ⟨hs, rfl⟩⟩
  rw [Option.map_id', get, get, h]

theorem refl (t : Table R) : Spares D t t := .of_procs rfl

theorem trans (h : Spares D t t') (h' : Spares ∅ t' t'') : Spares D t t'' where
  after := fun hq => by
    obtain ⟨p', hp', hres', hz', hs'⟩ := h'.after hq
    obtain ⟨p, hp, hres, hz, hs⟩ := h.after hp'
    refine ⟨p, hp, hres'.trans hres, fun hzombie => ?_, fun id hid => ?_⟩
    · exact hz ((hz' hzombie).resolve_right (Set.notMem_empty _))
    · obtain ⟨hid', hk'⟩ := hs' id hid
      obtain ⟨hid0, hk⟩ := hs id hid'
      exact ⟨hid0, hk'.trans hk⟩
  before := fun hq => by
    obtain ⟨p', hp', hres⟩ := h.before hq
    obtain ⟨p'', hp'', hres'⟩ := h'.before hp'
    exact ⟨p'', hp'', hres'.trans hres⟩

/-- A process gets a state that is not one of sleep on a pipe. -/
theorem setState {s : State} (hz : s.isZombie = true → pid ∈ D)
    (hs : ∀ id, s ≠ .blocked (.pipe id)) :
    Spares D t (t.setState pid s) := by
  refine .of_get (fun q p => if q = pid then { p with state := s } else p)
    (fun q => ?_) fun {q p} _ => ?_
  · rw [get_setState]
    split
    · rfl
    · rw [Option.map_id']
  · split
    · next hq => exact ⟨rfl, fun h => Or.inr (hq ▸ hz h), fun id h => absurd h (hs id)⟩
    · exact ⟨rfl, Or.inl, fun _ h => ⟨h, rfl⟩⟩

/-- Some of those blocked are woken. -/
theorem wakeEach {pids : List ℕ} (h : Table.wakeEach pids t = some t') : Spares D t t' := by
  refine .of_get _ (fun q => get_wakeEach h) fun {q p} _ => ?_
  split
  · exact ⟨rfl, nofun, nofun⟩
  · exact ⟨rfl, Or.inl, fun _ hs => ⟨hs, rfl⟩⟩

theorem wakeGathered {pids : List ℕ} (h : Table.wakeGathered pids t = some t') : Spares D t t' := by
  rw [Table.wakeGathered] at h
  split at h
  · exact wakeEach h
  · cases h

theorem wake {r : Bool × Table R} (h : t.wake pid = some r) : Spares D t r.2 := by
  refine @wakeEach R t r.2 D [pid] ?_
  rw [Table.wakeEach, h]
  rfl

theorem wakeWaiter (h : t.wakeWaiter pid = some t') : Spares D t t' := by
  rw [Table.wakeWaiter] at h
  split at h
  · obtain ⟨r, hr, rfl⟩ := Option.map_eq_some_iff.mp h
    exact wake hr
  · cases h
    exact .refl t

theorem schedule {r : ℕ × Table R} (h : t.schedule = some r) : Spares D t r.2 := by
  obtain ⟨t1, h1, rfl⟩ := Option.map_eq_some_iff.mp h
  have hrequeue : Spares D t t1 := by
    rw [requeue] at h1
    split at h1
    · split at h1
      · obtain ⟨ring, -, rfl⟩ := enqueue_eq h1
        exact (setState (s := .ready) nofun nofun).trans (.of_procs rfl)
      · cases h1
        exact .refl t
    · cases h1
      exact .refl t
  exact hrequeue.trans ((setState (s := .running) nofun nofun).trans (.of_procs rfl))

theorem tick (t : Table R) : Spares D t t.tick.2 := by
  have hmod : Spares D t (t.modify t.current fun p => { p with ticks := p.ticks + 1 }) := by
    refine .of_get (fun q p => if q = t.current then { p with ticks := p.ticks + 1 } else p)
      (fun q => ?_) fun {q p} _ => ?_
    · rw [get_modify (f := fun p => { p with ticks := p.ticks + 1 }) fun _ => rfl]
      split
      · rfl
      · rw [Option.map_id']
    · split <;> exact ⟨rfl, Or.inl, fun _ hs => ⟨hs, rfl⟩⟩
  simp only [Table.tick]
  split <;> exact hmod.trans (.of_procs rfl)

/-- **Who is marked is woken**, so who sleeps on a pipe afterwards is not marked. -/
theorem mark {hit : Process R → Bool} {reason : ℕ} (h : t.mark hit reason = some t') :
    Spares D t t' := by
  rw [Table.mark, Table.wakeGathered] at h
  split at h
  · have hnote : ∀ q, ({ t with procs := t.procs.map (noteKilled hit reason) } : Table R).get q =
        (t.get q).map (noteKilled hit reason) :=
      fun q => find_map (fun p => by rw [noteKilled]; split <;> rfl) _
    refine .of_get (fun q p => if q ∈ t.pidsOf (fun p => hit p && p.state.isBlocked) ∧
      (noteKilled hit reason p).state.isBlocked =
        true then { noteKilled hit reason p with state := .ready }
        else noteKilled hit reason p) (fun q => ?_) fun {q p} hp => ?_
    · rw [get_wakeEach h, hnote, Option.map_map]
      rfl
    · have hres : (noteKilled hit reason p).res = p.res ∧
          (noteKilled hit reason p).state = p.state := by
        rw [noteKilled]
        split <;> exact ⟨rfl, rfl⟩
      dsimp only
      split
      · exact ⟨hres.1, by rintro ⟨⟩, by rintro - ⟨⟩⟩
      · next hnot =>
        refine ⟨hres.1, fun hz => Or.inl (hres.2 ▸ hz), fun id hs => ⟨hres.2 ▸ hs, ?_⟩⟩
        -- it sleeps still, so it is not among those that are hit
        rw [noteKilled]
        split
        · next hhit =>
          rw [Bool.and_eq_true] at hhit
          have hb : p.state.isBlocked = true := by
            rw [← hres.2, hs]
            rfl
          refine absurd ⟨mem_pidsOf hp ?_, hres.2.symm ▸ hb⟩ hnot
          rw [hhit.1, hb]
          rfl
        · rfl
  · cases h

theorem kill {target : ℤ} {reason : ℕ} {r : Except Vfs.Errno Unit × Table R}
    (h : t.kill target reason = some r) :
    Spares D t r.2 := by
  rw [Table.kill] at h
  split at h
  · cases h
    exact .refl t
  · split at h
    · cases h
      exact .refl t
    · obtain ⟨t1, h1, rfl⟩ := Option.map_eq_some_iff.mp h
      exact mark h1

/-- **A process ends**: nobody else does, and nobody's resources change. -/
theorem endProc {status : WaitStatus} (h : t.endProc pid status = some t') : Spares {pid} t t' := by
  cases hp : t.get pid with
  | none =>
    simp only [Table.endProc, hp] at h
    cases h
    exact .refl t
  | some p =>
    simp only [Table.endProc, hp, Option.bind_eq_bind] at h
    obtain ⟨t1, h1, h⟩ := Option.bind_eq_some_iff.mp h
    obtain ⟨t2, h2, h⟩ := Option.bind_eq_some_iff.mp h
    obtain ⟨ring, rfl⟩ := dequeueIf_eq h1
    have hzombie : Spares {pid} t { t.setState pid (.zombie status) with ready := ring } :=
      (setState (s := .zombie status) (fun _ => Set.mem_singleton pid) (by simp)).trans
        (.of_procs rfl)
    have horphan : ∀ t : Table R, Spares ∅ t (t.orphan pid) := fun t => by
      refine .of_get (fun _ c => if c.ppid = pid then { c with ppid := init } else c)
        (fun q => get_orphan) fun {q c} _ => ?_
      split <;> exact ⟨rfl, Or.inl, fun _ hs => ⟨hs, rfl⟩⟩
    have hlast : Spares ∅ t2 t' := by
      split at h
      · exact wakeWaiter h
      · cases h
        exact .refl _
    exact ((hzombie.trans (horphan _)).trans (wakeWaiter h2)).trans hlast

theorem of_call {α : Type*} {o : Option α} {f : α → Reply R × Table R} {r : Reply R}
    (h : o.map f = some (r, t'))
    (hs : ∀ {a}, o = some a → Spares D t (f a).2) : Spares D t t' :=
  Table.of_call (P := fun _ => Spares D t) h hs

end Spares

/-- A call of the rest of the kernel: any but those that start and end a process, and the
`block` of a pipe's reader or writer. -/
def elsewhere : Op R → Bool
  | .insert .. => false
  | .endProc .. => false
  | .block (.pipe _) => false
  | _ => true

/-- **The calls of the rest of the kernel**, but the one that takes out a process that has
ended, spare what the processes have. -/
theorem spares_step {op : Op R} {r : Reply R} (hop : elsewhere op = true)
    (hreap : ∀ parent want, op ≠ .reap parent want)
    (h : t.step op = some (r, t')) : Spares ∅ t t' := by
  cases op with
  | insert => cases hop
  | endProc => cases hop
  | reap parent want => exact absurd rfl (hreap parent want)
  | schedule => exact .of_call h fun ha => .schedule ha
  | block why =>
    cases h
    refine .setState nofun fun id he => ?_
    rw [State.blocked.inj he] at hop
    cases hop
  | wake pid => exact .of_call h fun ha => .wake ha
  | wakeAll why => exact .of_call h fun ha => .wakeEach ha
  | wakeWaiting pgid => exact .of_call h fun ha => .wakeEach ha
  | wakeSleepers now => exact .of_call h fun ha => .wakeGathered ha
  | tick =>
    cases h
    exact .tick t
  | kill target reason => exact .of_call h fun ha => .kill ha
  | killAllButInit reason => exact .of_call h fun ha => .mark ha
  | giveConsole pid dst =>
    cases h
    refine .of_procs ?_
    rw [giveConsole]
    split <;> rfl
  | takeConsole =>
    cases h
    exact .of_procs rfl

/-- **Collecting** takes out of the table one process that has ended, or none. -/
theorem get_reap (ht : Pids t) (parent : ℕ) (want : Want) :
    (∀ {q p}, (t.reap parent want).2.get q = some p → t.get q = some p) ∧
      ∀ {q p}, t.get q = some p → p.state.isZombie = true ∨
        (t.reap parent want).2.get q = some p := by
  rcases reap_cases t parent want with ⟨he, -⟩ | ⟨p, l1, l2, -, hl, hz, he⟩
  · rw [he]
    exact ⟨id, Or.inr⟩
  · have hd := ht.nodup
    rw [hl] at hd
    have hget : ∀ q, (t.reap parent want).2.get q = if q = p.pid then none
        else t.get q := fun q => by
      rw [he, get, get, hl]
      exact find_remove hd
    constructor
    · intro q p' hp'
      rw [hget] at hp'
      split at hp'
      · cases hp'
      · exact hp'
    · intro q p' hp'
      rw [hget]
      split
      · next hq =>
        rw [hq, ht.get_eq (p := p) (by rw [hl]; simp)] at hp'
        cases hp'
        exact Or.inl hz
      · exact Or.inr hp'

end RelayOs.Kernel.Table
