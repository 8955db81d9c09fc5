import RelayOs.Kernel.Table

/-!
# What a call does to who is who

Most calls on the process table only move processes between ready, running and blocked:
who exists, whose child it is and in which group stays as it is. `RelayOs.Kernel.Table.Stirs`
says that of a call, and adds that no process ends by it and none waits for a child that
did not wait before. The calls that do more – a process is added, ends or is taken out –
are described one by one, and `RelayOs.Kernel.Table.change_of_step` says that these are all.
-/

namespace RelayOs.Kernel

/-- **Who a process is** in its family: what scheduling does not touch. -/
structure Kin where
  pid : ℕ
  ppid : ℕ
  pgid : ℕ
  deriving DecidableEq, Repr

/-- What becomes of a member of the family when `pid` ends. -/
def Kin.afterEnd (pid : ℕ) (k : Kin) : Kin :=
  ⟨k.pid, if k.ppid = pid then init else k.ppid, k.pgid⟩

variable {R : Type}

/-- Who the process belongs to. -/
def Process.kin (p : Process R) : Kin := ⟨p.pid, p.ppid, p.pgid⟩

/-! ### Changing one process -/

section Alter

variable {pid q : ℕ} {f : Process R → Process R}

theorem find_alter (hf : ∀ p, (f p).pid = p.pid) (ps : List (Process R)) :
    (alter pid f ps).find? (fun p => p.pid == q) =
      if q = pid then (ps.find? fun p => p.pid == q).map f else ps.find? fun p => p.pid == q := by
  induction ps with
  | nil => split <;> rfl
  | cons p ps ih =>
    unfold alter
    by_cases hp : p.pid = pid
    · rw [if_pos hp]
      by_cases hq : q = pid
      · simp [hq, hp, hf]
      · have hne : ¬pid = q := fun h => hq h.symm
        simp [hq, hp, hf, hne]
    · rw [if_neg hp]
      by_cases hpq : p.pid = q
      · have hq : ¬q = pid := fun h => hp (hpq.trans h)
        simp [hpq, hq]
      · simp only [List.find?_cons, beq_eq_false_iff_ne.mpr hpq, ih]

/-- What the change leaves alone in the process it hits, it leaves alone. -/
theorem map_alter {β : Type} (g : Process R → β) (ps : List (Process R))
    (h : ∀ p, ps.find? (fun p => p.pid == pid) = some p → g (f p) = g p) :
    (alter pid f ps).map g = ps.map g := by
  induction ps with
  | nil => rfl
  | cons p ps ih =>
    unfold alter
    by_cases hp : p.pid = pid
    · rw [if_pos hp, List.map_cons, List.map_cons, h p (by simp [hp])]
    · rw [if_neg hp, List.map_cons, List.map_cons, ih fun p' hp' => h p' (by simp [hp, hp'])]

end Alter

namespace Table

variable {t t' t'' : Table R} {pid q : ℕ}

variable {f : Process R → Process R} {p : Process R}

theorem get_modify (hf : ∀ p, (f p).pid = p.pid) :
    (t.modify pid f).get q = if q = pid then (t.get q).map f else t.get q := find_alter hf _

theorem get_setState {s : State} :
    (t.setState pid s).get q =
      if q = pid then (t.get q).map (fun p => { p with state := s }) else t.get q :=
  get_modify fun _ => rfl

theorem find_map (hf : ∀ p, (f p).pid = p.pid) (ps : List (Process R)) :
    (ps.map f).find? (fun p => p.pid == q) = (ps.find? fun p => p.pid == q).map f := by
  rw [List.find?_map]
  congr 1
  refine List.find?_congr fun p _ => ?_
  simp only [Function.comp_apply, hf]

theorem pid_of_get (h : t.get q = some p) : p.pid = q := by
  have := List.find?_some h
  simpa using this

theorem mem_of_get (h : t.get q = some p) : p ∈ t.procs :=
  List.mem_of_find?_eq_some h

/-! ### Calls that only schedule -/

/-- **The call only moves processes between ready, running and blocked**: none ends by it,
and it makes none wait for a child. -/
structure Stirs (t t' : Table R) : Prop where
  kin_eq : t'.procs.map Process.kin = t.procs.map Process.kin
  nextPid_eq : t'.nextPid = t.nextPid
  console_eq : t'.console = t.console
  zombie : ∀ {q p'}, t'.get q = some p' → p'.state.isZombie = true →
    ∃ p, t.get q = some p ∧ p.state.isZombie = true
  waiting : ∀ {q p'}, t'.get q = some p' → p'.state.isWaiting = true →
    ∃ p, t.get q = some p ∧ p.state = p'.state

namespace Stirs

theorem refl (t : Table R) : Stirs t t :=
  ⟨rfl, rfl, rfl, fun h hz => ⟨_, h, hz⟩, fun h _ => ⟨_, h, rfl⟩⟩

theorem trans (h : Stirs t t') (h' : Stirs t' t'') : Stirs t t'' where
  kin_eq := h'.kin_eq.trans h.kin_eq
  nextPid_eq := h'.nextPid_eq.trans h.nextPid_eq
  console_eq := h'.console_eq.trans h.console_eq
  zombie := fun hq hz => by
    obtain ⟨p', hp', hz'⟩ := h'.zombie hq hz
    exact h.zombie hp' hz'
  waiting := fun hq hw => by
    obtain ⟨p', hp', hs'⟩ := h'.waiting hq hw
    obtain ⟨p, hp, hs⟩ := h.waiting hp' (by rw [hs']; exact hw)
    exact ⟨p, hp, hs.trans hs'⟩

/-- A change that every process comes out of as who it is, ended only if it had and waiting only if
it did. -/
theorem of_get (hk : t'.procs.map Process.kin = t.procs.map Process.kin)
    (hn : t'.nextPid = t.nextPid) (hc : t'.console = t.console)
    (h : ∀ {q p'}, t'.get q = some p' → ∃ p, t.get q = some p ∧ (p'.state = p.state ∨
      (p'.state.isZombie = false ∧ p'.state.isWaiting = false))) : Stirs t t' where
  kin_eq := hk
  nextPid_eq := hn
  console_eq := hc
  zombie := fun hq hz => by
    obtain ⟨p, hp, hs | ⟨hs, -⟩⟩ := h hq
    · exact ⟨p, hp, hs ▸ hz⟩
    · rw [hs] at hz
      cases hz
  waiting := fun hq hw => by
    obtain ⟨p, hp, hs | ⟨-, hs⟩⟩ := h hq
    · exact ⟨p, hp, hs.symm⟩
    · rw [hs] at hw
      cases hw

/-- A change of the queue, the running process and the slice is none of the family's. -/
theorem of_procs (hp : t'.procs = t.procs) (hn : t'.nextPid = t.nextPid)
    (hc : t'.console = t.console) : Stirs t t' :=
  .of_get (by rw [hp]) hn hc fun h => by
    unfold get at h
    rw [hp] at h
    exact ⟨_, h, Or.inl rfl⟩

/-- A change of one process that leaves who it is alone, and its state unless it goes on. -/
theorem modify {f : Process R → Process R} (hk : ∀ p, (f p).kin = p.kin)
    (hs : ∀ p, (f p).state = p.state ∨
      ((f p).state.isZombie = false ∧ (f p).state.isWaiting = false)) :
        Stirs t (t.modify pid f) := by
  refine .of_get (map_alter _ _ fun p _ => hk p) rfl rfl fun {q p'} hq => ?_
  rw [get_modify fun p => congrArg Kin.pid (hk p)] at hq
  split at hq
  · obtain ⟨p, hp, rfl⟩ := Option.map_eq_some_iff.mp hq
    exact ⟨p, hp, hs p⟩
  · exact ⟨_, hq, Or.inl rfl⟩

/-- A process goes on, not waiting for a child. -/
theorem setState {s : State} (hs : s.isZombie = false) (hw : s.isWaiting = false) :
    Stirs t (t.setState pid s) :=
  modify (fun _ => rfl) fun _ => Or.inr ⟨hs, hw⟩

end Stirs

theorem enqueue_eq (h : t.enqueue pid = some t') : ∃ q, t.ready.push pid = some q ∧
    t' = { t with ready := q } := by
  obtain ⟨q, hq, rfl⟩ := Option.map_eq_some_iff.mp h
  exact ⟨q, hq, rfl⟩

theorem stirs_enqueue (h : t.enqueue pid = some t') : Stirs t t' := by
  obtain ⟨q, -, rfl⟩ := enqueue_eq h
  exact .of_procs rfl rfl rfl

theorem blocked_of_waiting {s : State} (h : s.isWaiting = true) : s.isBlocked = true := by
  cases s <;> first | rfl | cases h

theorem stirs_wake {r : Bool × Table R} (h : t.wake pid = some r) : Stirs t r.2 := by
  unfold wake at h
  split at h
  · split at h
    · obtain ⟨t1, h1, rfl⟩ := Option.map_eq_some_iff.mp h
      exact (Stirs.setState (s := .ready) rfl rfl).trans (stirs_enqueue h1)
    · cases h
      exact .refl t
  · cases h
    exact .refl t

theorem stirs_wakeEach (pids : List ℕ) : ∀ {t t' : Table R}, wakeEach pids t = some t' →
    Stirs t t' := by
  induction pids with
  | nil =>
    intro t t' h
    cases h
    exact .refl t
  | cons pid pids ih =>
    intro t t' h
    obtain ⟨r, hr, h'⟩ := Option.bind_eq_some_iff.mp h
    exact (stirs_wake hr).trans (ih h')

theorem stirs_wakeGathered {pids : List ℕ} (h : wakeGathered pids t = some t') : Stirs t t' := by
  unfold wakeGathered at h
  split at h
  · exact stirs_wakeEach pids h
  · cases h

theorem stirs_requeue (h : t.requeue = some t') : Stirs t t' := by
  unfold requeue at h
  split at h
  · split at h
    · exact (Stirs.setState (s := .ready) rfl rfl).trans (stirs_enqueue h)
    · cases h
      exact .refl t
  · cases h
    exact .refl t

theorem stirs_schedule {r : ℕ × Table R} (h : t.schedule = some r) : Stirs t r.2 := by
  obtain ⟨t1, h1, rfl⟩ := Option.map_eq_some_iff.mp h
  refine (stirs_requeue h1).trans ?_
  exact (Stirs.setState (s := .running) rfl rfl).trans (.of_procs rfl rfl rfl)

theorem stirs_tick (t : Table R) : Stirs t t.tick.2 := by
  have hmod : Stirs t (t.modify t.current fun p => { p with ticks := p.ticks + 1 }) :=
    .modify (fun _ => rfl) fun _ => Or.inl rfl
  unfold tick
  simp only
  split <;> exact hmod.trans (.of_procs rfl rfl rfl)

theorem stirs_noteKilled (hit : Process R → Bool) (reason : ℕ) :
    Stirs t { t with procs := t.procs.map (noteKilled hit reason) } := by
  refine .of_get ?_ rfl rfl fun {q p'} hq => ?_
  · rw [List.map_map]
    refine List.map_congr_left fun p _ => ?_
    simp only [Function.comp_apply, noteKilled]
    split <;> rfl
  · unfold get at hq
    rw [find_map fun p => by unfold noteKilled; split <;> rfl] at hq
    obtain ⟨p, hp, rfl⟩ := Option.map_eq_some_iff.mp hq
    refine ⟨p, hp, Or.inl ?_⟩
    unfold noteKilled
    split <;> rfl

theorem stirs_mark {hit : Process R → Bool} {reason : ℕ} (h : t.mark hit reason = some t') :
    Stirs t t' :=
  (stirs_noteKilled hit reason).trans (stirs_wakeGathered h)

theorem stirs_kill {target : ℤ} {reason : ℕ} {r : Except Vfs.Errno Unit × Table R}
    (h : t.kill target reason = some r) : Stirs t r.2 := by
  unfold kill at h
  split at h
  · cases h
    exact .refl t
  split at h
  · cases h
    exact .refl t
  · obtain ⟨t1, h1, rfl⟩ := Option.map_eq_some_iff.mp h
    exact stirs_mark h1

/-! ### Calls that change the family -/

theorem stirs_wakeWaiter (h : t.wakeWaiter pid = some t') : Stirs t t' := by
  unfold wakeWaiter at h
  split at h
  · obtain ⟨r, hr, rfl⟩ := Option.map_eq_some_iff.mp h
    exact stirs_wake hr
  · cases h
    exact .refl t

theorem get_enqueue (h : t.enqueue pid = some t') : t'.get q = t.get q := by
  obtain ⟨r, -, rfl⟩ := enqueue_eq h
  rfl

/-- **After `wakeWaiter` the process waits no more.** -/
theorem wakeWaiter_not_waiting (h : t.wakeWaiter pid = some t')
    (hp : t'.get pid = some p) : p.state.isWaiting = false := by
  unfold wakeWaiter at h
  split at h
  · rename_i hw
    obtain ⟨r, hr, rfl⟩ := Option.map_eq_some_iff.mp h
    obtain ⟨p0, hp0, hw0⟩ := (Option.any_eq_true _ _).mp hw
    simp only [wake, hp0, blocked_of_waiting hw0, if_true] at hr
    obtain ⟨t1, h1, rfl⟩ := Option.map_eq_some_iff.mp hr
    change t1.get pid = some p at hp
    rw [get_enqueue h1, get_setState, if_pos rfl, hp0] at hp
    cases hp
    rfl
  · rename_i hw
    cases h
    rw [hp] at hw
    simpa using hw

theorem dequeueIf_eq {b : Bool} (h : t.dequeueIf pid b = some t') :
    ∃ q, t' = { t with ready := q } := by
  unfold dequeueIf at h
  split at h
  · obtain ⟨q, -, rfl⟩ := Option.map_eq_some_iff.mp h
    exact ⟨q, rfl⟩
  · cases h
    exact ⟨t.ready, rfl⟩

theorem alter_eq_map {ps : List (Process R)} (h : (ps.map Process.pid).Nodup) :
    alter pid f ps = ps.map fun p => if p.pid = pid then f p else p := by
  induction ps with
  | nil => rfl
  | cons p ps ih =>
    rw [List.map_cons, List.nodup_cons] at h
    unfold alter
    by_cases hp : p.pid = pid
    · rw [if_pos hp, List.map_cons, if_pos hp]
      congr 1
      conv_lhs => rw [← List.map_id ps]
      refine List.map_congr_left fun p' hp' => ?_
      have hne : ¬p'.pid = pid := fun he => h.1 (List.mem_map.mpr ⟨p', hp', he.trans hp.symm⟩)
      rw [if_neg hne, id]
    · rw [if_neg hp, List.map_cons, if_neg hp, ih h.2]

/-! ### Pids -/

/-- **Pids in the table are distinct**, in ascending order, and below the one the next
process gets; there are at most `maxProcs` of them. -/
structure Pids (t : Table R) : Prop where
  sorted : (t.procs.map Process.pid).Pairwise (· < ·)
  pid_pos : ∀ p ∈ t.procs, 1 ≤ p.pid
  pid_lt : ∀ p ∈ t.procs, p.pid < 2 ^ 32 ∧ (t.nextPid ≠ 0 → p.pid < t.nextPid)
  next_lt : t.nextPid < 2 ^ 32
  size_le : t.procs.length ≤ maxProcs

theorem pids_new : Pids (Table.new : Table R) :=
  ⟨.nil, nofun, nofun, Nat.one_lt_two_pow (by decide), Nat.zero_le _⟩

theorem map_pid_eq (t : Table R) :
    t.procs.map Process.pid = (t.procs.map Process.kin).map Kin.pid := by
  rw [List.map_map]
  rfl

/-- The pids stay as they are if the family keeps its pids. -/
theorem Pids.of_map (h : Pids t) (hp : t'.procs.map Process.pid = t.procs.map Process.pid)
    (hn : t'.nextPid = t.nextPid) : Pids t' := by
  have hmem : ∀ p ∈ t'.procs, ∃ p0 ∈ t.procs, p0.pid = p.pid := fun p hm => by
    have : p.pid ∈ t.procs.map Process.pid := hp ▸ List.mem_map_of_mem hm
    exact List.mem_map.mp this
  refine ⟨hp ▸ h.sorted, fun p hm => ?_, fun p hm => ?_, hn ▸ h.next_lt, ?_⟩
  · obtain ⟨p0, hm0, he⟩ := hmem p hm
    exact he ▸ h.pid_pos p0 hm0
  · obtain ⟨p0, hm0, he⟩ := hmem p hm
    rw [hn, ← he]
    exact h.pid_lt p0 hm0
  · have hlen := congrArg List.length hp
    rw [List.length_map, List.length_map] at hlen
    exact hlen.symm ▸ h.size_le

theorem Stirs.map_pid_eq (h : Stirs t t') : t'.procs.map Process.pid = t.procs.map Process.pid := by
  rw [Table.map_pid_eq, Table.map_pid_eq, h.kin_eq]

theorem Pids.stirs (h : Pids t) (hs : Stirs t t') : Pids t' := h.of_map hs.map_pid_eq hs.nextPid_eq

theorem Pids.nodup (h : Pids t) : (t.procs.map Process.pid).Nodup :=
  h.sorted.imp fun hlt => ne_of_lt hlt

/-- In a table of distinct pids, `get` finds every process. -/
theorem Pids.get_eq (h : Pids t) (hp : p ∈ t.procs) : t.get p.pid = some p := by
  rcases hg : t.get p.pid with _ | p'
  · have := List.find?_eq_none.mp hg p hp
    simp at this
  · have hpid := pid_of_get hg
    have hinj := List.inj_on_of_nodup_map h.nodup (mem_of_get hg) hp hpid
    rw [hinj]

/-! ### Ending -/

/-- **What the end of `pid` does**: it has ended, its children are process 1's, its parent
waits for no child any more, and neither does process 1 if one of the children it got had
ended. -/
structure Ends (pid : ℕ) (t t' : Table R) : Prop where
  kin_eq : t'.procs.map Process.kin = t.procs.map fun p => p.kin.afterEnd pid
  nextPid_eq : t'.nextPid = t.nextPid
  console_eq : t'.console = t.console
  zombie : ∀ {q p'}, t'.get q = some p' → p'.state.isZombie = true →
    q = pid ∨ ∃ p, t.get q = some p ∧ p.state.isZombie = true
  waiting : ∀ {q p'}, t'.get q = some p' → p'.state.isWaiting = true →
    ∃ p, t.get q = some p ∧ p.state = p'.state
  parent : ∀ p, t.get pid = some p → ∀ p', t'.get p.ppid = some p' → p'.state.isWaiting = false
  heir : ∀ c ∈ t.procs, c.ppid = pid → (c.state.isZombie || decide (c.pid = pid)) = true →
    ∀ p', t'.get init = some p' → p'.state.isWaiting = false

theorem get_orphan : (t.orphan pid).get q =
    (t.get q).map fun c => if c.ppid = pid then { c with ppid := init } else c :=
  find_map (fun c => by split <;> rfl) _

theorem Stirs.not_waiting (h : Stirs t t') (hq : ∀ p, t.get q = some p → p.state.isWaiting = false)
    (p' : Process R) (hp' : t'.get q = some p') : p'.state.isWaiting = false := by
  by_contra hw
  obtain ⟨p, hp, hs⟩ := h.waiting hp' (Bool.eq_true_of_not_eq_false hw)
  exact hw (hs ▸ hq p hp)

theorem kin_afterEnd (hd : (t.procs.map Process.pid).Nodup) (status : WaitStatus) :
    ((t.setState pid (.zombie status)).orphan pid).procs.map Process.kin =
      t.procs.map fun p => p.kin.afterEnd pid := by
  change ((alter pid _ t.procs).map _).map _ = _
  rw [alter_eq_map hd, List.map_map, List.map_map]
  refine List.map_congr_left fun p _ => ?_
  simp only [Function.comp_apply, Process.kin, Kin.afterEnd]
  by_cases hp : p.pid = pid <;> by_cases hpp : p.ppid = pid <;> simp [hp, hpp]

theorem endProc_ends (ht : Pids t) {status : WaitStatus} (hp : t.get pid = some p)
    (h : t.endProc pid status = some t') : Ends pid t t' := by
  simp only [endProc, hp, Option.bind_eq_bind] at h
  obtain ⟨t1, h1, h⟩ := Option.bind_eq_some_iff.mp h
  obtain ⟨t2, h2, h⟩ := Option.bind_eq_some_iff.mp h
  obtain ⟨ring, rfl⟩ := dequeueIf_eq h1
  have hs2 := stirs_wakeWaiter h2
  have hs3 : Stirs t2 t' := by
    split at h
    · exact stirs_wakeWaiter h
    · cases h
      exact .refl _
  have hs := hs2.trans hs3
  -- the table whose children have passed to process 1, before anyone is woken
  have hmid : ∀ {q p1}, ((({ t.setState pid (.zombie status) with ready := ring } :
      Table R)).orphan pid).get q = some p1 → (q = pid ∧ p1.state = .zombie status) ∨
      ∃ c, t.get q = some c ∧ c.state = p1.state := fun {q p1} hp1 => by
    rw [get_orphan] at hp1
    obtain ⟨c, hc, rfl⟩ := Option.map_eq_some_iff.mp hp1
    change (t.setState pid (.zombie status)).get q = some c at hc
    rw [get_setState] at hc
    split at hc
    · rename_i hq
      obtain ⟨c0, -, rfl⟩ := Option.map_eq_some_iff.mp hc
      refine Or.inl ⟨hq, ?_⟩
      split <;> rfl
    · refine Or.inr ⟨c, hc, ?_⟩
      split <;> rfl
  refine ⟨hs.kin_eq.trans (kin_afterEnd ht.nodup status), hs.nextPid_eq, hs.console_eq,
    ?_, ?_, ?_, ?_⟩
  · intro q p' hq hz
    obtain ⟨p1, hp1, hz1⟩ := hs.zombie hq hz
    rcases hmid hp1 with ⟨hq, -⟩ | ⟨c, hc, hst⟩
    · exact Or.inl hq
    · exact Or.inr ⟨c, hc, hst.symm ▸ hz1⟩
  · intro q p' hq hw
    obtain ⟨p1, hp1, hst⟩ := hs.waiting hq hw
    rcases hmid hp1 with ⟨-, hz⟩ | ⟨c, hc, hst'⟩
    · rw [← hst, hz] at hw
      cases hw
    · exact ⟨c, hc, hst'.trans hst⟩
  · intro p0 hp0 p' hp'
    rw [hp] at hp0
    cases hp0
    exact hs3.not_waiting (fun _ => wakeWaiter_not_waiting h2) p' hp'
  · intro c hc hppid hover p' hp'
    -- the child shows in the table as it is when its parent has ended
    have hany : ((t.setState pid (.zombie status)).procs.any fun c =>
        decide (c.ppid = pid) && c.state.isZombie) = true := by
      change ((alter pid _ t.procs).any _) = true
      rw [alter_eq_map ht.nodup, List.any_map, List.any_eq_true]
      refine ⟨c, hc, ?_⟩
      simp only [Function.comp_apply]
      by_cases hcp : c.pid = pid
      · simp [hcp, hppid, State.isZombie]
      · simpa [hcp, hppid] using hover
    rw [if_pos hany] at h
    exact wakeWaiter_not_waiting h hp'

theorem Ends.map_pid_eq (h : Ends pid t t') :
    t'.procs.map Process.pid = t.procs.map Process.pid := by
  rw [Table.map_pid_eq, h.kin_eq, List.map_map]
  rfl

/-! ### Starting and collecting -/

/-- **What `insert` does**: nothing, or a new ready process with the next pid. -/
theorem insert_cases {ppid : ℕ} {group : Group} {name : String} {res : R}
    {r : Except Vfs.Errno ℕ × Table R} (h : t.insert ppid group name res = some r) :
    ((∃ e, r.1 = .error e) ∧ r.2 = t) ∨
      (r.1 = .ok t.nextPid ∧ t.procs.length < maxProcs ∧ t.nextPid ≠ 0 ∧
        t.groupAllowed ppid group = true ∧ ∃ ring, t.ready.push t.nextPid = some ring ∧
        r.2 = { t with
          procs := t.procs ++ [⟨t.nextPid, ppid, t.groupOf t.nextPid ppid group, name, .ready,
            none, 0, res⟩]
          nextPid := pidAfter t.nextPid
          ready := ring }) := by
  unfold insert at h
  split at h
  · cases h
    exact Or.inl ⟨⟨_, rfl⟩, rfl⟩
  rename_i hroom
  split at h
  · cases h
    exact Or.inl ⟨⟨_, rfl⟩, rfl⟩
  rename_i hgroup
  obtain ⟨t1, h1, rfl⟩ := Option.map_eq_some_iff.mp h
  obtain ⟨ring, hring, rfl⟩ := enqueue_eq h1
  simp only [hasRoom, Bool.not_eq_false, Bool.and_eq_true, decide_eq_true_eq, bne_iff_ne] at hroom
  exact Or.inr ⟨rfl, hroom.1, hroom.2, Bool.eq_true_of_not_eq_false hgroup, ring, hring, rfl⟩

theorem pidAfter_cases (n : ℕ) : pidAfter n = 0 ∨ pidAfter n = n + 1 := by
  unfold pidAfter
  split
  · exact Or.inr rfl
  · exact Or.inl rfl

theorem pidAfter_lt (n : ℕ) : pidAfter n < 2 ^ 32 := by
  unfold pidAfter
  split <;> omega

/-- The table with a process added that has the next pid. -/
theorem Pids.append (h : Pids t) (hlen : t.procs.length < maxProcs)
    (hne : t.nextPid ≠ 0)  (hp : p.pid = t.nextPid) (hprocs : t'.procs = t.procs ++ [p])
    (hnext : t'.nextPid = pidAfter t.nextPid) : Pids t' := by
  have hcases := pidAfter_cases t.nextPid
  refine ⟨?_, ?_, ?_, hnext ▸ pidAfter_lt _, ?_⟩
  · rw [hprocs, List.map_append, List.pairwise_append]
    refine ⟨h.sorted, List.pairwise_singleton _ _, fun a ha b hb => ?_⟩
    obtain ⟨p0, hp0, rfl⟩ := List.mem_map.mp ha
    rw [List.map_singleton, List.mem_singleton] at hb
    rw [hb, hp]
    exact (h.pid_lt p0 hp0).2 hne
  · intro q hq
    rw [hprocs, List.mem_append, List.mem_singleton] at hq
    rcases hq with hq | rfl
    · exact h.pid_pos q hq
    · omega
  · intro q hq
    rw [hprocs, List.mem_append, List.mem_singleton] at hq
    have hnextlt := h.next_lt
    rcases hq with hq | rfl
    · obtain ⟨h1, h2⟩ := h.pid_lt q hq
      have := h2 hne
      exact ⟨h1, fun _ => by omega⟩
    · exact ⟨by omega, fun _ => by omega⟩
  · rw [hprocs, List.length_append, List.length_singleton]
    omega

/-- **What `reap` does**: nothing, or a zombie child that is waited for leaves the table.
It answers that none has ended only if that is so. -/
theorem reap_cases (t : Table R) (parent : ℕ) (want : Want) :
    ((t.reap parent want).2 = t ∧ ((∃ e, (t.reap parent want).1 = .error e) ∨
      ((t.reap parent want).1 = .ok none ∧
        ∀ p ∈ t.procs, p.ppid = parent → want.covers p.pid = true → p.state.isZombie = false))) ∨
    ∃ p l1 l2, (t.reap parent want).1 = .ok (some p) ∧ t.procs = l1 ++ p :: l2 ∧
      p.state.isZombie = true ∧ (t.reap parent want).2 = { t with procs := l1 ++ l2 } := by
  unfold reap
  simp only
  split
  · split
    · rename_i p hp
      obtain ⟨p', l1, l2, hnot, hp', hl, he⟩ := List.exists_of_eraseP (List.mem_of_find?_eq_some hp)
        (List.find?_some hp)
      have hfirst : t.procs.find? (fun p => isWanted parent want p &&
          p.state.isZombie) = some p' := by
        rw [hl, List.find?_append, List.find?_eq_none.mpr (by simpa using hnot), Option.none_or]
        exact List.find?_cons_of_pos hp'
      obtain rfl : p' = p := Option.some.inj (hfirst.symm.trans hp)
      rw [Bool.and_eq_true] at hp'
      exact Or.inr ⟨p', l1, l2, rfl, hl, hp'.2, by rw [he]⟩
    · rename_i hnone
      refine Or.inl ⟨rfl, Or.inr ⟨rfl, fun p hp hppid hcov => ?_⟩⟩
      have := List.find?_eq_none.mp hnone p hp
      simpa [isWanted, hppid, hcov] using this
  · exact Or.inl ⟨rfl, Or.inl ⟨_, rfl⟩⟩

/-- Fewer processes. -/
theorem Pids.of_sublist (h : Pids t) (hsub : t'.procs.Sublist t.procs)
    (hn : t'.nextPid = t.nextPid) :
    Pids t' :=
  ⟨h.sorted.sublist (hsub.map _), fun q hq => h.pid_pos q (hsub.subset hq),
    fun q hq => hn ▸ h.pid_lt q (hsub.subset hq), hn ▸ h.next_lt, hsub.length_le.trans h.size_le⟩

theorem Pids.reap (h : Pids t) (parent : ℕ) (want : Want) : Pids (t.reap parent want).2 := by
  rcases reap_cases t parent want with ⟨he, -⟩ | ⟨p, l1, l2, -, hl, -, he⟩
  · rw [he]
    exact h
  · have hsub : (l1 ++ l2).Sublist t.procs := by
      rw [hl]
      exact (List.sublist_cons_self p l2).append_left l1
    rw [he]
    exact h.of_sublist hsub rfl

/-! ### Any call -/

/-- **What a call can do**, its answer included as far as it matters to who exists. -/
inductive Change (t : Table R) : Op R → Reply R → Table R → Prop
  | stirs {op : Op R} {r : Reply R} {t' : Table R} (h : Stirs t t')
      (hr : ∀ ppid group name res n, op = .insert ppid group name res → r ≠ .pid n)
      (hb : ∀ why, op ≠ .block why) : Change t op r t'
  | block (why : Blocked) : Change t (.block why) .unit (t.block why)
  | born {ppid : ℕ} {group : Group} {name : String} {res : R} {ring : Ring ℕ maxProcs}
      (hlen : t.procs.length < maxProcs) (hne : t.nextPid ≠ 0)
      (hgroup : t.groupAllowed ppid group = true) :
      Change t (.insert ppid group name res) (.pid t.nextPid) { t with
        procs := t.procs ++ [⟨t.nextPid, ppid, t.groupOf t.nextPid ppid group, name, .ready,
          none, 0, res⟩]
        nextPid := pidAfter t.nextPid
        ready := ring }
  | ends {pid : ℕ} {status : WaitStatus} {t' : Table R} (h : Ends pid t t') :
      Change t (.endProc pid status) .unit t'
  | gone {parent : ℕ} {want : Want} {p : Process R} {l₁ l₂ : List (Process R)}
      (hl : t.procs = l₁ ++ p :: l₂) (hz : p.state.isZombie = true) :
      Change t (.reap parent want) (.reaped (some p)) { t with procs := l₁ ++ l₂ }
  | gave (pid dst : ℕ) : Change t (.giveConsole pid dst)
      (.ofExcept (fun _ => .unit) (t.giveConsole pid dst).1) (t.giveConsole pid dst).2
  | took : Change t .takeConsole .unit t.takeConsole

/-- What holds of a call's result holds of what the call answers. -/
theorem of_call {α : Type*} {P : Reply R → Table R → Prop} {o : Option α}
    {f : α → Reply R × Table R} {r : Reply R}
    (h : o.map f = some (r, t')) (hP : ∀ {a}, o = some a → P (f a).1 (f a).2) : P r t' := by
  obtain ⟨a, ha, he⟩ := Option.map_eq_some_iff.mp h
  have hfa := hP ha
  rwa [he] at hfa

/-- **Every call does one of these.** -/
theorem change_of_step (ht : Pids t) {op : Op R} {r : Reply R} (h : t.step op = some (r, t')) :
    Change t op r t' := by
  cases op with
  | insert ppid group name res =>
    refine of_call h fun ha => ?_
    rcases insert_cases ha with ⟨⟨e, he⟩, hsame⟩ | ⟨hok, hlen, hne, hgroup, ring, -, hnew⟩
    · rw [he, hsame]
      exact .stirs (.refl t) (fun _ _ _ _ _ _ => nofun) nofun
    · rw [hok, hnew]
      exact .born hlen hne hgroup
  | schedule => exact of_call h fun ha => .stirs (stirs_schedule ha) nofun nofun
  | block why =>
    cases h
    exact .block why
  | wake pid => exact of_call h fun ha => .stirs (stirs_wake ha) nofun nofun
  | wakeAll why => exact of_call h fun ha => .stirs (stirs_wakeEach _ ha) nofun nofun
  | wakeWaiting pgid => exact of_call h fun ha => .stirs (stirs_wakeEach _ ha) nofun nofun
  | wakeSleepers now => exact of_call h fun ha => .stirs (stirs_wakeGathered ha) nofun nofun
  | tick =>
    cases h
    exact .stirs (stirs_tick t) nofun nofun
  | endProc pid status =>
    refine of_call h fun ha => ?_
    rcases hp : t.get pid with _ | p
    · simp only [endProc, hp] at ha
      cases ha
      exact .stirs (.refl t) nofun nofun
    · exact .ends (endProc_ends ht hp ha)
  | reap parent want =>
    cases h
    rcases reap_cases t parent want with ⟨he, -⟩ | ⟨p, l1, l2, hr, hl, hz, he⟩
    · rw [he]
      exact .stirs (.refl t) nofun nofun
    · rw [he, hr]
      exact .gone hl hz
  | kill target reason => exact of_call h fun ha => .stirs (stirs_kill ha) nofun nofun
  | killAllButInit reason => exact of_call h fun ha => .stirs (stirs_mark ha) nofun nofun
  | giveConsole pid dst =>
    cases h
    exact .gave pid dst
  | takeConsole =>
    cases h
    exact .took

theorem Pids.change (h : Pids t) {op : Op R} {r : Reply R} (hc : Change t op r t') : Pids t' := by
  cases hc with
  | stirs hs => exact h.stirs hs
  | block why => exact h.of_map (map_alter _ _ fun _ _ => rfl) rfl
  | born hlen hne => exact h.append hlen hne rfl rfl rfl
  | ends he => exact h.of_map he.map_pid_eq he.nextPid_eq
  | @gone _ _ p l1 l2 hl =>
    refine h.of_sublist ?_ rfl
    rw [hl]
    exact (List.sublist_cons_self p l2).append_left l1
  | gave pid dst =>
    refine h.of_map ?_ ?_ <;> unfold giveConsole <;> split <;> rfl
  | took => exact h.of_map rfl rfl

end Table

end RelayOs.Kernel
