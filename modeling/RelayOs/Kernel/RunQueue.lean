import RelayOs.Kernel.Kin

/-!
# The run queue holds exactly the ready processes

States and queue are changed separately by every call, and this module shows that they
stay in step: the queue holds each ready process once and nothing else, so it never holds
more than there are processes, and the assertion that it has room is never reached
(`RelayOs.Kernel.Table.step_inv`).
-/

namespace RelayOs.Kernel.Table

variable {R : Type} {t t' : Table R} {pid q : ℕ}

/-- **States and queue are in step**: the queue holds each ready process once, and only the
current process runs. -/
structure InStep (t : Table R) : Prop where
  nodup : t.ready.toList.Nodup
  mem_iff : ∀ q, q ∈ t.ready.toList ↔ ∃ p, t.get q = some p ∧ p.state = .ready
  running : ∀ {q p}, t.get q = some p → p.state = .running → q = t.current

/-- The invariant of the table. -/
structure Inv (t : Table R) : Prop extends Pids t, InStep t

theorem inv_new : Inv (Table.new : Table R) where
  toPids := pids_new
  nodup := List.nodup_nil
  mem_iff := fun q => ⟨nofun, fun ⟨_, h, _⟩ => by cases h⟩
  running := fun h _ => by cases h

variable {p : Process R}

theorem get_mem_map (h : t.get q = some p) : q ∈ t.procs.map Process.pid :=
  List.mem_map.mpr ⟨p, mem_of_get h, pid_of_get h⟩

theorem Inv.notMem (h : Inv t) (hp : t.get pid = some p) (hs : p.state ≠ .ready) :
    pid ∉ t.ready.toList := by
  intro hm
  obtain ⟨p', hp', hs'⟩ := (h.mem_iff pid).mp hm
  rw [hp] at hp'
  cases hp'
  exact hs hs'

theorem Inv.len_lt (h : Inv t) (hp : t.get pid = some p) (hs : p.state ≠ .ready) :
    t.ready.len < maxProcs := by
  have hsub : (pid :: t.ready.toList) ⊆ t.procs.map Process.pid := fun q hq => by
    rcases List.mem_cons.mp hq with rfl | hq
    · exact get_mem_map hp
    · obtain ⟨p', hp', -⟩ := (h.mem_iff q).mp hq
      exact get_mem_map hp'
  have hle := (List.nodup_cons.mpr ⟨h.notMem hp hs, h.nodup⟩).length_le_of_subset hsub
  rw [List.length_cons, Ring.length_toList, List.length_map] at hle
  exact lt_of_lt_of_le hle h.size_le

theorem Inv.len_le_length (h : Inv t) : t.ready.len ≤ t.procs.length := by
  have hsub : t.ready.toList ⊆ t.procs.map Process.pid := fun q hq => by
    obtain ⟨p', hp', -⟩ := (h.mem_iff q).mp hq
    exact get_mem_map hp'
  have hle := h.nodup.length_le_of_subset hsub
  rwa [Ring.length_toList, List.length_map] at hle

theorem Inv.len_le (h : Inv t) : t.ready.len ≤ maxProcs := h.len_le_length.trans h.size_le

/-! ### Moving one process -/

/-- **One process changes its state**, and queue and current process with it. -/
theorem Inv.setState (h : Inv t) (pid : ℕ) (s : State)
    (hprocs : t'.procs = (t.setState pid s).procs)
    (hnext : t'.nextPid = t.nextPid) (hnodup : t'.ready.toList.Nodup)
    (hothers : ∀ q, q ≠ pid → (q ∈ t'.ready.toList ↔ q ∈ t.ready.toList))
    (hpid : pid ∈ t'.ready.toList ↔ s = .ready ∧ ∃ p, t.get pid = some p)
    (hrunning : ∀ {q p}, q ≠ pid → t.get q = some p → p.state = .running → q = t'.current)
    (hs : ∀ p, t.get pid = some p → s = .running → pid = t'.current) : Inv t' := by
  have hget : ∀ q, t'.get q = if q = pid then (t.get q).map (fun p => { p with state := s })
      else t.get q := by
    intro q
    rw [get, hprocs]
    exact get_setState
  have hkin : t'.procs.map Process.pid = t.procs.map Process.pid := by
    rw [hprocs]
    exact map_alter _ _ fun _ _ => rfl
  refine ⟨h.toPids.of_map hkin hnext, hnodup, fun q => ?_, fun {q p'} hq hrun => ?_⟩
  · rw [hget]
    split
    · next hq =>
      rw [hq, hpid]
      cases t.get pid <;> simp
    · next hq => rw [hothers q hq, h.mem_iff]
  · rw [hget] at hq
    split at hq
    · next hqp =>
      obtain ⟨p0, hp0, rfl⟩ := Option.map_eq_some_iff.mp hq
      exact hqp.trans (hs p0 (hqp ▸ hp0) hrun)
    · next hqp => exact hrunning hqp hq hrun

/-- **A process that was not ready becomes so and joins the queue.** -/
theorem Inv.makeReady (h : Inv t) (hp : t.get pid = some p) (hs : p.state ≠ .ready) :
    ∃ t', (t.setState pid .ready).enqueue pid = some t' ∧ Inv t' ∧ t'.current = t.current := by
  obtain ⟨ring, hring, hlist⟩ := Ring.push_of_lt (h.len_lt hp hs) pid
  refine ⟨{ t.setState pid .ready with ready := ring }, ?_,
    h.setState pid .ready rfl rfl ?_ (fun q hq => ?_) ?_ (fun _ => h.running) fun _ _ => nofun, rfl⟩
  · change (t.ready.push pid).map _ = _
    rw [hring]
    rfl
  · change ring.toList.Nodup
    rw [hlist]
    exact h.nodup.append (List.nodup_singleton pid) (List.disjoint_singleton.mpr (h.notMem hp hs))
  · simp [hlist, hq]
  · simp [hlist, hp]

theorem Inv.wake (h : Inv t) (pid : ℕ) :
    ∃ r, t.wake pid = some r ∧ Inv r.2 ∧ r.2.current = t.current := by
  unfold Table.wake
  rcases hp : t.get pid with _ | p
  · exact ⟨_, rfl, h, rfl⟩
  · simp only
    split
    · rename_i hb
      obtain ⟨t', h', hinv, hcur⟩ := h.makeReady hp (by rintro he; rw [he] at hb; cases hb)
      exact ⟨(true, t'), by rw [h']; rfl, hinv, hcur⟩
    · exact ⟨_, rfl, h, rfl⟩

theorem Inv.wakeEach (pids : List ℕ) : ∀ {t : Table R}, Inv t →
    ∃ t', Table.wakeEach pids t = some t' ∧ Inv t' ∧ t'.current = t.current := by
  induction pids with
  | nil => exact fun h => ⟨_, rfl, h, rfl⟩
  | cons pid pids ih =>
    intro t h
    obtain ⟨r, hr, hinv, hcur⟩ := h.wake pid
    obtain ⟨t', h', hinv', hcur'⟩ := ih hinv
    refine ⟨t', ?_, hinv', hcur'.trans hcur⟩
    unfold Table.wakeEach
    rw [hr]
    exact h'

/-- The processes gathered to be woken fit in an array of `maxProcs`. -/
theorem Inv.wakeGathered (h : Inv t) (c : Process R → Bool) {t1 : Table R} (h1 : Inv t1) :
    ∃ t', Table.wakeGathered (t.pidsOf c) t1 = some t' ∧ Inv t' := by
  have hlen : (t.pidsOf c).length ≤ maxProcs := by
    rw [pidsOf, List.length_map]
    exact (List.length_filter_le _ _).trans h.size_le
  obtain ⟨t', h', hinv, -⟩ := Inv.wakeEach (t.pidsOf c) h1
  exact ⟨t', by rw [Table.wakeGathered, if_pos hlen, h'], hinv⟩

theorem Inv.wakeWaiter (h : Inv t) (pid : ℕ) : ∃ t', t.wakeWaiter pid = some t' ∧ Inv t' := by
  unfold Table.wakeWaiter
  split
  · obtain ⟨r, hr, hinv, -⟩ := h.wake pid
    exact ⟨r.2, by rw [hr]; rfl, hinv⟩
  · exact ⟨t, rfl, h⟩

/-! ### Scheduling -/

theorem Inv.requeue (h : Inv t) : ∃ t', t.requeue = some t' ∧ Inv t' ∧
    ∀ {q p}, t'.get q = some p → p.state ≠ .running := by
  unfold Table.requeue
  rcases hp : t.get t.current with _ | p
  · refine ⟨t, rfl, h, fun hq hrun => ?_⟩
    rw [h.running hq hrun, hp] at hq
    cases hq
  · simp only
    split
    · rename_i hs
      obtain ⟨t', h', hinv, hcur⟩ := h.makeReady hp (by rw [hs]; nofun)
      refine ⟨t', h', hinv, fun {q p'} hq hrun => ?_⟩
      have hqc := hinv.running hq hrun
      rw [get_enqueue h', get_setState, hqc, hcur, if_pos rfl, hp] at hq
      cases hq
      cases hrun
    · rename_i hs
      refine ⟨t, rfl, h, fun hq hrun => ?_⟩
      rw [h.running hq hrun, hp] at hq
      cases hq
      exact hs hrun

/-- **The first ready process runs**, if none did. -/
theorem Inv.runNext (h : Inv t) (hnone : ∀ {q p}, t.get q = some p → p.state ≠ .running) :
    Inv t.runNext.2 := by
  unfold Table.runNext
  rcases hpop : t.ready.pop with _ | ⟨next, ring⟩
  · -- nothing is ready, and there is no process 0
    have hzero : t.get 0 = none := by
      rcases hg : t.get 0 with _ | p
      · rfl
      · have := h.pid_pos p (mem_of_get hg)
        rw [pid_of_get hg] at this
        omega
    refine h.setState 0 .running rfl rfl h.nodup (fun _ _ => Iff.rfl) ?_
      (fun _ hq hrun => absurd hrun (hnone hq)) fun _ _ _ => rfl
    exact (h.mem_iff 0).trans (by simp [hzero])
  · have hlist := Ring.toList_of_pop hpop
    have hnodup := h.nodup
    rw [hlist, List.nodup_cons] at hnodup
    refine h.setState next .running rfl rfl hnodup.2 (fun q hq => ?_) ?_
      (fun _ hq hrun => absurd hrun (hnone hq)) fun _ _ _ => rfl
    · simp [hlist, hq]
    · simpa using hnodup.1

theorem Inv.schedule (h : Inv t) : ∃ r, t.schedule = some r ∧ Inv r.2 := by
  obtain ⟨t', h', hinv, hnone⟩ := h.requeue
  exact ⟨t'.runNext, by rw [Table.schedule, h']; rfl, hinv.runNext hnone⟩

/-- **The running process blocks.** -/
theorem Inv.block (h : Inv t) (why : Blocked)
    (hrun : ∀ p, t.get t.current = some p → p.state = .running) : Inv (t.block why) := by
  refine h.setState t.current (.blocked why) rfl rfl h.nodup (fun _ _ => Iff.rfl) ?_
    (fun _ => h.running)
    fun _ _ => nofun
  refine iff_of_false (fun hm => ?_) nofun
  obtain ⟨p, hp, hs⟩ := (h.mem_iff _).mp hm
  rw [hrun p hp] at hs
  cases hs

/-- **Nobody's state changes.** -/
theorem Inv.of_states (h : Inv t) (hpids : t'.procs.map Process.pid = t.procs.map Process.pid)
    (hnext : t'.nextPid = t.nextPid) (hready : t'.ready = t.ready)
    (hcurrent : t'.current = t.current)
    (hstate : ∀ q, (t'.get q).map Process.state = (t.get q).map Process.state) : Inv t' := by
  have hex : ∀ {q s}, (∃ p, t'.get q = some p ∧ p.state = s) ↔ ∃ p, t.get q = some p ∧
      p.state = s := by
    intro q s
    rw [← Option.map_eq_some_iff, hstate, Option.map_eq_some_iff]
  refine ⟨h.toPids.of_map hpids hnext, hready ▸ h.nodup, fun q => ?_, fun {q p} hq hrun => ?_⟩
  · rw [hready, h.mem_iff, hex]
  · obtain ⟨p0, hp0, hrun0⟩ := hex.mp ⟨p, hq, hrun⟩
    rw [hcurrent, h.running hp0 hrun0]

/-- A change of one process that leaves its pid and state alone. -/
theorem Inv.modify (h : Inv t) {f : Process R → Process R} (hpid : ∀ p, (f p).pid = p.pid)
    (hs : ∀ p, (f p).state = p.state) : Inv (t.modify pid f) := by
  refine h.of_states (map_alter _ _ fun p _ => hpid p) rfl rfl rfl fun q => ?_
  rw [get_modify hpid]
  split
  · simp [Function.comp_def, hs]
  · rfl

theorem Inv.tick (h : Inv t) : Inv t.tick.2 := by
  have hmod : Inv (t.modify t.current fun p => { p with ticks := p.ticks + 1 }) :=
    h.modify (fun _ => rfl) fun _ => rfl
  unfold Table.tick
  simp only
  split <;> exact hmod.of_states rfl rfl rfl rfl fun _ => rfl

/-! ### Killing and ending -/

/-- A change that leaves pids and states alone. -/
theorem Inv.of_map (h : Inv t) {f : Process R → Process R} (hpid : ∀ p, (f p).pid = p.pid)
    (hs : ∀ p, (f p).state = p.state) : Inv { t with procs := t.procs.map f } := by
  refine h.of_states ?_ rfl rfl rfl fun q => ?_
  · rw [List.map_map]
    exact List.map_congr_left fun p _ => hpid p
  · rw [get, find_map hpid, Option.map_map]
    simp [get, Function.comp_def, hs]

theorem Inv.mark (h : Inv t) (hit : Process R → Bool) (reason : ℕ) :
    ∃ t', t.mark hit reason = some t' ∧ Inv t' :=
  h.wakeGathered _ (h.of_map (fun p => by unfold noteKilled; split <;> rfl)
    fun p => by unfold noteKilled; split <;> rfl)

theorem Inv.kill (h : Inv t) (target : ℤ) (reason : ℕ) :
    ∃ r, t.kill target reason = some r ∧ Inv r.2 := by
  unfold Table.kill
  split
  · exact ⟨_, rfl, h⟩
  split
  · exact ⟨_, rfl, h⟩
  · obtain ⟨t', h', hinv⟩ := h.mark (isHit target) reason
    exact ⟨(.ok (), t'), by rw [h']; rfl, hinv⟩

/-- **A process that ends leaves the queue** if it was in it. -/
theorem Inv.zombify (h : Inv t) (hp : t.get pid = some p) (status : WaitStatus) :
    ∃ t', (t.setState pid (.zombie status)).dequeueIf pid (decide (p.state = .ready)) = some t' ∧
      Inv t' := by
  unfold dequeueIf
  by_cases hs : p.state = .ready
  · obtain ⟨ring, hring, hlist⟩ := Ring.remove_spec h.len_le 0 pid
    refine ⟨{ t.setState pid (.zombie status) with ready := ring }, ?_,
      h.setState pid (.zombie status) rfl rfl ?_ (fun q hq => ?_) ?_ (fun _ => h.running) (by simp)⟩
    · rw [if_pos (decide_eq_true hs)]
      change (t.ready.remove 0 pid).map _ = _
      rw [hring]
      rfl
    · change ring.toList.Nodup
      rw [hlist]
      exact h.nodup.filter _
    · simp [hlist, hq]
    · simp [hlist]
  · refine ⟨_, if_neg (by simpa using hs), h.setState pid (.zombie status) rfl rfl h.nodup
      (fun _ _ => Iff.rfl) ?_ (fun _ => h.running) (by simp)⟩
    exact iff_of_false (h.notMem hp hs) (by simp)

theorem Inv.endProc (h : Inv t) (pid : ℕ) (status : WaitStatus) :
    ∃ t', t.endProc pid status = some t' ∧ Inv t' := by
  unfold Table.endProc
  rcases hp : t.get pid with _ | p
  · exact ⟨t, rfl, h⟩
  obtain ⟨t1, h1, hinv1⟩ := h.zombify hp status
  have horphan : Inv (t1.orphan pid) :=
    hinv1.of_map (fun c => by split <;> rfl) fun c => by split <;> rfl
  obtain ⟨t2, h2, hinv2⟩ := horphan.wakeWaiter p.ppid
  simp only [h1, Option.bind_eq_bind, Option.bind_some, h2]
  split
  · exact hinv2.wakeWaiter init
  · exact ⟨t2, rfl, hinv2⟩

/-! ### Collecting and starting -/

/-- Taking a process out of a table of distinct pids. -/
theorem find_remove {l1 l2 : List (Process R)} (hd : ((l1 ++ p :: l2).map Process.pid).Nodup) :
    (l1 ++ l2).find? (fun x => x.pid == q) =
      if q = p.pid then none else (l1 ++ p :: l2).find? fun x => x.pid == q := by
  split
  · rename_i hq
    rw [hq, List.find?_eq_none]
    intro x hx heq
    rw [List.map_append, List.map_cons, List.nodup_middle, List.nodup_cons, ← List.map_append] at hd
    exact hd.1 (List.mem_map.mpr ⟨x, hx, by simpa using heq⟩)
  · rename_i hq
    have hne : (p.pid == q) = false := by simpa using fun he => hq he.symm
    rw [List.find?_append, List.find?_append, List.find?_cons, hne]

theorem Inv.reap (h : Inv t) (parent : ℕ) (want : Want) : Inv (t.reap parent want).2 := by
  rcases reap_cases t parent want with ⟨he, -⟩ | ⟨p, l1, l2, -, hl, hz, he⟩
  · rw [he]
    exact h
  have hpids := h.toPids.reap parent want
  rw [he] at hpids ⊢
  have hget : ∀ q, ({ t with procs := l1 ++ l2 } : Table R).get q =
      if q = p.pid then none else t.get q := fun q => by
    have hd := h.toPids.nodup
    rw [hl] at hd
    unfold Table.get
    rw [hl]
    exact find_remove hd
  refine ⟨hpids, h.nodup, fun q => ?_, fun {q p'} hq hrun => ?_⟩
  · refine (h.mem_iff q).trans ?_
    rw [hget]
    split
    · rename_i hq
      refine ⟨fun ⟨p', hp', hs⟩ => ?_, fun ⟨_, hp', _⟩ => by cases hp'⟩
      have hpp := h.toPids.get_eq (p := p) (by rw [hl]; simp)
      rw [hq, hpp] at hp'
      cases hp'
      rw [hs] at hz
      cases hz
    · rfl
  · rw [hget] at hq
    split at hq
    · cases hq
    · exact h.running hq hrun

/-- The next pid is no one's yet. -/
theorem Pids.get_next (h : Pids t) (hne : t.nextPid ≠ 0) : t.get t.nextPid = none := by
  rcases hg : t.get t.nextPid with _ | p
  · rfl
  · have := (h.pid_lt p (mem_of_get hg)).2 hne
    rw [pid_of_get hg] at this
    omega

/-- The table with a process added. -/
theorem get_append (hprocs : t'.procs = t.procs ++ [p])
    (hnone : t.get p.pid = none) : t'.get q = if q = p.pid then some p else t.get q := by
  unfold get at hnone ⊢
  rw [hprocs, List.find?_append]
  split
  · rename_i hq
    rw [hq, hnone, Option.none_or, List.find?_singleton, if_pos (by simp)]
  · rename_i hq
    rw [List.find?_singleton, if_neg (by simpa using fun he => hq he.symm), Option.or_none]

/-- **A new process is ready and queued.** -/
theorem Inv.append (h : Inv t) (hlen : t.procs.length < maxProcs)
    (hne : t.nextPid ≠ 0)  (hp : p.pid = t.nextPid) (hs : p.state = .ready) {ring : Ring ℕ maxProcs}
    (hring : ring.toList = t.ready.toList ++ [t.nextPid]) :
    Inv { t with procs := t.procs ++ [p], nextPid := pidAfter t.nextPid, ready := ring } := by
  have hnone := h.toPids.get_next hne
  have hget : ∀ q, ({ t with
      procs := t.procs ++ [p], nextPid := pidAfter t.nextPid, ready := ring } : Table R).get q =
      if q = t.nextPid then some p else t.get q := fun q => by
    rw [← hp]
    exact get_append rfl (by rw [hp]; exact hnone)
  refine ⟨h.toPids.append hlen hne hp rfl rfl, ?_, fun q => ?_, fun {q p'} hq hrun => ?_⟩
  · change ring.toList.Nodup
    rw [hring, List.nodup_append]
    refine ⟨h.nodup, List.nodup_singleton _, fun a ha b hb hab => ?_⟩
    obtain ⟨p', hp', -⟩ := (h.mem_iff a).mp ha
    rw [hab, List.mem_singleton.mp hb, hnone] at hp'
    cases hp'
  · change q ∈ ring.toList ↔ _
    rw [hring, List.mem_append, List.mem_singleton, hget]
    split
    · rename_i hq
      exact ⟨fun _ => ⟨p, rfl, hs⟩, fun _ => Or.inr hq⟩
    · rename_i hq
      rw [← h.mem_iff q]
      exact ⟨fun hm => hm.resolve_right hq, Or.inl⟩
  · rw [hget] at hq
    split at hq
    · cases hq
      rw [hs] at hrun
      cases hrun
    · exact h.running hq hrun

theorem Inv.insert (h : Inv t) (ppid : ℕ) (group : Group) (name : String) (res : R) :
    ∃ r, t.insert ppid group name res = some r ∧ Inv r.2 := by
  unfold Table.insert
  split
  · exact ⟨_, rfl, h⟩
  rename_i hroom
  split
  · exact ⟨_, rfl, h⟩
  simp only [hasRoom, Bool.not_eq_false, Bool.and_eq_true, decide_eq_true_eq, bne_iff_ne] at hroom
  obtain ⟨ring, hring, hlist⟩ := Ring.push_of_lt (lt_of_le_of_lt h.len_le_length hroom.1) t.nextPid
  have hinv := h.append hroom.1 hroom.2
      (p := ⟨t.nextPid, ppid, t.groupOf t.nextPid ppid group, name,
    .ready, none, 0, res⟩) rfl rfl hlist
  exact ⟨(.ok t.nextPid, _), by simp only [enqueue, hring, Option.map_some], hinv⟩

/-! ### Any call -/

/-- Only the running process is blocked, as the documentation of `block` says. -/
def BlocksRunning (t : Table R) : Op R → Prop
  | .block _ => ∀ p, t.get t.current = some p → p.state = .running
  | _ => True

/-- **No call stops dead, and every call keeps the invariant.** -/
theorem step_inv (h : Inv t) (op : Op R) (hop : t.BlocksRunning op) :
    ∃ r t', t.step op = some (r, t') ∧ Inv t' := by
  cases op with
  | insert ppid group name res =>
    obtain ⟨r, hr, hinv⟩ := h.insert ppid group name res
    exact ⟨_, r.2, by simp only [step, hr]; rfl, hinv⟩
  | schedule =>
    obtain ⟨r, hr, hinv⟩ := h.schedule
    exact ⟨_, r.2, by simp only [step, hr]; rfl, hinv⟩
  | block why => exact ⟨_, _, rfl, h.block why hop⟩
  | wake pid =>
    obtain ⟨r, hr, hinv, -⟩ := h.wake pid
    exact ⟨_, r.2, by simp only [step, hr]; rfl, hinv⟩
  | wakeAll why =>
    obtain ⟨t', h', hinv, -⟩ := Inv.wakeEach (t.pidsOf fun p => p.state = .blocked why) h
    exact ⟨_, t', by simp only [step, wakeAll, h']; rfl, hinv⟩
  | wakeWaiting pgid =>
    obtain ⟨t', h', hinv, -⟩ :=
      Inv.wakeEach (t.pidsOf fun p => p.pgid = pgid ∧ p.state = .blocked .waitCtrlC) h
    exact ⟨_, t', by simp only [step, wakeWaiting, h']; rfl, hinv⟩
  | wakeSleepers now =>
    obtain ⟨t', h', hinv⟩ := h.wakeGathered (fun p => isDue now p.state) h
    exact ⟨_, t', by simp only [step, wakeSleepers, h']; rfl, hinv⟩
  | tick => exact ⟨_, _, rfl, h.tick⟩
  | endProc pid status =>
    obtain ⟨t', h', hinv⟩ := h.endProc pid status
    exact ⟨_, t', by simp only [step, h']; rfl, hinv⟩
  | reap parent want => exact ⟨_, _, rfl, h.reap parent want⟩
  | kill target reason =>
    obtain ⟨r, hr, hinv⟩ := h.kill target reason
    exact ⟨_, r.2, by simp only [step, hr]; rfl, hinv⟩
  | killAllButInit reason =>
    obtain ⟨t', h', hinv⟩ := h.mark (fun p => p.pid != init) reason
    exact ⟨_, t', by simp only [step, killAllButInit, h']; rfl, hinv⟩
  | giveConsole pid dst =>
    refine ⟨_, _, rfl, ?_⟩
    unfold giveConsole
    split
    · exact h
    · exact h.of_states rfl rfl rfl rfl fun _ => rfl
  | takeConsole =>
    exact ⟨_, _, rfl, h.of_states rfl rfl rfl rfl fun _ => rfl⟩

end RelayOs.Kernel.Table
