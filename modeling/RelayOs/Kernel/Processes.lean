import RelayOs.Kernel.RunQueue

/-!
# Runs of the process table

The table after any run of calls made as they are documented: pids are given out once, the
run queue holds exactly the ready processes, at most one process runs, and every process
has a parent that can still collect it (`RelayOs.Kernel.Table.run_inv`).
-/

namespace RelayOs.Kernel.Table

variable {R : Type} {t t' : Table R} {pid q : ℕ}

/-! ### Parents -/

/-- A process that exists and has not ended. -/
def Live (t : Table R) (q : ℕ) : Prop := ∃ p, t.get q = some p ∧ p.state.isZombie = false

/-- **Every process has a parent that can collect it**: none at all, one that lives, or
process 1. -/
def Parents (t : Table R) : Prop :=
  ∀ p ∈ t.procs, p.ppid = 0 ∨ t.Live p.ppid ∨ p.ppid = init

theorem get_map_kin (t : Table R) (q : ℕ) :
    (t.get q).map Process.kin = (t.procs.map Process.kin).find? fun k => k.pid == q := by
  rw [List.find?_map]
  rfl

variable {p : Process R} {op : Op R} {r : Reply R}

theorem exists_get (hk : t'.procs.map Process.pid = t.procs.map Process.pid)
    (hp : t.get q = some p) : ∃ p', t'.get q = some p' := by
  have hm : q ∈ t'.procs.map Process.pid := hk ▸ get_mem_map hp
  obtain ⟨p', hp', he⟩ := List.mem_map.mp hm
  rcases hg : t'.get q with _ | p''
  · have := List.find?_eq_none.mp hg p' hp'
    simp [he] at this
  · exact ⟨p'', rfl⟩

theorem live_of (hk : t'.procs.map Process.pid = t.procs.map Process.pid)
    (hz : ∀ {p'}, t'.get q = some p' → p'.state.isZombie = true →
      ∃ p, t.get q = some p ∧ p.state.isZombie = true) (h : t.Live q) : t'.Live q := by
  obtain ⟨p, hp, hs⟩ := h
  obtain ⟨p', hp'⟩ := exists_get hk hp
  refine ⟨p', hp', ?_⟩
  by_contra hcon
  obtain ⟨p0, hp0, hz0⟩ := hz hp' (Bool.eq_true_of_not_eq_false hcon)
  rw [hp] at hp0
  cases hp0
  rw [hs] at hz0
  cases hz0

theorem Stirs.live (hs : Stirs t t') (h : t.Live q) : t'.Live q := live_of hs.map_pid_eq hs.zombie h

theorem live_block (why : Blocked) (h : t.Live q) : (t.block why).Live q := by
  refine live_of (map_alter _ _ fun _ _ => rfl) (fun {p'} hp' hz => ?_) h
  unfold block at hp'
  rw [get_setState] at hp'
  split at hp'
  · obtain ⟨p, -, rfl⟩ := Option.map_eq_some_iff.mp hp'
    cases hz
  · exact ⟨p', hp', hz⟩

theorem Ends.live (he : Ends pid t t') (hq : q ≠ pid) (h : t.Live q) : t'.Live q :=
  live_of he.map_pid_eq (fun hp' hz => (he.zombie hp' hz).resolve_left hq) h

theorem live_of_procs (hp : t'.procs = t.procs) (h : t.Live q) : t'.Live q := by
  unfold Live get at *
  rw [hp]
  exact h

theorem live_remove (ht : Pids t) {l1 l2 : List (Process R)}
    (hl : t.procs = l1 ++ p :: l2) (hz : p.state.isZombie = true) (h : t.Live q) :
    ({ t with procs := l1 ++ l2 } : Table R).Live q := by
  obtain ⟨p', hp', hs⟩ := h
  have hd := ht.nodup
  rw [hl] at hd
  refine ⟨p', ?_, hs⟩
  unfold get at hp' ⊢
  rw [hl] at hp'
  rw [find_remove hd, if_neg, hp']
  rintro rfl
  have hpp := ht.get_eq (p := p) (by rw [hl]; simp)
  unfold get at hpp
  rw [hl, hp'] at hpp
  cases hpp
  rw [hs] at hz
  cases hz

theorem live_append (hprocs : t'.procs = t.procs ++ [p]) (h : t.Live q) : t'.Live q := by
  obtain ⟨p', hp', hs⟩ := h
  refine ⟨p', ?_, hs⟩
  unfold get at *
  rw [hprocs, List.find?_append, hp', Option.some_or]

theorem Parents.of_kin (h : Parents t) (hk : t'.procs.map Process.kin = t.procs.map Process.kin)
    (hlive : ∀ q, t.Live q → t'.Live q) : Parents t' := by
  intro p' hp'
  have hm : p'.kin ∈ t.procs.map Process.kin := hk ▸ List.mem_map_of_mem hp'
  obtain ⟨p, hp, he⟩ := List.mem_map.mp hm
  have hpp : p.ppid = p'.ppid := congrArg Kin.ppid he
  rw [← hpp]
  exact (h p hp).imp_right fun hq => hq.imp_left (hlive _)

/-- A new process is given no parent, or one that lives. -/
def ParentLives (t : Table R) : Op R → Prop
  | .insert ppid _ _ _ => ppid = 0 ∨ t.Live ppid
  | _ => True

theorem Parents.change (ht : Pids t) (h : Parents t)
    (hc : Change t op r t') (hop : t.ParentLives op) : Parents t' := by
  cases hc with
  | stirs hs => exact h.of_kin hs.kin_eq fun q => hs.live
  | block why => exact h.of_kin (map_alter _ _ fun _ _ => rfl) fun q => live_block why
  | born hlen hne =>
    intro p hp
    rcases List.mem_append.mp hp with hp | hp
    · exact (h p hp).imp_right fun hq => hq.imp_left (live_append rfl)
    · rw [List.mem_singleton] at hp
      subst hp
      exact hop.imp_right fun hq => Or.inl (live_append rfl hq)
  | @ends pid _ _ he =>
    intro p' hp'
    have hm : p'.kin ∈ t.procs.map fun p => p.kin.afterEnd pid :=
      he.kin_eq ▸ List.mem_map_of_mem hp'
    obtain ⟨p, hp, hk⟩ := List.mem_map.mp hm
    have hpp : (if p.ppid = pid then init else p.ppid) = p'.ppid := congrArg Kin.ppid hk
    rw [← hpp]
    split
    · exact Or.inr (Or.inr rfl)
    · rename_i hne
      exact (h p hp).imp_right fun hq => hq.imp_left (he.live hne)
  | gone hl hz =>
    intro p' hp'
    have hm : p' ∈ t.procs := by
      rw [hl]
      exact ((List.sublist_cons_self _ _).append_left _).subset hp'
    exact (h p' hm).imp_right fun hq => hq.imp_left (live_remove ht hl hz)
  | gave pid dst =>
    have hp : (t.giveConsole pid dst).2.procs = t.procs := by
      unfold giveConsole
      split <;> rfl
    exact h.of_kin (by rw [hp]) fun q => live_of_procs hp
  | took => exact h.of_kin rfl fun q => live_of_procs rfl

/-! ### Process 1 -/

/-- Process 1 has not started, or lives. -/
def InitLives (t : Table R) : Prop := t.nextPid = init ∨ t.Live init

theorem InitLives.change (ht : Pids t) (h : InitLives t)
    (hc : Change t op r t') (hop : ∀ status, op ≠ .endProc init status) : InitLives t' := by
  cases hc with
  | stirs hs => exact h.imp (fun hn => hs.nextPid_eq.trans hn) hs.live
  | block why => exact h.imp_right (live_block why)
  | born hlen hne =>
    refine Or.inr ?_
    rcases h with hn | hl
    · have hnone := ht.get_next hne
      rw [← hn]
      exact ⟨_, (get_append rfl hnone).trans (if_pos rfl), rfl⟩
    · exact live_append rfl hl
  | @ends pid status _ he =>
    refine h.imp (fun hn => he.nextPid_eq.trans hn) (he.live fun hi => ?_)
    exact hop status (by rw [hi])
  | gone hl hz => exact h.imp_right (live_remove ht hl hz)
  | gave pid dst =>
    unfold giveConsole
    split
    · exact h
    · exact h
  | took => exact h

/-! ### Pids given out -/

/-- The pid a call gave out. -/
def pidGiven : Op R → Reply R → Option ℕ
  | .insert _ _ _ _, .pid n => some n
  | _, _ => none

/-- The pids the calls of a run gave out. -/
def given (ops : List (Op R)) (rs : List (Reply R)) : List ℕ :=
  (ops.zip rs).filterMap fun or => pidGiven or.1 or.2

/-- **One call gives out the next pid or none**, and who is in the table after it was there
before or is the new one. -/
theorem pidGiven_change (hc : Change t op r t') :
    (pidGiven op r = none ∧ t'.nextPid = t.nextPid ∧
      ∀ p' ∈ t'.procs, ∃ p ∈ t.procs, p.pid = p'.pid) ∨
    (pidGiven op r = some t.nextPid ∧ t.nextPid ≠ 0 ∧ t'.nextPid = pidAfter t.nextPid ∧
      ∀ p' ∈ t'.procs, p'.pid = t.nextPid ∨ ∃ p ∈ t.procs, p.pid = p'.pid) := by
  have hsame : t'.procs.map Process.pid = t.procs.map Process.pid →
      ∀ p' ∈ t'.procs, ∃ p ∈ t.procs, p.pid = p'.pid := fun hk p' hp' =>
    List.mem_map.mp (hk ▸ List.mem_map_of_mem hp')
  cases hc with
  | stirs hs hr =>
    refine Or.inl ⟨?_, hs.nextPid_eq, hsame hs.map_pid_eq⟩
    unfold pidGiven
    split
    · exact absurd rfl (hr _ _ _ _ _ rfl)
    · rfl
  | block why => exact Or.inl ⟨rfl, rfl, hsame (map_alter _ _ fun _ _ => rfl)⟩
  | born hlen hne =>
    refine Or.inr ⟨rfl, hne, rfl, fun p' hp' => ?_⟩
    rcases List.mem_append.mp hp' with hp' | hp'
    · exact Or.inr ⟨p', hp', rfl⟩
    · rw [List.mem_singleton] at hp'
      exact Or.inl (by rw [hp'])
  | ends he => exact Or.inl ⟨rfl, he.nextPid_eq, hsame he.map_pid_eq⟩
  | gone hl hz =>
    refine Or.inl ⟨rfl, rfl, fun p' hp' => ⟨p', ?_, rfl⟩⟩
    rw [hl]
    exact ((List.sublist_cons_self _ _).append_left _).subset hp'
  | gave pid dst =>
    refine Or.inl ⟨rfl, ?_, hsame ?_⟩ <;> unfold giveConsole <;> split <;> rfl
  | took => exact Or.inl ⟨rfl, rfl, hsame rfl⟩

/-! ### Runs -/

/-- **Every call of a run is made as `P` asks**, of the table it is made on. -/
def Throughout (P : Table R → Op R → Prop) : List (Op R) → Table R → Prop
  | [], _ => True
  | op :: ops, t => P t op ∧ ∀ r t', t.step op = some (r, t') → Throughout P ops t'

/-- **A run from any point on.** That new processes are given live parents is needed for
`Parents` only. -/
theorem run_spec (ops : List (Op R)) :
    ∀ {t : Table R}, Inv t → Throughout BlocksRunning ops t →
      ∃ rs t', run ops t = some (rs, t') ∧ Inv t' ∧
        (Parents t → Throughout ParentLives ops t → Parents t') ∧
        (given ops rs).Pairwise (· < ·) ∧ (∀ n ∈ given ops rs, t.nextPid ≠ 0 ∧ t.nextPid ≤ n) ∧
        (∀ p' ∈ t'.procs, p'.pid ∈ given ops rs ∨ ∃ p ∈ t.procs, p.pid = p'.pid) ∧
        (InitLives t → (∀ status, Op.endProc init status ∉ ops) → InitLives t') := by
  induction ops with
  | nil =>
    exact fun {t} h _ => ⟨[], t, rfl, h, fun hp _ => hp, .nil, nofun,
      fun p hp' => Or.inr ⟨p, hp', rfl⟩, fun hi _ => hi⟩
  | cons op ops ih =>
    rintro t h ⟨hrun, hrest⟩
    obtain ⟨r, t1, hstep, h₁⟩ := step_inv h op hrun
    have hc := change_of_step h.toPids hstep
    obtain ⟨rs, t', hrun', h', hparents, hpair, hge, hmem, hinit⟩ := ih h₁ (hrest r t1 hstep)
    refine ⟨r :: rs, t', ?_, h', fun hp hl => ?_, ?_⟩
    · simp only [run, hstep, hrun', Option.bind_eq_bind, Option.bind_some]
    · exact hparents (hp.change h.toPids hc hl.1) (hl.2 r t1 hstep)
    have hinit' : InitLives t → (∀ status, Op.endProc init status ∉ op :: ops) → InitLives t' :=
      fun hi hno => hinit (hi.change h.toPids hc fun status he => hno status (by simp [he]))
        fun status hm => hno status (List.mem_cons_of_mem _ hm)
    rcases pidGiven_change hc with ⟨hnone, hnext, hold⟩ | ⟨hsome, hne, hnext, hold⟩
    · have hg : given (op :: ops) (r :: rs) = given ops rs :=
        List.filterMap_cons_none hnone
      rw [hg]
      refine ⟨hpair, hnext ▸ hge, fun p' hm => (hmem p' hm).imp_right ?_, hinit'⟩
      rintro ⟨p, hpm, he⟩
      obtain ⟨p0, hp0, he0⟩ := hold p hpm
      exact ⟨p0, hp0, he0.trans he⟩
    · have hg : given (op :: ops) (r :: rs) = t.nextPid :: given ops rs :=
        List.filterMap_cons_some hsome
      rw [hg]
      -- a later pid is past the next one, which is past this one
      have hlt : ∀ n ∈ given ops rs, t.nextPid < n := fun n hn => by
        obtain ⟨hne', hle⟩ := hge n hn
        rw [hnext] at hne' hle
        rcases pidAfter_cases t.nextPid with h0 | h1
        · exact absurd h0 hne'
        · omega
      refine ⟨List.pairwise_cons.mpr ⟨hlt, hpair⟩, fun n hn => ?_, fun p' hm => ?_, hinit'⟩
      · rcases List.mem_cons.mp hn with rfl | hn
        · exact ⟨hne, le_rfl⟩
        · exact ⟨hne, (hlt n hn).le⟩
      · rcases hmem p' hm with hm' | ⟨p, hpm, he⟩
        · exact Or.inl (List.mem_cons_of_mem _ hm')
        · rcases hold p hpm with hpid | ⟨p0, hp0, he0⟩
          · exact Or.inl (by rw [← he, hpid]; exact List.mem_cons_self)
          · exact Or.inr ⟨p0, hp0, he0.trans he⟩

theorem Parents.of_initLives (h : Parents t) (hne : t.procs ≠ []) (ht : Pids t) (hi : InitLives t) :
    ∀ p ∈ t.procs, p.ppid = 0 ∨ t.Live p.ppid := by
  have hlive : t.Live init := by
    refine hi.resolve_left fun hn => ?_
    -- a process in the table has a pid below the next one
    obtain ⟨p, hp⟩ := List.exists_mem_of_ne_nil _ hne
    have h₁ := ht.pid_pos p hp
    have h2 := (ht.pid_lt p hp).2 (by rw [hn]; decide)
    rw [hn] at h2
    exact absurd h2 (not_lt.mpr h₁)
  intro p hp
  rcases h p hp with h0 | hl | h1
  · exact Or.inl h0
  · exact Or.inr hl
  · exact Or.inr (h1 ▸ hlive)

/-- **The process table over every run** in which only the running process blocks: no assertion
fails; pids are given out in ascending order, so never twice, and stand in that order in the
table; the run queue holds exactly the ready processes, each once; and at most one process runs,
the current one. If moreover every new process is given no parent or one that lives, every
parent is 0, a live process, or process 1 – which is a live process itself unless the run ended
it. -/
theorem run_inv (ops : List (Op R)) (h : Throughout BlocksRunning ops Table.new) :
    ∃ rs t, run ops Table.new = some (rs, t) ∧
      ((given ops rs).Pairwise (· < ·) ∧ (t.procs.map Process.pid).Pairwise (· < ·) ∧
        ∀ p ∈ t.procs, p.pid ∈ given ops rs) ∧
      (t.ready.toList.Nodup ∧
        ∀ q, q ∈ t.ready.toList ↔ ∃ p ∈ t.procs, p.pid = q ∧ p.state = .ready) ∧
      (∀ p ∈ t.procs, p.state = .running →
        p.pid = t.current ∧ ∀ p' ∈ t.procs, p'.state = .running → p' = p) ∧
      (Throughout ParentLives ops Table.new →
        (∀ p ∈ t.procs, p.ppid = 0 ∨ t.Live p.ppid ∨ p.ppid = init) ∧
        ((∀ status, Op.endProc init status ∉ ops) →
          ∀ p ∈ t.procs, p.ppid = 0 ∨ t.Live p.ppid)) := by
  obtain ⟨rs, t, hrun, hinv, hparents, hpair, -, hmem, hinit⟩ := run_spec ops inv_new h
  refine ⟨rs, t, hrun, ⟨hpair, hinv.sorted, fun p hpm => ?_⟩, ⟨hinv.nodup, fun q => ?_⟩,
    fun p hpm hr => ?_, fun hlive => ?_⟩
  · refine (hmem p hpm).resolve_right ?_
    rintro ⟨p₀, hp₀, -⟩
    cases hp₀
  · refine (hinv.mem_iff q).trans ⟨fun ⟨p, hg, hs⟩ => ⟨p, mem_of_get hg, pid_of_get hg, hs⟩, ?_⟩
    rintro ⟨p, hpm, rfl, hs⟩
    exact ⟨p, hinv.toPids.get_eq hpm, hs⟩
  · have hcur : ∀ {p}, p ∈ t.procs → p.state = .running → p.pid = t.current := fun hm hs =>
      hinv.running (hinv.toPids.get_eq hm) hs
    refine ⟨hcur hpm hr, fun p' hpm' hr' => ?_⟩
    have hpid := (hcur hpm' hr').trans (hcur hpm hr).symm
    exact List.inj_on_of_nodup_map hinv.toPids.nodup hpm' hpm hpid
  · have hp : Parents t := hparents (by simp [Parents, Table.new]) hlive
    refine ⟨hp, fun hno p hpm => ?_⟩
    exact hp.of_initLives (List.ne_nil_of_mem hpm) hinv.toPids (hinit (Or.inl rfl) hno) p hpm

theorem Throughout.cons {P : Table R → Op R → Prop} {ops : List (Op R)} (h : P t op)
    (hs : t.step op = some (r, t')) (hrest : Throughout P ops t') :
    Throughout P (op :: ops) t := by
  refine ⟨h, fun r1 t1 h1 => ?_⟩
  rw [hs] at h1
  cases h1
  exact hrest

/-- Process 1 starts a shell and waits for it. -/
def startAndWait : List (Op Unit) :=
  [.insert 0 .new "init" (), .schedule, .insert 1 .parent "sh" (), .block .wait, .schedule]

theorem run_inv_startAndWait :
    Throughout BlocksRunning startAndWait Table.new ∧
      Throughout ParentLives startAndWait Table.new ∧
      ∃ rs t, run startAndWait Table.new = some (rs, t) ∧ t.ready.toList.Nodup ∧
        (given startAndWait rs).Pairwise (· < ·) ∧ t.procs.map Process.pid = [1, 2] ∧
        ∀ p ∈ t.procs, p.ppid = 0 ∨ t.Live p.ppid := by
  have hblocks : Throughout BlocksRunning startAndWait Table.new := by
    refine .cons trivial rfl (.cons trivial rfl (.cons trivial rfl ?_))
    exact .cons (fun p hp => by cases hp; rfl) rfl (.cons trivial rfl trivial)
  have hlive : Throughout ParentLives startAndWait Table.new := by
    refine .cons (Or.inl rfl) rfl (.cons trivial rfl ?_)
    exact .cons (Or.inr ⟨_, rfl, rfl⟩) rfl (.cons trivial rfl (.cons trivial rfl trivial))
  refine ⟨hblocks, hlive, ?_⟩
  obtain ⟨rs, t, hrun, ⟨hgiven, -⟩, ⟨hready, -⟩, -, hparents⟩ := run_inv startAndWait hblocks
  refine ⟨rs, t, hrun, hready, hgiven, ?_, (hparents hlive).2 fun status => by simp [startAndWait]⟩
  cases hrun
  rfl

/-- Process 1 blocks again without having stopped running. -/
def blockTwice : List (Op Unit) :=
  [.insert 0 .new "init" (), .schedule, .block .wait, .wake 1, .block .wait]

/-- **Over any sequence of calls the table does not hold together**: after a second `block`
without a `schedule`, process 1 stands in the run queue though it is blocked; 65 times
over, the assertion that the run queue is not full fails; and a process may be given a
parent that never was. -/
theorem blocking_again_fills_the_queue :
    (run blockTwice Table.new).map
      (fun r => (r.2.ready.toList, r.2.procs.map fun p => (p.pid, p.state))) =
      some ([1], [(1, .blocked .wait)]) ∧
    (run ([.insert 0 .new "init" (), .schedule] ++
      (List.replicate 65 [.block .wait, .wake 1]).flatten) (Table.new : Table Unit)).isNone = true ∧
    (run [.insert 77 .new "orphan" ()] (Table.new : Table Unit)).map
      (fun r => r.2.procs.map fun p => (p.pid, p.ppid)) = some [(1, 77)] :=
  ⟨by decide, by decide +kernel, by decide⟩

end RelayOs.Kernel.Table
