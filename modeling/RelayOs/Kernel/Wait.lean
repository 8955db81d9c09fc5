import RelayOs.Kernel.Processes

/-!
# No wake-up is lost

A process that waits for a child asks the table for one that has ended (`reap`), and only
if there is none does it block. Then somebody else has to wake it. The zombies of a
process come from two sides: a child of it ends, or – for process 1 – a process ends that
leaves it its zombies. `RelayOs.Kernel.Table.endProc` wakes for both, and this module
shows that this is enough: **no process is ever left waiting while it has a zombie child
of those it waits for** (`RelayOs.Kernel.Waits.no_lost_wakeup`).
-/

namespace RelayOs.Kernel

/-- **The table, watched**: the last call if it was a `reap` that found none that has ended,
and which children each process wanted when it blocked. -/
structure Waits (R : Type) where
  table : Table R
  last : Option (ℕ × Want)
  wants : ℕ → Want

variable {R : Type}

/-- The parent and the children wanted, if the call is a `reap` that found none that has ended. -/
def foundNone : Op R → Reply R → Option (ℕ × Want)
  | .reap parent want, .reaped none => some (parent, want)
  | _, _ => none

namespace Waits

/-- Nobody waits. -/
def new : Waits R := ⟨.new, none, fun _ => .any⟩

/-- Whether the call makes a process wait for a child. -/
def isWait : Op R → Bool
  | .block why => (State.blocked why).isWaiting
  | _ => false

/-- What each process wants after the call. -/
def wantsAfter (s : Waits R) (op : Op R) : ℕ → Want :=
  match s.last with
  | some (_, want) => if isWait op then Function.update s.wants s.table.current want else s.wants
  | none => s.wants

/-- One call, and what is known of waiting after it. -/
def step (s : Waits R) (op : Op R) : Option (Waits R) :=
  (s.table.step op).map fun rt => ⟨rt.2, foundNone op rt.1, s.wantsAfter op⟩

/-- The calls one after the other. -/
def run : List (Op R) → Waits R → Option (Waits R)
  | [], s => some s
  | op :: ops, s => (s.step op).bind (run ops)

/-- A process waits for a child only right after its `reap` found none that has ended. -/
def MayCall (s : Waits R) (op : Op R) : Prop :=
  isWait op = true → ∃ want, s.last = some (s.table.current, want)

/-- A run in which every process does so, as `collect` does. -/
def Collecting : List (Op R) → Waits R → Prop
  | [], _ => True
  | op :: ops, s => s.MayCall op ∧ ∀ s', s.step op = some s' → Collecting ops s'

/-- None of the children of `parent` that are wanted has ended. -/
def NoneEnded (t : Table R) (parent : ℕ) (want : Want) : Prop :=
  ∀ c ∈ t.procs, c.ppid = parent → want.covers c.pid = true → c.state.isZombie = false

/-- **No process waits while a child it waits for has ended**, and what the last call found
is so. -/
structure Sound (s : Waits R) : Prop where
  pids : s.table.Pids
  last : ∀ parent want, s.last = some (parent, want) → NoneEnded s.table parent want
  waiting : ∀ q p, s.table.get q = some p → p.state.isWaiting = true →
    NoneEnded s.table q (s.wants q)

theorem sound_new : Sound (Waits.new : Waits R) :=
  ⟨Table.pids_new, nofun, fun _ _ h => by cases h⟩

/-! ### Children that have ended -/

open Table

variable {t t' : Table R} {q : ℕ} {want : Want}

theorem NoneEnded.of_zombie (h : NoneEnded t q want)
    (hz : ∀ c ∈ t'.procs, c.ppid = q → c.state.isZombie = true →
      ∃ c0 ∈ t.procs, c0.pid = c.pid ∧ c0.ppid = q ∧ c0.state.isZombie = true) :
    NoneEnded t' q want := by
  intro c hc hq hw
  by_contra hcon
  obtain ⟨c0, hc0, hpid, hppid, hz0⟩ := hz c hc hq (Bool.eq_true_of_not_eq_false hcon)
  rw [h c0 hc0 hppid (by rw [hpid]; exact hw)] at hz0
  cases hz0

variable {p' : Process R} {op : Op R} {s : Waits R}

theorem kin_of_get (hk : t'.procs.map Process.kin = t.procs.map Process.kin) {p : Process R}
    (hp : t.get q = some p) (hp' : t'.get q = some p') : p'.kin = p.kin := by
  have h := get_map_kin t q
  have h' := get_map_kin t' q
  rw [hk, ← h, hp, hp'] at h'
  exact Option.some.inj h'

theorem NoneEnded.stirs (ht' : Pids t') (hs : Stirs t t') (h : NoneEnded t q want) :
    NoneEnded t' q want := by
  refine h.of_zombie fun c hc hq hz => ?_
  obtain ⟨c0, hc0, hz0⟩ := hs.zombie (ht'.get_eq hc) hz
  have hkin := kin_of_get hs.kin_eq hc0 (ht'.get_eq hc)
  exact ⟨c0, mem_of_get hc0, (congrArg Kin.pid hkin).symm,
    (congrArg Kin.ppid hkin).symm.trans hq, hz0⟩

theorem NoneEnded.of_subset (hsub : t'.procs ⊆ t.procs) (h : NoneEnded t q want) :
    NoneEnded t' q want :=
  fun c hc => h c (hsub hc)

theorem NoneEnded.append {p : Process R} (hprocs : t'.procs = t.procs ++ [p])
    (hp : p.state.isZombie = false) (h : NoneEnded t q want) : NoneEnded t' q want := by
  intro c hc hq hw
  rw [hprocs, List.mem_append, List.mem_singleton] at hc
  rcases hc with hc | rfl
  · exact h c hc hq hw
  · exact hp

theorem NoneEnded.block (ht : Pids t) (why : Blocked) (h : NoneEnded t q want) :
    NoneEnded (t.block why) q want := by
  intro c hc hq hw
  change c ∈ alter t.current _ t.procs at hc
  rw [alter_eq_map ht.nodup] at hc
  obtain ⟨c0, hc0, rfl⟩ := List.mem_map.mp hc
  by_cases hcur : c0.pid = t.current
  · simp only [hcur, if_true]
    rfl
  · simp only [hcur, if_false] at hq hw ⊢
    exact h c0 hc0 hq hw

/-- **The end of `pid` leaves nobody waiting for a child that has ended**: who got a new
zombie child is woken. -/
theorem NoneEnded.ends {pid : ℕ} (ht : Pids t) (ht' : Pids t') (he : Ends pid t t')
    (hp' : t'.get q = some p') (hw : p'.state.isWaiting = true) (h : NoneEnded t q want) :
    NoneEnded t' q want := by
  intro c hc hq hcov
  by_contra hcon
  have hz : c.state.isZombie = true := Bool.eq_true_of_not_eq_false hcon
  -- the child as it was before
  have hm : c.kin ∈ t.procs.map fun p => p.kin.afterEnd pid := he.kin_eq ▸ List.mem_map_of_mem hc
  obtain ⟨c0, hc0, hk⟩ := List.mem_map.mp hm
  have hpid : c0.pid = c.pid := congrArg Kin.pid hk
  have hppid : (if c0.ppid = pid then init else c0.ppid) = q := (congrArg Kin.ppid hk).trans hq
  have hover : (c0.state.isZombie || decide (c0.pid = pid)) = true := by
    rcases he.zombie (ht'.get_eq hc) hz with hcp | ⟨c1, hc1, hz1⟩
    · rw [hpid, hcp, decide_eq_true rfl, Bool.or_true]
    · rw [← hpid, ht.get_eq hc0] at hc1
      cases hc1
      rw [hz1, Bool.true_or]
  by_cases hchild : c0.ppid = pid
  · -- it passed to process 1 with the others
    rw [if_pos hchild] at hppid
    subst hppid
    rw [he.heir c0 hc0 hchild hover p' hp'] at hw
    cases hw
  · rw [if_neg hchild] at hppid
    rcases Bool.or_eq_true_iff.mp hover with hz0 | hself
    · rw [h c0 hc0 hppid (by rw [hpid]; exact hcov)] at hz0
      cases hz0
    · -- it is the one that ended, so its parent was woken
      have hget := ht.get_eq hc0
      rw [of_decide_eq_true hself] at hget
      have := he.parent c0 hget p' (by rw [hppid]; exact hp')
      rw [this] at hw
      cases hw

/-! ### One call -/

theorem noneEnded_of_foundNone {r : Reply R} (hstep : t.step op = some (r, t'))
    {parent : ℕ} (h : foundNone op r = some (parent, want)) : NoneEnded t' parent want := by
  unfold foundNone at h
  split at h
  · cases h
    simp only [Table.step, Option.some.injEq, Prod.mk.injEq] at hstep
    obtain ⟨hr, rfl⟩ := hstep
    rcases reap_cases t parent want with ⟨hsame, ⟨e, he⟩ | ⟨-, hnone⟩⟩ | ⟨p, l1, l2, hp, -, -, -⟩
    · rw [he] at hr
      cases hr
    · rw [hsame]
      exact hnone
    · rw [hp] at hr
      cases hr
  · cases h

theorem wantsAfter_of_not_wait (h : isWait op = false) : s.wantsAfter op = s.wants := by
  unfold wantsAfter
  split
  · rw [if_neg (by rw [h]; nofun)]
  · rfl

theorem wantsAfter_wait {parent : ℕ} (hlast : s.last = some (parent, want))
    (h : isWait op = true) : s.wantsAfter op = Function.update s.wants s.table.current want := by
  unfold wantsAfter
  rw [hlast]
  exact if_pos h

/-- **Who waits after a call has no child that has ended** of those it waits for. -/
theorem Sound.change (h : Sound s) {r : Reply R}
    (hc : Change s.table op r t') (ht' : Pids t') (hop : s.MayCall op)
    (hq : t'.get q = some p') (hw : p'.state.isWaiting = true) :
    NoneEnded t' q (s.wantsAfter op q) := by
  cases hc with
  | stirs hs _ hb =>
    obtain ⟨p, hp, hst⟩ := hs.waiting hq hw
    have hnone := h.waiting q p hp (hst ▸ hw)
    rw [wantsAfter_of_not_wait (by unfold isWait; split; exact absurd rfl (hb _); rfl)]
    exact hnone.stirs ht' hs
  | block why =>
    unfold Table.block at hq
    rw [get_setState] at hq
    split at hq
    · -- the process that blocks has just asked for such a child
      rename_i hcur
      obtain ⟨p, -, rfl⟩ := Option.map_eq_some_iff.mp hq
      obtain ⟨want, hlast⟩ := hop hw
      have hwant : s.wantsAfter (.block why) q = want := by
        rw [wantsAfter_wait hlast (show isWait (.block why : Op R) = true by exact hw), hcur,
          Function.update_self]
      rw [hwant, hcur]
      exact (h.last _ want hlast).block h.pids why
    · rename_i hne
      have hwant : s.wantsAfter (.block why) q = s.wants q := by
        by_cases hwait : isWait (.block why : Op R) = true
        · obtain ⟨want, hlast⟩ := hop hwait
          rw [wantsAfter_wait hlast hwait, Function.update_of_ne hne]
        · rw [wantsAfter_of_not_wait (Bool.eq_false_of_not_eq_true hwait)]
      rw [hwant]
      exact (h.waiting q p' hq hw).block h.pids why
  | born hlen hne =>
    rw [wantsAfter_of_not_wait rfl]
    rw [get_append rfl (h.pids.get_next hne)] at hq
    split at hq
    · cases hq
      cases hw
    · exact (h.waiting q p' hq hw).append rfl rfl
  | ends he =>
    rw [wantsAfter_of_not_wait rfl]
    obtain ⟨p, hp, hst⟩ := he.waiting hq hw
    exact (h.waiting q p hp (hst ▸ hw)).ends h.pids ht' he hq hw
  | @gone _ _ p l1 l2 hl hz =>
    rw [wantsAfter_of_not_wait rfl]
    have hd := h.pids.nodup
    rw [hl] at hd
    have hget : s.table.get q = some p' := by
      unfold Table.get at hq ⊢
      rw [hl]
      rw [find_remove hd] at hq
      split at hq
      · cases hq
      · exact hq
    refine (h.waiting q p' hget hw).of_subset ?_
    rw [hl]
    exact ((List.sublist_cons_self p l2).append_left l1).subset
  | gave pid dst =>
    rw [wantsAfter_of_not_wait rfl]
    have hp : (s.table.giveConsole pid dst).2.procs = s.table.procs := by
      unfold giveConsole
      split <;> rfl
    have hget : s.table.get q = some p' := by
      unfold Table.get at hq ⊢
      rw [← hp]
      exact hq
    exact (h.waiting q p' hget hw).of_subset (by rw [hp]; exact fun _ => id)
  | took =>
    rw [wantsAfter_of_not_wait rfl]
    exact h.waiting q p' hq hw

theorem Sound.step {s' : Waits R} (h : Sound s) (hop : s.MayCall op)
    (hs : s.step op = some s') : Sound s' := by
  obtain ⟨⟨r, t'⟩, hstep, rfl⟩ := Option.map_eq_some_iff.mp hs
  have hc := change_of_step h.pids hstep
  have ht' := h.pids.change hc
  exact ⟨ht', fun parent want hlast => noneEnded_of_foundNone hstep hlast,
    fun q p' hq hw => h.change hc ht' hop hq hw⟩

/-! ### Runs -/

theorem Sound.run (ops : List (Op R)) :
    ∀ {s s' : Waits R}, Sound s → Collecting ops s → run ops s = some s' → Sound s' := by
  induction ops with
  | nil =>
    intro s s' h _ hrun
    cases hrun
    exact h
  | cons op ops ih =>
    intro s s' h hall hrun
    obtain ⟨s1, hs1, hrun⟩ := Option.bind_eq_some_iff.mp hrun
    exact ih (h.step hall.1 hs1) (hall.2 s1 hs1) hrun

/-- **No lost wake-up for `wait`**: in every run in which a process waits for a child only
right after its `reap` found none that has ended, no process is left waiting while one of
the children it waits for has ended – be it that the child ended since, or that process 1
inherited it. -/
theorem no_lost_wakeup (ops : List (Op R)) (h : Collecting ops Waits.new) (s : Waits R)
    (hrun : run ops Waits.new = some s) (p : Process R) (hp : p ∈ s.table.procs)
    (hw : p.state = .blocked .wait ∨ p.state = .blocked .waitCtrlC) :
    ∀ c ∈ s.table.procs, c.ppid = p.pid → (s.wants p.pid).covers c.pid = true →
      ∀ status, c.state ≠ .zombie status := by
  have hs := sound_new.run ops h hrun
  have hwait : p.state.isWaiting = true := by
    rcases hw with hw | hw <;> rw [hw] <;> rfl
  intro c hc hppid hcov status hz
  have := hs.waiting p.pid p (hs.pids.get_eq hp) hwait c hc hppid hcov
  rw [hz] at this
  cases this

/-- Process 1 has a child that has a child, and waits for any of its own while the grandchild ends.
-/
def orphans : List (Op Unit) :=
  [.insert 0 .new "init" (), .schedule, .insert 1 .new "sh" (), .insert 2 .parent "ls" (),
    .reap 1 .any, .block .wait, .schedule, .endProc 3 ⟨0, 0, 0, 0, 0, 0⟩]

theorem Collecting.cons {s' : Waits R} {ops : List (Op R)} (h : s.MayCall op)
    (hs : s.step op = some s') (hrest : Collecting ops s') : Collecting (op :: ops) s := by
  refine ⟨h, fun s1 h1 => ?_⟩
  rw [hs] at h1
  cases h1
  exact hrest

theorem no_lost_wakeup_orphans :
    ∃ s, run orphans Waits.new = some s ∧ ∃ p ∈ s.table.procs, p.state = .blocked .wait ∧
      ∀ c ∈ s.table.procs, c.ppid = p.pid → (s.wants p.pid).covers c.pid = true →
        ∀ status, c.state ≠ .zombie status := by
  have hall : Collecting orphans Waits.new := by
    refine .cons nofun rfl ?_
    refine .cons nofun rfl ?_
    refine .cons nofun rfl ?_
    refine .cons nofun rfl ?_
    refine .cons nofun rfl ?_
    refine .cons (fun _ => ⟨.any, rfl⟩) rfl ?_
    refine .cons nofun rfl ?_
    exact .cons nofun rfl trivial
  refine ⟨_, rfl, _, List.mem_cons_self, rfl, ?_⟩
  exact no_lost_wakeup orphans hall _ rfl _ List.mem_cons_self (Or.inl rfl)

end Waits

end RelayOs.Kernel
