import RelayOs.Kernel.RunQueue

/-!
# Handing the console on

Over any run of the process table the chain of console holders
(`RelayOs.Kernel.Holders`) is a list of distinct groups with process 1's at the bottom, a
group stands in it only because one that held the console gave it and nobody below took it
back since, and its array never overflows while process 1 lives: every group of the chain
has a member, and there are no more members than processes.
-/

namespace RelayOs.Kernel

open Vfs

/-! ### The chain -/

namespace Holders

variable {h h' : Holders} {g a giver dst : ℕ} {exist : ℕ → Bool}

/-- **A chain as it should be**: process 1's group at the bottom, and no group twice. -/
def Sound (h : Holders) : Prop := ∃ above, h.groups = init :: above ∧ (init :: above).Nodup

/-- Both hold the console, and `a` stands nearer to the bottom than `g`. -/
def Below (h : Holders) (a g : ℕ) : Prop :=
  a ∈ h.groups ∧ h.groups.idxOf a < h.groups.idxOf g

theorem sound_new : Sound new := ⟨[], rfl, by simp⟩

theorem Sound.nodup (hs : h.Sound) : h.groups.Nodup := by
  obtain ⟨above, he, hd⟩ := hs
  rwa [he]

theorem Sound.compact (hs : h.Sound) (exist : ℕ → Bool) : (h.compact exist).Sound := by
  obtain ⟨above, he, hd⟩ := hs
  refine ⟨above.filter exist, by simp [Holders.compact, he], ?_⟩
  exact hd.sublist (List.filter_sublist.cons_cons init)

theorem Sound.mem_compact (hs : h.Sound) :
    g ∈ (h.compact exist).groups ↔ g ∈ h.groups ∧ (g = init ∨ exist g = true) := by
  obtain ⟨above, he, -⟩ := hs
  simp only [Holders.compact, he, List.take_succ_cons, List.take_zero, List.drop_succ_cons,
    List.drop_zero, List.mem_append, List.mem_filter, List.mem_cons]
  tauto

theorem cutTo_cases (h : Holders) (g : ℕ) :
    (g ∉ h.groups ∧ h.cutTo g = none) ∨
      ∃ l1 l2, h.groups = l1 ++ g :: l2 ∧ g ∉ l1 ∧ h.cutTo g = some ⟨l1 ++ [g]⟩ := by
  unfold cutTo
  by_cases hg : g ∈ h.groups
  · obtain ⟨l1, l2, hl, hn⟩ := List.eq_append_cons_of_mem hg
    have hidx : h.groups.idxOf? g = some l1.length := by
      refine List.idxOf?_eq_some_iff.mpr ⟨by simp [hl], by simp [hl], fun j hj he => hn ?_⟩
      simp only [hl, List.getElem_append_left hj] at he
      exact he ▸ List.getElem_mem hj
    refine Or.inr ⟨l1, l2, hl, hn, ?_⟩
    rw [hidx, hl, Option.map_some, List.take_append, List.take_of_length_le (Nat.le_succ _),
      Nat.add_sub_cancel_left]
    rfl
  · exact Or.inl ⟨hg, by rw [List.idxOf?_eq_none_iff.mpr hg]; rfl⟩

/-- **What giving the console on does**, to the chain `c` without the groups that are gone:
it is refused to a group that is not in it; otherwise the groups up to the receiver are
left, or those up to the giver with the receiver on top, if there is room. -/
theorem give_cases (h : Holders) (giver dst : ℕ) (exist : ℕ → Bool) :
    (giver ∉ (h.compact exist).groups ∧ h.give giver dst exist = (.error .EPERM, h.compact exist)) ∨
    ∃ l1 l2, (h.compact exist).groups = l1 ++ giver :: l2 ∧ giver ∉ l1 ∧
      ((∃ m1 m2, l1 ++ [giver] = m1 ++ dst :: m2 ∧ dst ∉ m1 ∧
          h.give giver dst exist = (.ok (), ⟨m1 ++ [dst]⟩)) ∨
        (dst ∉ l1 ++ [giver] ∧ (l1 ++ [giver]).length < maxProcs ∧
          h.give giver dst exist = (.ok (), ⟨l1 ++ [giver] ++ [dst]⟩)) ∨
        (dst ∉ l1 ++ [giver] ∧ maxProcs ≤ (l1 ++ [giver]).length ∧
          h.give giver dst exist = (.error .EAGAIN, ⟨l1 ++ [giver]⟩))) := by
  simp only [give]
  rcases cutTo_cases (h.compact exist) giver with ⟨hn, hc⟩ | ⟨l1, l2, hl, hn, hc⟩
  · exact Or.inl ⟨hn, by rw [hc]⟩
  · refine Or.inr ⟨l1, l2, hl, hn, ?_⟩
    rw [hc]
    rcases cutTo_cases ⟨l1 ++ [giver]⟩ dst with ⟨hd, hc'⟩ | ⟨m1, m2, hm, hd, hc'⟩
    · simp only [hc']
      by_cases hlen : (l1 ++ [giver]).length < maxProcs
      · exact Or.inr (Or.inl ⟨hd, hlen, if_pos hlen⟩)
      · exact Or.inr (Or.inr ⟨hd, not_lt.mp hlen, if_neg hlen⟩)
    · exact Or.inl ⟨m1, m2, hm, hd, by simp only [hc']⟩

variable {l1 l2 : List ℕ}

theorem idxOf_lt_of_mem (hg : g ∈ l1) : (l1 ++ l2).idxOf g < l1.length := by
  rw [List.idxOf_append_of_mem hg]
  exact List.idxOf_lt_length_iff.mpr hg

theorem le_idxOf_of_notMem (hg : g ∉ l1) : l1.length ≤ (l1 ++ l2).idxOf g := by
  rw [List.idxOf_append_of_notMem hg]
  exact Nat.le_add_right _ _

/-- Up to the first `a` no group has `a` below it. -/
theorem not_below (hl : h.groups = l1 ++ a :: l2) (ha : a ∉ l1)
    (hg : g ∈ l1 ++ [a]) : ¬h.Below a g := by
  rintro ⟨-, hlt⟩
  have hlt' := @idxOf_lt_of_mem _ _ l2 hg
  have hle := @le_idxOf_of_notMem _ _ (a :: l2) ha
  rw [List.append_assoc, List.singleton_append, List.length_append, List.length_singleton] at hlt'
  rw [hl] at hlt
  omega

theorem not_below_of_notMem (hl : h.groups = l1 ++ l2) (ha : a ∉ l1)
    (hg : g ∈ l1) : ¬h.Below a g := by
  rintro ⟨-, hlt⟩
  have hlt' := @idxOf_lt_of_mem _ _ l2 hg
  have hle := @le_idxOf_of_notMem _ _ l2 ha
  rw [hl] at hlt
  omega

/-- **Who is in the chain after a call to `give`** was given the console by it, or was in
the chain, and neither the giver nor the receiver holds the console below it. -/
theorem mem_give (hg : g ∈ (h.give giver dst exist).2.groups) :
    (g = dst ∧ (h.give giver dst exist).1 = .ok () ∧ giver ∈ (h.compact exist).groups) ∨
    (g ∈ (h.compact exist).groups ∧ (giver ∈ (h.compact exist).groups →
      ¬(h.compact exist).Below giver g ∧ ¬(h.compact exist).Below dst g)) := by
  rcases give_cases h giver dst exist with
    ⟨hn, he⟩ | ⟨l1, l2, hl, hn, ⟨m1, m2, hm, hd, he⟩ | ⟨hd, -, he⟩ | ⟨hd, -, he⟩⟩ <;>
    rw [he] at hg
  · exact Or.inr ⟨hg, fun hc => absurd hc hn⟩
  · -- cut back to the receiver, which stands at or below the giver
    have hc : (h.compact exist).groups = m1 ++ dst :: (m2 ++ l2) := by
      rw [hl, ← List.singleton_append, ← List.append_assoc, hm]
      simp
    have hg1 : g ∈ l1 ++ [giver] := by
      rw [hm]
      exact ((List.singleton_sublist.mpr List.mem_cons_self).append_left m1).subset hg
    refine Or.inr ⟨?_, fun _ => ⟨not_below hl hn hg1, not_below hc hd hg⟩⟩
    rw [hl, ← List.singleton_append, ← List.append_assoc]
    exact List.mem_append_left _ hg1
  all_goals
    have hc : (h.compact exist).groups = l1 ++ [giver] ++ l2 := by rw [hl]; simp
    have hkept : g ∈ l1 ++ [giver] → g ∈ (h.compact exist).groups ∧
        (giver ∈ (h.compact exist).groups →
          ¬(h.compact exist).Below giver g ∧ ¬(h.compact exist).Below dst g) := fun hg1 =>
      ⟨hc ▸ List.mem_append_left _ hg1,
        fun _ => ⟨not_below hl hn hg1, not_below_of_notMem hc hd hg1⟩⟩
  · rcases List.mem_append.mp hg with hg | hg
    · exact Or.inr (hkept hg)
    · exact Or.inl ⟨List.mem_singleton.mp hg, by rw [he], by rw [hl]; simp⟩
  · exact Or.inr (hkept hg)

theorem Sound.of_append (hs : h.Sound) (hl : h.groups = l1 ++ l2) (hne : l1 ≠ []) : Sound ⟨l1⟩ := by
  obtain ⟨above, he, hd⟩ := hs
  rw [hl] at he
  obtain ⟨a, l, rfl⟩ := List.exists_cons_of_ne_nil hne
  rw [← he] at hd
  obtain ⟨rfl, -⟩ := List.cons.inj he
  exact ⟨l, rfl, (List.nodup_append.mp hd).1⟩

theorem Sound.push (hs : h.Sound) (hd : dst ∉ h.groups) : Sound ⟨h.groups ++ [dst]⟩ := by
  have hn := hs.nodup
  obtain ⟨above, he, -⟩ := hs
  refine ⟨above ++ [dst], by simp [he], ?_⟩
  rw [← List.cons_append, ← he]
  exact List.nodup_append.mpr ⟨hn, List.nodup_singleton _, fun a ha b hb => by
    rw [List.mem_singleton] at hb
    rintro rfl
    exact hd (hb ▸ ha)⟩

/-- **Giving the console on keeps the chain sound.** -/
theorem Sound.give (hs : h.Sound) (giver dst : ℕ) (exist : ℕ → Bool) :
    (h.give giver dst exist).2.Sound := by
  have hc := hs.compact exist
  rcases give_cases h giver dst exist with
    ⟨-, he⟩ | ⟨l1, l2, hl, -, ⟨m1, m2, hm, -, he⟩ | ⟨hd, -, he⟩ | ⟨-, -, he⟩⟩ <;> rw [he]
  · exact hc
  all_goals
    have hcut : Sound ⟨l1 ++ [giver]⟩ := @Sound.of_append _ _ l2 hc (by rw [hl]; simp) (by simp)
  · refine @Sound.of_append _ _ m2 hcut ?_ (by simp)
    rw [hm]
    simp
  · exact hcut.push hd
  · exact hcut

theorem Sound.reset (hs : h.Sound) : h.reset.groups = [init] := by
  obtain ⟨above, he, -⟩ := hs
  simp [Holders.reset, he]

/-- **The array has room** for a receiver that exists, if the groups that exist are no more
than it has entries. -/
theorem Sound.give_ne_EAGAIN (hs : h.Sound) {groups : List ℕ} (hinit : init ∈ groups)
    (hex : ∀ g, exist g = true → g ∈ groups) (hlen : groups.length ≤ maxProcs)
    (hdst : exist dst = true) : (h.give giver dst exist).1 ≠ .error .EAGAIN := by
  rcases give_cases h giver dst exist with
    ⟨-, he⟩ | ⟨l1, l2, hl, -, ⟨m1, m2, -, -, he⟩ | ⟨-, -, he⟩ | ⟨hd, hfull, he⟩⟩ <;> rw [he]
  iterate 3 exact nofun
  -- the chain with the receiver on top is a list of distinct groups that exist
  have hc : (h.compact exist).groups = l1 ++ [giver] ++ l2 := by rw [hl]; simp
  have hcut : Sound ⟨l1 ++ [giver]⟩ := (hs.compact exist).of_append hc (by simp)
  have hnodup := (hcut.push hd).nodup
  have hsub : l1 ++ [giver] ++ [dst] ⊆ groups := by
    intro g hg
    rcases List.mem_append.mp hg with hg | hg
    · rcases (hs.mem_compact.mp (hc ▸ List.mem_append_left _ hg)).2 with rfl | hg
      · exact hinit
      · exact hex g hg
    · rw [List.mem_singleton.mp hg]
      exact hex dst hdst
  have hle : (l1 ++ [giver] ++ [dst]).length ≤ groups.length := hnodup.length_le_of_subset hsub
  rw [List.length_append, List.length_singleton] at hle
  exact absurd hle (by omega)

end Holders

/-! ### The chain of a process table -/

namespace Table

variable {R : Type} {t t' : Table R}

/-- The holders of the console whose groups still exist, process 1's in any case. -/
def chain (t : Table R) : Holders := t.console.compact t.hasMember

/-- **The call takes the console back from the group `g`**: the error screen does from
every group, and a group below `g` does by being given the console, or by giving it. -/
def TakesBack (t : Table R) (g : ℕ) : Op R → Prop
  | .giveConsole pid dst => ∃ p, t.get pid = some p ∧ p.pgid ∈ t.chain.groups ∧
      (t.chain.Below p.pgid g ∨ t.chain.Below dst g)
  | .takeConsole => True
  | _ => False

/-- Process 1 is in the group of its own. -/
def InitLeads (t : Table R) : Prop := ∀ p ∈ t.procs, p.pid = init → p.pgid = init

theorem initLeads_of_kin {f : Kin → Kin} (hp : ∀ k, (f k).pid = k.pid)
    (hg : ∀ k, (f k).pgid = k.pgid)
    (h : InitLeads t) (hk : t'.procs.map Process.kin = t.procs.map fun p => f p.kin) :
    InitLeads t' := by
  intro p' hp' hpid
  have hm : p'.kin ∈ t.procs.map fun p => f p.kin := hk ▸ List.mem_map_of_mem hp'
  obtain ⟨p, hpm, he⟩ := List.mem_map.mp hm
  have hpid' : p.pid = p'.pid := (hp p.kin).symm.trans (congrArg Kin.pid he)
  have hpgid : p.pgid = p'.pgid := (hg p.kin).symm.trans (congrArg Kin.pgid he)
  rw [← hpgid]
  exact h p hpm (hpid'.trans hpid)

theorem groupOf_init (ht : Pids t) {ppid : ℕ} {group : Group} (hn : t.nextPid = init)
    (hgroup : t.groupAllowed ppid group = true) : t.groupOf init ppid group = init := by
  have hnil : t.procs = [] := by
    by_contra hne
    obtain ⟨p, hp⟩ := List.exists_mem_of_ne_nil _ hne
    have h1 := ht.pid_pos p hp
    have h2 := (ht.pid_lt p hp).2 (by rw [hn]; decide)
    rw [hn] at h2
    exact absurd h2 (not_lt.mpr h1)
  cases group with
  | parent => simp [groupOf, get, hnil]
  | new => rfl
  | join g => simp [groupAllowed, mayJoin, hnil] at hgroup

theorem giveConsole_procs (t : Table R) (pid dst : ℕ) :
    (t.giveConsole pid dst).2.procs = t.procs := by
  unfold giveConsole
  split <;> rfl

variable {op : Op R} {r : Reply R} {pid : ℕ}

theorem InitLeads.change (ht : Pids t) (h : InitLeads t)
    (hc : Change t op r t') : InitLeads t' := by
  cases hc with
  | stirs hs => exact initLeads_of_kin (f := id) (fun _ => rfl) (fun _ => rfl) h hs.kin_eq
  | block why =>
    exact initLeads_of_kin (f := id) (fun _ => rfl) (fun _ => rfl) h (map_alter _ _ fun _ _ => rfl)
  | born hlen hne hgroup =>
    intro p hp hpid
    rcases List.mem_append.mp hp with hp | hp
    · exact h p hp hpid
    · rw [List.mem_singleton] at hp
      subst hp
      have hn : t.nextPid = init := hpid
      simp only [hn]
      exact groupOf_init ht hn hgroup
  | @ends pid _ _ he =>
    exact initLeads_of_kin (f := Kin.afterEnd pid) (fun _ => rfl) (fun _ => rfl) h he.kin_eq
  | gone hl hz =>
    intro p hp
    refine h p ?_
    rw [hl]
    exact ((List.sublist_cons_self _ _).append_left _).subset hp
  | gave pid dst =>
    intro p hp
    rw [giveConsole_procs] at hp
    exact h p hp
  | took => exact h

theorem Change.console_eq (hc : Change t op r t')
    (hgive : ∀ pid dst, op ≠ .giveConsole pid dst) (htake : op ≠ .takeConsole) :
    t'.console = t.console := by
  cases hc with
  | stirs hs => exact hs.console_eq
  | ends he => exact he.console_eq
  | gave pid dst => exact absurd rfl (hgive pid dst)
  | took => exact absurd rfl htake
  | block | born | gone => rfl

/-- **What a call does to the console**: `give`, `take`, or nothing at all. -/
theorem console_of_step (ht : Pids t) (h : t.step op = some (r, t')) :
    (op = .takeConsole ∧ t' = t.takeConsole) ∨
    (∃ pid dst, op = .giveConsole pid dst ∧ t' = (t.giveConsole pid dst).2) ∨
    ((∀ g, ¬t.TakesBack g op) ∧ t'.console = t.console) := by
  have hc := change_of_step ht h
  cases op with
  | takeConsole =>
    cases h
    exact Or.inl ⟨rfl, rfl⟩
  | giveConsole pid dst =>
    cases h
    exact Or.inr (Or.inl ⟨pid, dst, rfl, rfl⟩)
  | _ => exact Or.inr (Or.inr ⟨fun _ => id, hc.console_eq nofun nofun⟩)

/-- **Who is in the chain after a call** was in it before, and the call does not take the
console back from it; or the call gave it the console, made by a holder. -/
theorem mem_console_of_step (ht : Pids t) (hs : t.console.Sound)
    (h : t.step op = some (r, t')) {g : ℕ} (hg : g ∈ t'.console.groups) :
    g = init ∨ (g ∈ t.console.groups ∧ ¬t.TakesBack g op) ∨
    ∃ pid p, op = .giveConsole pid g ∧ t.get pid = some p ∧ p.pgid ∈ t.console.groups ∧
      (t.giveConsole pid g).1 = .ok () := by
  rcases console_of_step ht h with ⟨rfl, rfl⟩ | ⟨pid, dst, rfl, rfl⟩ | ⟨hno, he⟩
  · have hr : g ∈ t.console.reset.groups := hg
    rw [hs.reset, List.mem_singleton] at hr
    exact Or.inl hr
  · refine Or.inr ?_
    rcases hp : t.get pid with _ | p
    · refine Or.inl ⟨by simpa [giveConsole, hp] using hg, ?_⟩
      rintro ⟨p, hp', -⟩
      rw [hp] at hp'
      cases hp'
    · simp only [giveConsole, hp] at hg
      rcases Holders.mem_give hg with ⟨rfl, hok, hgiver⟩ | ⟨hmem, hkept⟩
      · refine Or.inr ⟨pid, p, rfl, hp, (hs.mem_compact.mp hgiver).1, ?_⟩
        simpa only [giveConsole, hp] using hok
      · refine Or.inl ⟨(hs.mem_compact.mp hmem).1, ?_⟩
        rintro ⟨p', hp', hin, hbelow⟩
        rw [hp] at hp'
        cases hp'
        obtain ⟨h1, h2⟩ := hkept hin
        exact hbelow.elim h1 h2
  · exact Or.inr (Or.inl ⟨he ▸ hg, hno g⟩)

theorem sound_of_step (ht : Pids t) (hs : t.console.Sound)
    (h : t.step op = some (r, t')) : t'.console.Sound := by
  rcases console_of_step ht h with ⟨-, rfl⟩ | ⟨pid, dst, -, rfl⟩ | ⟨-, he⟩
  · exact ⟨[], hs.reset, by simp⟩
  · unfold giveConsole
    split
    · exact hs
    · exact hs.give _ _ _
  · rwa [he]

theorem giveConsole_of_notMem (hs : t.console.Sound) {dst : ℕ} {p : Process R}
    (hp : t.get pid = some p) (hg : p.pgid ∉ t.console.groups) :
    t.giveConsole pid dst = (.error .EPERM, { t with console := t.chain }) := by
  simp only [giveConsole, hp]
  rcases Holders.give_cases t.console p.pgid dst t.hasMember with ⟨-, he⟩ | ⟨l1, l2, hl, -⟩
  · rw [he]
    rfl
  · refine absurd (hs.mem_compact.mp (?_ : _ ∈ (t.console.compact t.hasMember).groups)).1 hg
    rw [hl]
    simp

/-- **The console goes to any group that has a member**, as far as room is concerned. -/
theorem giveConsole_ne_EAGAIN (ht : Pids t) (hs : t.console.Sound) (hi : InitLeads t) {dst : ℕ}
    {p1 : Process R} (hp1 : t.get init = some p1) (hdst : t.hasMember dst = true) :
    (t.giveConsole pid dst).1 ≠ .error .EAGAIN := by
  unfold giveConsole
  split
  · exact nofun
  · have hinit : init ∈ t.procs.map Process.pgid :=
      List.mem_map.mpr ⟨p1, mem_of_get hp1, hi p1 (mem_of_get hp1) (pid_of_get hp1)⟩
    refine hs.give_ne_EAGAIN hinit (fun g hg => ?_) ?_ hdst
    · obtain ⟨p, hp, he⟩ := List.any_eq_true.mp hg
      exact List.mem_map.mpr ⟨p, hp, eq_of_beq he⟩
    · rw [List.length_map]
      exact ht.size_le

/-! ### Runs -/

/-- The table after a run from an empty one. -/
def after (ops : List (Op R)) : Option (Table R) := (run ops Table.new).map Prod.snd

theorem run_append (ops ops' : List (Op R)) (t : Table R) :
    (run (ops ++ ops') t).map Prod.snd =
      (run ops t).bind fun r => (run ops' r.2).map Prod.snd := by
  induction ops generalizing t with
  | nil => rfl
  | cons op ops ih =>
    simp only [List.cons_append, run, Option.bind_eq_bind]
    rcases t.step op with _ | ⟨r, t1⟩
    · rfl
    · simp only [Option.bind_some, Option.map_bind, Option.bind_assoc]
      rw [← ih t1, Option.map_eq_bind]
      rfl

theorem after_snoc (ops : List (Op R)) (op : Op R) :
    after (ops ++ [op]) = (after ops).bind fun t => (t.step op).map Prod.snd := by
  unfold after
  rw [run_append]
  rcases run ops Table.new with _ | ⟨rs, t⟩
  · rfl
  · rcases h : t.step op with _ | ⟨r, t'⟩ <;> simp [run, h]

/-- **The group `g` was given the console in the run**, by a process whose group was in the
chain then, and no later call took it back: `g` stayed in the chain all along. -/
def GivenIn (ops : List (Op R)) (g : ℕ) : Prop :=
  ∃ before pid later t₀ p, ops = before ++ .giveConsole pid g :: later ∧
    after before = some t₀ ∧ t₀.get pid = some p ∧ p.pgid ∈ t₀.console.groups ∧
    (t₀.giveConsole pid g).1 = .ok () ∧
    ∀ mid op rest t, later = mid ++ op :: rest →
      after (before ++ .giveConsole pid g :: mid) = some t →
      g ∈ t.console.groups ∧ ¬t.TakesBack g op

theorem GivenIn.snoc {ops : List (Op R)} {g : ℕ} (h : GivenIn ops g)
    (ht : after ops = some t)  (hg : g ∈ t.console.groups) (hop : ¬t.TakesBack g op) :
    GivenIn (ops ++ [op]) g := by
  obtain ⟨before, pid, later, t0, p, rfl, h0, hp, hgiver, hok, hlater⟩ := h
  refine ⟨before, pid, later ++ [op], t0, p, by simp, h0, hp, hgiver, hok, ?_⟩
  intro mid op' rest t' hsplit ht'
  rcases List.eq_nil_or_concat rest with rfl | ⟨rest, op'', rfl⟩
  · -- the call is the new one
    obtain ⟨rfl, he⟩ := List.append_inj' hsplit rfl
    cases he
    rw [ht] at ht'
    cases ht'
    exact ⟨hg, hop⟩
  · rw [List.concat_eq_append, ← List.cons_append, ← List.append_assoc] at hsplit
    exact hlater mid op' rest t' (List.append_inj' hsplit rfl).1 ht'

/-- The calls that start, end and collect processes and hand the console on. -/
def HandsConsole : Op R → Prop
  | .insert .. | .endProc .. | .reap .. | .giveConsole .. | .takeConsole => True
  | _ => False

/-- **A run up to any point**: nothing stops dead, and every holder was given the console. -/
theorem after_spec (ops : List (Op R)) (h : ∀ op ∈ ops, HandsConsole op) :
    ∃ t, after ops = some t ∧ Inv t ∧ t.console.Sound ∧ InitLeads t ∧
      ∀ g ∈ t.console.groups, g = init ∨ GivenIn ops g := by
  induction ops using List.reverseRecOn with
  | nil =>
    refine ⟨Table.new, rfl, inv_new, Holders.sound_new, nofun, fun g hg => ?_⟩
    exact Or.inl (List.mem_singleton.mp hg)
  | append_singleton ops op ih =>
    obtain ⟨t, ht, hinv, hs, hi, hgiven⟩ := ih fun op hop => h op (List.mem_append_left _ hop)
    have hop : t.BlocksRunning op := by
      have := h op (List.mem_append_right _ (List.mem_singleton_self op))
      cases op <;> trivial
    obtain ⟨r, t', hstep, hinv'⟩ := step_inv hinv op hop
    have hsnoc : after (ops ++ [op]) = some t' := by
      rw [after_snoc, ht, Option.bind_some, hstep]
      rfl
    refine ⟨t', hsnoc, hinv', sound_of_step hinv.toPids hs hstep,
      hi.change hinv.toPids (change_of_step hinv.toPids hstep), fun g hg => ?_⟩
    rcases mem_console_of_step hinv.toPids hs hstep hg with
      h1 | ⟨hold, hno⟩ | ⟨pid, p, rfl, hp, hgiver, hok⟩
    · exact Or.inl h1
    · exact (hgiven g hold).imp_right fun hgi => hgi.snoc ht hold hno
    · refine Or.inr ⟨ops, pid, [], t, p, rfl, ht, hp, hgiver, hok, ?_⟩
      intro mid op' rest t'' hsplit
      exact absurd hsplit.symm (by simp)

/-- **Handing the console on is safe over every run** that starts, ends and collects
processes and hands the console on. The chain of holders is a list of distinct groups with
process 1's group at the bottom; a group is in it only if it is that group, or one that was
in it gave it the console and neither a group below nor the error screen took it back since;
a process whose group is not in it is refused, and only groups without a member leave the
chain by that; and while process 1 is there and the receiver has a member, there is room. -/
theorem console_handed_on (ops : List (Op R)) (h : ∀ op ∈ ops, HandsConsole op) :
    ∃ t, after ops = some t ∧
      (∃ above, t.console.groups = init :: above ∧ (init :: above).Nodup) ∧
      (∀ p, t.get init = some p → p.pgid = init) ∧
      (∀ g ∈ t.console.groups, g = init ∨ GivenIn ops g) ∧
      (∀ pid dst, t.get pid = none → t.giveConsole pid dst = (.error .EPERM, t)) ∧
      (∀ pid dst p, t.get pid = some p → p.pgid ∉ t.console.groups →
        t.giveConsole pid dst = (.error .EPERM, { t with console := t.chain })) ∧
      (∀ g, g ∈ t.chain.groups ↔ g ∈ t.console.groups ∧ (g = init ∨ ∃ p ∈ t.procs, p.pgid = g)) ∧
      (∀ pid dst, (t.get init).isSome → (∃ p ∈ t.procs, p.pgid = dst) →
        (t.giveConsole pid dst).1 ≠ .error .EAGAIN) := by
  obtain ⟨t, ht, hinv, hs, hi, hgiven⟩ := after_spec ops h
  refine ⟨t, ht, hs, fun p hp => hi p (mem_of_get hp) (pid_of_get hp), hgiven,
    fun pid dst hp => by simp only [giveConsole, hp],
    fun pid dst p hp hg => giveConsole_of_notMem hs hp hg, fun g => ?_, fun pid dst h₁ hd => ?_⟩
  · refine hs.mem_compact.trans ?_
    simp only [hasMember, List.any_eq_true, beq_iff_eq]
  · obtain ⟨p₁, hp₁⟩ := Option.isSome_iff_exists.mp h₁
    obtain ⟨p, hp, he⟩ := hd
    exact giveConsole_ne_EAGAIN hinv.toPids hs hi hp₁
      (List.any_eq_true.mpr ⟨p, hp, beq_iff_eq.mpr he⟩)

/-- Process 1 starts a job and another one, gives the first the console, and collects it. -/
def jobDone : List (Op Unit) :=
  [.insert 0 .new "init" (), .insert 1 .new "job" (), .insert 1 .new "other" (), .giveConsole 1 2,
    .endProc 2 ⟨0, 0, 0, 0, 0, 0⟩, .reap 1 .any]

theorem console_handed_on_jobDone :
    (∀ op ∈ jobDone, HandsConsole op) ∧ ∃ t, after jobDone = some t ∧
      t.console.groups = [1, 2] ∧ GivenIn jobDone 2 := by
  have hall : ∀ op ∈ jobDone, HandsConsole op := by simp [jobDone, HandsConsole]
  refine ⟨hall, ?_⟩
  obtain ⟨t, ht, -, -, hgiven, -⟩ := console_handed_on jobDone hall
  have hgroups : t.console.groups = [1, 2] := by
    have : (after jobDone).map (fun t => t.console.groups) = some [1, 2] := by decide
    rw [ht] at this
    exact Option.some.inj this
  exact ⟨t, ht, hgroups, (hgiven 2 (by rw [hgroups]; decide)).resolve_left (by decide)⟩

/-- **A refused call can change the chain**: once the job is collected, the other process,
which never held the console, is refused it, but the group of the job has left the chain
and process 1's group has the console. -/
theorem refused_give_drops_dead_groups :
    ∃ t, after jobDone = some t ∧ (t.get 3).map Process.pgid = some 3 ∧ t.console.groups = [1, 2] ∧
      (t.giveConsole 3 3).1 = .error .EPERM ∧ (t.giveConsole 3 3).2.console.groups = [1] ∧
      t.consoleGroup = 2 ∧ (t.giveConsole 3 3).2.consoleGroup = 1 :=
  ⟨_, rfl, rfl, rfl, rfl, rfl, rfl, rfl⟩

end Table

end RelayOs.Kernel
