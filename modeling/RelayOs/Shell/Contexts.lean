import RelayOs.Shell.Watch

/-!
# Contexts are made and given back

Between any two steps of the walker the watched run is **sound** (`RelayOs.Sh.View.Sound`):
the table's counts are those of the live contexts, the books of the files balance, and what
the flags say of the line is what has been seen of it – up to the news of an answer that the
shell has not yet put into its flags.
-/

namespace RelayOs.Sh

open Prog

namespace View

/-- **A sound run**, with fds that are taken and not yet part of a context, or still to be
given back. -/
structure Sound (n : News) (pending : Multiset Slot) (v : View) : Prop where
  counted : v.shell.files.Counted pending
  around : v.shell.fds ∈ v.shell.files.contexts
  books : Books v.shell.files v.next v.closed
  ended_eq : v.ended = (v.shell.endsLine || n.1)
  ctrlC_eq : v.ctrlC = (v.shell.cancelled || n.2)

/-- **The contexts `D` have been added**, and what was held is as it was. -/
structure Grown (n : News) (D : Multiset Fds) (v v' : View) : Prop where
  sound : v'.Sound n 0
  contexts_eq : v'.shell.files.contexts = D + v.shell.files.contexts
  id_eq : ∀ i, Slot.file i ∈ v.shell.files.held → v'.shell.files.id i = v.shell.files.id i
  fds_eq : v'.shell.fds = v.shell.fds
  outer_eq : v'.outer = v.outer
  next_le : v.next ≤ v'.next

/-- Nothing has happened to the line. -/
structure SameLine (v v' : View) : Prop where
  ended_eq : v'.ended = v.ended
  ends_eq : v'.shell.endsLine = v.shell.endsLine

/-- Nothing has happened to the contexts, nor to the line. -/
def Still (n : News) (v v' : View) : Prop :=
  Grown n 0 v v' ∧ SameLine v v'

variable {v v' v'' : View} {n m : News} {D D' : Multiset Fds} {pending q : Multiset Slot}

theorem Sound.grown (h : v.Sound n 0) : Grown n 0 v v :=
  ⟨h, (zero_add _).symm, fun _ _ => rfl, rfl, rfl, le_rfl⟩

theorem Sound.still (h : v.Sound n 0) : Still n v v :=
  ⟨h.grown, rfl, rfl⟩

theorem Grown.held_le (h : Grown n D v v') : v.shell.files.held ≤ v'.shell.files.held := by
  rw [Files.held, Files.held, h.contexts_eq, Multiset.add_bind]
  exact Multiset.le_add_left _ _

theorem Grown.trans (h : Grown n D v v') (h' : Grown m D' v' v'') : Grown m (D' + D) v v'' where
  sound := h'.sound
  contexts_eq := by rw [h'.contexts_eq, h.contexts_eq, add_assoc]
  id_eq i hi := by rw [h'.id_eq i (Multiset.mem_of_le h.held_le hi), h.id_eq i hi]
  fds_eq := h'.fds_eq.trans h.fds_eq
  outer_eq := h'.outer_eq.trans h.outer_eq
  next_le := h.next_le.trans h'.next_le

/-- Growth by none changes nothing of a growth. -/
theorem Grown.then (h : Grown n D v v') (h' : Grown m 0 v' v'') : Grown m D v v'' := by
  rw [← zero_add D]
  exact h.trans h'

theorem SameLine.trans (h : SameLine v v') (h' : SameLine v' v'') : SameLine v v'' :=
  ⟨h'.ended_eq.trans h.ended_eq, h'.ends_eq.trans h.ends_eq⟩

theorem Still.trans (h : Still n v v') (h' : Still n v' v'') : Still n v v'' :=
  ⟨h.1.then h'.1, h.2.trans h'.2⟩

/-- The line goes on after a part that did nothing to it. -/
theorem SameLine.going (h : SameLine v v') (hv : v.ended = false) : v'.ended = false :=
  h.ended_eq.trans hv

theorem Sound.prompt (h : v.Sound n 0) : v.Prompt := by
  intro i e he
  have hmem := h.counted.mem_of_entry he
  rwa [add_zero] at hmem

theorem Sound.noted_ended (h : v.Sound n pending) : (v.ended || v.shell.endsLine) = v.ended := by
  rw [h.ended_eq]
  cases v.shell.endsLine <;> simp

theorem Sound.noted_ctrlC (h : v.Sound n pending) : (v.ctrlC || v.shell.cancelled) = v.ctrlC := by
  rw [h.ctrlC_eq]
  cases v.shell.cancelled <;> simp

/-- A change of the shell that leaves its flags as they are. -/
theorem Sound.note (h : v.Sound n pending) {s : Shell} (he : s.endsLine = v.shell.endsLine)
    (hk : s.cancelled = v.shell.cancelled) (hc : s.files.Counted q)
    (ha : s.fds ∈ s.files.contexts) (hb : Books s.files v.next v.closed) :
    (v.note s).Sound n q ∧ SameLine v (v.note s) := by
  have hended : (v.note s).ended = v.ended := by
    show (v.ended || s.endsLine) = v.ended
    rw [he, h.noted_ended]
  refine ⟨⟨hc, ha, hb, ?_, ?_⟩, hended, he⟩
  · rw [hended, h.ended_eq, ← he]
    rfl
  · show (v.ctrlC || s.cancelled) = (s.cancelled || n.2)
    rw [hk, h.noted_ctrlC, h.ctrlC_eq]

theorem Sound.note_still (h : v.Sound n 0) {s : Shell} (he : s.endsLine = v.shell.endsLine)
    (hk : s.cancelled = v.shell.cancelled) (hf : s.files = v.shell.files)
    (hfds : s.fds = v.shell.fds) : Still n v (v.note s) := by
  obtain ⟨hs, hended⟩ := h.note he hk (hf ▸ h.counted) (by rw [hf, hfds]; exact h.around)
    (hf ▸ h.books)
  refine ⟨⟨hs, ?_, ?_, hfds, rfl, le_rfl⟩, hended⟩
  · show s.files.contexts = _
    rw [hf, zero_add]
  · intro i _
    show s.files.id i = _
    rw [hf]

theorem Sound.note_status (h : v.Sound n 0) (status : ℤ) :
    Still n v (v.note { v.shell with status := status }) :=
  h.note_still rfl rfl rfl rfl

/-- **The shell puts what was heard into its flags.** -/
theorem Sound.note_flags (h : v.Sound n 0) {s : Shell} (he : v.ended = true → s.endsLine = true)
    (hk : v.ctrlC = true → s.cancelled = true) (hf : s.files = v.shell.files)
    (hfds : s.fds = v.shell.fds) : Grown noNews 0 v (v.note s) := by
  refine ⟨⟨?_, ?_, ?_, ?_, ?_⟩, ?_, ?_, hfds, rfl, le_rfl⟩
  · exact hf ▸ h.counted
  · show s.fds ∈ s.files.contexts
    rw [hf, hfds]
    exact h.around
  · exact hf ▸ h.books
  · show (v.ended || s.endsLine) = (s.endsLine || false)
    rw [Bool.or_false]
    cases hends : v.ended with
    | false => rfl
    | true => exact (he hends).symm
  · show (v.ctrlC || s.cancelled) = (s.cancelled || false)
    rw [Bool.or_false]
    cases hcancelled : v.ctrlC with
    | false => rfl
    | true => exact (hk hcancelled).symm
  · show s.files.contexts = _
    rw [hf, zero_add]
  · intro i _
    show s.files.id i = _
    rw [hf]

/-- What the flags are while the line goes on. -/
theorem Sound.flags (h : v.Sound n pending) (hgo : v.ended = false) :
    v.shell.stopped = false ∧ v.shell.cancelled = false ∧ v.shell.abandoned = false := by
  have hends := h.ended_eq.symm.trans hgo
  simp only [Shell.endsLine, Bool.or_eq_false_iff] at hends
  exact ⟨hends.1.1.1, hends.1.1.2, hends.1.2⟩

theorem Sound.no_ctrlC (h : v.Sound noNews pending) (hgo : v.ended = false) : v.ctrlC = false := by
  rw [h.ctrlC_eq, (h.flags hgo).2.1]
  rfl

theorem Sound.note_going (h : v.Sound noNews 0) (hgo : v.ended = false) {s : Shell}
    (hf : s.files = v.shell.files) (hfds : s.fds = v.shell.fds) : Grown noNews 0 v (v.note s) :=
  h.note_flags (fun hended => by simp [hgo] at hended)
    (fun hctrlC => by simp [h.no_ctrlC hgo] at hctrlC) hf hfds

/-- An answer is news. -/
theorem Sound.hear (h : v.Sound noNews pending) (n : News) : (v.hear n).Sound n pending := by
  refine ⟨h.counted, h.around, h.books, ?_, ?_⟩
  · show (v.ended || n.1) = (v.shell.endsLine || n.1)
    rw [h.ended_eq, noNews, Bool.or_false]
  · show (v.ctrlC || n.2) = (v.shell.cancelled || n.2)
    rw [h.ctrlC_eq, noNews, Bool.or_false]

/-- Hearing changes nothing of the contexts. -/
theorem Grown.hear (h : Grown noNews D v v') (n : News) : Grown n D v (v'.hear n) :=
  ⟨h.sound.hear n, h.contexts_eq, h.id_eq, h.fds_eq, h.outer_eq, h.next_le⟩

end View

open View

variable {v v1 : View} {n : News} {D : Multiset Fds} {pending : Multiset Slot} {fds : Fds}

/-! ### Messages -/

theorem still_setOffset (h : v.Sound n 0) (i at_ : ℕ) :
    Still n v (v.note { v.shell with files := v.shell.files.setOffset i at_ }) := by
  obtain ⟨hs, hline⟩ := h.note
      (s := { v.shell with files := v.shell.files.setOffset i at_ }) rfl rfl
    (h.counted.setOffset at_) h.around (h.books.of_id (Files.id_setOffset at_))
  refine ⟨⟨hs, (zero_add _).symm, ?_, rfl, rfl, le_rfl⟩, hline⟩
  intro j _
  exact congrFun (Files.id_setOffset at_) j

/-- Something is said on a context's fd 2. -/
theorem sayOn_spec (h : v.Sound n 0) (hf : fds ∈ v.shell.files.contexts) (text : String) :
    wp watch (sayOn fds text) (fun _ v' => Still n v v') v := by
  rw [sayOn]
  cases hslot : fds 2 with
  | file i =>
    obtain ⟨e, he⟩ := h.counted.exists_entry (i := i) (by
      rw [add_zero, ← hslot]
      exact Files.mem_held hf 2)
    simp only [bind_eq, wp_bind, wp_look]
    rw [wp_ofOption (a := e.handle) (by rw [Files.handle, he]; rfl)]
    cases e.handle with
    | fd n =>
      dsimp only
      split
      · exact wp_idle rfl rfl fun _ => h.still
      · exact h.still
    | node node offset =>
      simp only [wp_bind]
      refine wp_idle rfl rfl fun at_ => ?_
      exact wp_change.mpr (still_setOffset h i at_)
  | shell n => exact wp_idle rfl rfl fun _ => h.still
  | pipeIn => exact wp_idle rfl rfl fun _ => h.still
  | pipeOut => exact wp_idle rfl rfl fun _ => h.still

theorem sync_spec : wp watch sync (fun _ v' => v' = v) v := by
  rw [sync, bind_eq, wp_bind]
  refine wp_idle rfl rfl fun error => ?_
  cases error with
  | none => rfl
  | some error => exact wp_idle rfl rfl fun _ => rfl

theorem report_spec (h : v.Sound n 0) (hf : fds ∈ v.shell.files.contexts) (message : String) :
    wp watch (report fds message) (fun _ v' => Still n v v') v := by
  rw [report]
  cases stripSuffix message "^C\n" with
  | none => exact sayOn_spec h hf message
  | some report =>
    simp only [bind_eq, wp_bind]
    exact wp_mono (sayOn_spec h hf report) fun _ v1 h1 => wp_idle rfl rfl fun _ => h1

/-- **The end of a command says what it has to say and changes nothing else.** -/
theorem finish_spec (h : v.Sound n 0) (status : ℤ) (message : String) :
    wp watch (finish status message) (fun r v' => Still n v v' ∧ r = status) v := by
  simp only [finish, bind_eq, wp_bind, wp_look]
  refine wp_mono (report_spec h h.around message) fun _ v1 h1 => ?_
  refine wp_idle rfl rfl fun _ => ?_
  refine wp_mono sync_spec fun _ v2 h2 => wp_change.mpr ?_
  subst h2
  exact ⟨h1.trans (h1.1.sound.note_status status), rfl⟩

/-- **An expansion that failed** may end the line, and nothing else. -/
theorem notExpanded_spec (h : v.Sound noNews 0) (hgo : v.ended = false) (e : ExpandError)
    (alone : Bool) : wp watch (notExpanded e alone) (fun _ v' => Grown noNews 0 v v') v := by
  rw [notExpanded, bind_eq, wp_bind, wp_change]
  have hflags := h.note_going hgo (s := { v.shell with abandoned := alone && e.abandons }) rfl rfl
  exact wp_mono (finish_spec hflags.sound 1 _) fun _ v' h' => hflags.then h'.1.1

/-! ### A slot is dropped, a context released -/

/-- What a change of the files leaves alone. -/
structure Kept (M : Multiset Slot) (v v' : View) : Prop where
  id_eq : ∀ i, Slot.file i ∈ M → v'.shell.files.id i = v.shell.files.id i
  contexts_eq : v'.shell.files.contexts = v.shell.files.contexts
  fds_eq : v'.shell.fds = v.shell.fds
  outer_eq : v'.outer = v.outer
  line : SameLine v v'
  next_eq : v'.next = v.next

/-- **Dropping a slot** closes its file if no fd holds it any more. -/
theorem dropSlot_spec {slot : Slot} (h : v.Sound n (slot ::ₘ pending)) :
    wp watch (dropSlot slot)
      (fun _ v' => v'.Sound n pending ∧ Kept (v.shell.files.held + pending) v v') v := by
  obtain ⟨hdrops, hcounted⟩ := Files.dropSlot_drops h.counted
  simp only [dropSlot, bind_eq, wp_bind, wp_look, wp_change]
  generalize v.shell.files.dropSlot slot = dropped at hdrops hcounted
  have hnote := h.note (s := { v.shell with files := dropped.1 }) (q := pending) rfl rfl hcounted
  cases hdrops with
  | keep hid hc =>
    obtain ⟨hs, hline⟩ := hnote (by rw [hc]; exact h.around) (h.books.of_id hid)
    exact ⟨hs, fun i _ => congrFun hid i, hc, rfl, rfl, hline, rfl⟩
  | @last files' i e he hi hentry hc =>
    have hended : (v.note { v.shell with files := files' }).ended = v.ended := by
      exact h.noted_ended
    refine wp_call.mpr ⟨⟨by rintro ⟨⟩, by rintro ⟨⟩, by rintro _ ⟨⟩, ?_⟩, ?_⟩
    · rintro i' e' ⟨⟩
      refine ⟨h.books.entry_lt i e he, h.books.not_closed i e he, ?_⟩
      intro hheld
      refine hi (Multiset.mem_add.mpr (.inl ?_))
      rw [Files.held, ← hc]
      exact hheld
    · rintro - _ rfl
      refine ⟨⟨hcounted, ?_, h.books.close he hentry, ?_, ?_⟩, ?_, hc, rfl, rfl, ⟨hended, rfl⟩, rfl⟩
      · show v.shell.fds ∈ files'.contexts
        rw [hc]
        exact h.around
      · exact hended.trans h.ended_eq
      · exact h.noted_ctrlC.trans h.ctrlC_eq
      · intro j hj
        show files'.id j = v.shell.files.id j
        have hij : i ≠ j := by
          rintro rfl
          exact hi hj
        rw [Files.id, hentry, if_neg hij, Files.id]

theorem Kept.held_eq {M : Multiset Slot} {v v' : View} (h : Kept M v v') :
    v'.shell.files.held = v.shell.files.held := by
  rw [Files.held, h.contexts_eq, Files.held]

/-- **A context is released**, one of those that were added. -/
theorem release_spec (haround : v.shell.fds ∈ v.shell.files.contexts)
    (hg : Grown n (fds ::ₘ D) v v1) :
    wp watch (release fds) (fun _ v2 => Grown n D v v2 ∧ SameLine v1 v2) v1 := by
  have hcontexts : v1.shell.files.contexts = fds ::ₘ (D + v.shell.files.contexts) := by
    rw [hg.contexts_eq, Multiset.cons_add]
  have hforget : (v1.shell.files.forget fds).contexts = D + v.shell.files.contexts := by
    show v1.shell.files.contexts.erase fds = _
    rw [hcontexts, Multiset.erase_cons_head]
  have haround1 : v1.shell.fds ∈ (v1.shell.files.forget fds).contexts := by
    rw [hforget, hg.fds_eq]
    exact Multiset.mem_add.mpr (.inr haround)
  obtain ⟨hs, hline⟩ := hg.sound.note (s := { v1.shell with files := v1.shell.files.forget fds })
    rfl rfl (hg.sound.counted.forget (by rw [hcontexts]; exact Multiset.mem_cons_self _ _)) haround1
    (hg.sound.books.of_id rfl)
  simp only [release, bind_eq, wp_bind, wp_change]
  generalize hv2 : v1.note { v1.shell with files := v1.shell.files.forget fds } = v2 at hs hline
  refine wp_mono (dropSlot_spec hs) fun _ v3 h3 => ?_
  refine wp_mono (dropSlot_spec h3.1) fun _ v4 h4 => ?_
  have hs4 : v4.Sound n (fds 2 ::ₘ 0) := h4.1
  refine wp_mono (dropSlot_spec hs4) fun _ v5 h5 => ⟨⟨h5.1, ?_, ?_, ?_, ?_, ?_⟩, ?_⟩
  · rw [h5.2.contexts_eq, h4.2.contexts_eq, h3.2.contexts_eq, ← hforget, ← hv2]
    rfl
  · intro i hi
    have hheld : Slot.file i ∈ v2.shell.files.held := by
      rw [← hv2]
      show Slot.file i ∈ (v1.shell.files.forget fds).contexts.bind Fds.slots
      rw [hforget, Multiset.add_bind]
      exact Multiset.mem_add.mpr (.inr hi)
    have hheld3 := h3.2.held_eq ▸ hheld
    have hheld4 := h4.2.held_eq ▸ hheld3
    rw [h5.2.id_eq i (Multiset.mem_add.mpr (.inl hheld4)),
      h4.2.id_eq i (Multiset.mem_add.mpr (.inl hheld3)),
      h3.2.id_eq i (Multiset.mem_add.mpr (.inl hheld)), ← hg.id_eq i hi, ← hv2]
    rfl
  · rw [h5.2.fds_eq, h4.2.fds_eq, h3.2.fds_eq, ← hg.fds_eq, ← hv2]
    rfl
  · rw [h5.2.outer_eq, h4.2.outer_eq, h3.2.outer_eq, ← hg.outer_eq, ← hv2]
    rfl
  · rw [h5.2.next_eq, h4.2.next_eq, h3.2.next_eq, ← hv2]
    exact hg.next_le
  · exact ((hline.trans h3.2.line).trans h4.2.line).trans h5.2.line

/-! ### Contexts are made -/

/-- **An fd of a context being made is replaced**: the slot it becomes has been taken. -/
theorem replace_spec {slot : Slot} (k : Fin 3) (h : v1.Sound n {slot})
    (haround : v.shell.fds ∈ v.shell.files.contexts)
    (hc : v1.shell.files.contexts = fds ::ₘ v.shell.files.contexts)
    (hid : ∀ i, Slot.file i ∈ v.shell.files.held → v1.shell.files.id i = v.shell.files.id i)
    (hfds : v1.shell.fds = v.shell.fds) (houter : v1.outer = v.outer) (hnext : v.next ≤ v1.next) :
    wp watch (replace fds k slot)
      (fun _ v2 => Grown n {fds.set k slot} v v2 ∧ SameLine v1 v2) v1 := by
  have hturn : (v1.shell.files.turn fds (fds.set k slot)).contexts =
      fds.set k slot ::ₘ v.shell.files.contexts := by
    show fds.set k slot ::ₘ v1.shell.files.contexts.erase fds = _
    rw [hc, Multiset.erase_cons_head]
  have haround1 : v1.shell.fds ∈ (v1.shell.files.turn fds (fds.set k slot)).contexts := by
    rw [hturn, hfds]
    exact Multiset.mem_cons_of_mem haround
  have hmem : fds ∈ v1.shell.files.contexts := by
    rw [hc]
    exact Multiset.mem_cons_self _ _
  obtain ⟨hs, hline⟩ := h.note
    (s := { v1.shell with files := v1.shell.files.turn fds (fds.set k slot) }) rfl rfl
    (h.counted.turn hmem) haround1 (h.books.of_id rfl)
  simp only [replace, bind_eq, wp_bind, wp_change]
  have hs' : (v1.note { v1.shell with files := v1.shell.files.turn fds (fds.set k slot) }).Sound n
      (fds k ::ₘ 0) := hs
  refine wp_mono (dropSlot_spec hs') fun _ v2 h2 => ⟨⟨h2.1, ?_, ?_, ?_, ?_, ?_⟩, ?_⟩
  · rw [h2.2.contexts_eq]
    exact hturn
  · intro i hi
    rw [← hid i hi]
    refine h2.2.id_eq i ?_
    rw [add_zero]
    show Slot.file i ∈ (v1.shell.files.turn fds (fds.set k slot)).contexts.bind Fds.slots
    rw [hturn, Multiset.cons_bind]
    exact Multiset.mem_add.mpr (.inr hi)
  · rw [← hfds]
    exact h2.2.fds_eq
  · rw [← houter]
    exact h2.2.outer_eq
  · rw [h2.2.next_eq]
    exact hnext
  · exact hline.trans h2.2.line

/-- The context a redirection leaves, made or not. -/
def leftBy : Except Failed Fds → Fds
  | .ok fds => fds
  | .error failed => failed.fds

section

variable (hv : v.shell.fds ∈ v.shell.files.contexts)

include hv

/-- **A file is opened** and becomes an fd of the context. -/
theorem openOn_spec (hg : Grown n {fds} v v1) (hgo : v1.ended = false)
    (op : RedirectOp String) (k : Fin 3) :
    wp watch (openOn op k fds) (fun r v2 => Grown n {leftBy r} v v2 ∧ v2.ended = false) v1 := by
  have hs := hg.sound
  rw [openOn, bind_eq, wp_bind]
  refine wp_call.mpr ⟨.of_going hgo hs.prompt rfl (fun _ _ => nofun), ?_⟩
  intro reply v2 hreply
  cases reply with
  | error error =>
    obtain rfl : v2 = v1 := hreply
    exact ⟨hg, hgo⟩
  | ok file =>
    obtain ⟨key, handle⟩ := file
    obtain ⟨hkey, rfl⟩ := hreply
    obtain rfl : key = v1.next := hkey
    simp only [addFile, bind_eq, wp_bind, wp_look, wp_change, pure_eq, wp_ret]
    have haround : v1.shell.fds ∈ (v1.shell.files.add v1.next handle).1.contexts := by
      rw [Files.contexts_add]
      exact hs.around
    have hentry := Files.entry_add v1.shell.files v1.next handle
    refine wp_mono (replace_spec (v := v) k ⟨hs.counted.add v1.next handle, haround,
      hs.books.add handle, ?_, ?_⟩ hv ?_ ?_ hg.fds_eq hg.outer_eq
      (Nat.le_succ_of_le hg.next_le)) fun _ v2 h2 => ⟨h2.1, h2.2.going (hs.noted_ended.trans hgo)⟩
    · exact hs.noted_ended.trans hs.ended_eq
    · exact hs.noted_ctrlC.trans hs.ctrlC_eq
    · show (v1.shell.files.add v1.next handle).1.contexts = _
      rw [Files.contexts_add, hg.contexts_eq, Multiset.singleton_add]
    · intro i hi
      rw [← hg.id_eq i hi]
      show (v1.shell.files.add v1.next handle).1.id i = v1.shell.files.id i
      -- the place was free, so it is not that of a file that is held
      have hne : (v1.shell.files.add v1.next handle).2 ≠ i := by
        rintro rfl
        obtain ⟨e, he⟩ := hs.counted.exists_entry
          (Multiset.mem_add.mpr (.inl (Multiset.mem_of_le hg.held_le hi)))
        rw [hentry.1] at he
        cases he
      rw [Files.id, hentry.2, if_neg hne, Files.id]

/-- **One more fd of a context holds what another one does.** -/
theorem copyOn_spec (hg : Grown n {fds} v v1) (hgo : v1.ended = false)
    (k' k : Fin 3) :
    wp watch (copyOn k' k fds) (fun r v2 => Grown n {leftBy r} v v2 ∧ v2.ended = false) v1 := by
  have hs := hg.sound
  have hcontexts : v1.shell.files.contexts = fds ::ₘ v.shell.files.contexts := by
    rw [hg.contexts_eq, Multiset.singleton_add]
  have hmem : fds ∈ v1.shell.files.contexts := by
    rw [hcontexts]
    exact Multiset.mem_cons_self _ _
  have haround : v1.shell.fds ∈ (v1.shell.files.holdSlot (fds k')).contexts := by
    rw [Files.contexts_holdSlot]
    exact hs.around
  obtain ⟨hs', hline⟩ := hs.note
    (s := { v1.shell with files := v1.shell.files.holdSlot (fds k') }) rfl rfl
    (hs.counted.holdSlot (fds k') fun _ _ => Multiset.mem_add.mpr (.inl (Files.mem_held hmem k')))
    haround (hs.books.of_id (Files.id_holdSlot _))
  simp only [copyOn, bind_eq, wp_bind, wp_change, pure_eq, wp_ret]
  refine wp_mono (replace_spec (v := v) k hs' hv ?_ ?_ hg.fds_eq hg.outer_eq hg.next_le)
    fun _ v2 h2 => ⟨h2.1, (hline.trans h2.2).going hgo⟩
  · show (v1.shell.files.holdSlot (fds k')).contexts = _
    rw [Files.contexts_holdSlot, hcontexts]
  · intro i hi
    rw [← hg.id_eq i hi]
    exact congrFun (Files.id_holdSlot _) i

theorem redirectOne_spec (hg : Grown n {fds} v v1) (hgo : v1.ended = false)
    (r : Redirect String) :
    wp watch (redirectOne r fds) (fun r v2 => Grown n {leftBy r} v v2 ∧ v2.ended = false) v1 := by
  rw [redirectOne]
  cases r.op with
  | copy k => exact copyOn_spec hv hg hgo k r.fd
  | read path => exact openOn_spec hv hg hgo _ r.fd
  | write path => exact openOn_spec hv hg hgo _ r.fd
  | append path => exact openOn_spec hv hg hgo _ r.fd

/-- **Redirections are made** one after another, or fail and leave what was made. -/
theorem redirectFrom_spec (redirects : List (Redirect String))
    (hg : Grown n {fds} v v1) (hgo : v1.ended = false) :
    wp watch (redirectFrom redirects fds)
      (fun r v2 => Grown n {leftBy r} v v2 ∧ v2.ended = false) v1 := by
  induction redirects generalizing fds v1 with
  | nil => exact ⟨hg, hgo⟩
  | cons r rest ih =>
    rw [redirectFrom, bind_eq, wp_bind]
    refine wp_mono (redirectOne_spec hv hg hgo r) fun one v2 h2 => ?_
    cases one with
    | ok fds' => exact ih h2.1 h2.2
    | error failed => exact h2

end

/-- The context `made` leaves, whole or not. -/
def leftOver : Except (Fds × String) Fds → Fds
  | .ok fds => fds
  | .error failed => failed.1

/-- **A context over fds that are open.** -/
theorem made_spec (h : v.Sound n 0) (hgo : v.ended = false) {base : Fds}
    (hbase : ∀ k i, base k = .file i → base k ∈ v.shell.files.held)
    (redirects : List (Redirect String)) :
    wp watch (made base redirects) (fun r v' => Grown n {leftOver r} v v' ∧
      v'.ended = false) v := by
  have haround : v.shell.fds ∈ (v.shell.files.hold base).contexts := by
    rw [Files.contexts_hold]
    exact Multiset.mem_cons_of_mem h.around
  obtain ⟨hs, hline⟩ := h.note (s := { v.shell with files := v.shell.files.hold base }) rfl rfl
    (h.counted.hold hbase) haround (h.books.of_id (Files.id_hold _))
  have hg : Grown n {base} v (v.note { v.shell with files := v.shell.files.hold base }) := by
    refine ⟨hs, ?_, ?_, rfl, rfl, le_rfl⟩
    · show (v.shell.files.hold base).contexts = _
      rw [Files.contexts_hold, Multiset.singleton_add]
    · intro i _
      exact congrFun (Files.id_hold _) i
  simp only [made, bind_eq, wp_bind, wp_change]
  refine wp_mono (redirectFrom_spec h.around redirects hg (hline.going hgo)) fun r v' h' => ?_
  cases r with
  | ok fds => exact h'
  | error failed => exact h'

/-- A context that `redirect` or `make` gives back has been added; without one, none has. -/
def given : Option Fds → Multiset Fds
  | some fds => {fds}
  | none => 0

theorem base_held (h : v.Sound n 0) (k : Fin 3) (i : ℕ) (_ : v.shell.fds k = .file i) :
    v.shell.fds k ∈ v.shell.files.held :=
  Files.mem_held h.around k

/-- A context that was made is among the live ones. -/
theorem Grown.mem (hg : Grown n (fds ::ₘ D) v v1) : fds ∈ v1.shell.files.contexts := by
  rw [hg.contexts_eq, Multiset.cons_add]
  exact Multiset.mem_cons_self _ _

theorem redirect_spec (h : v.Sound n 0) (hgo : v.ended = false) {base : Fds}
    (hbase : ∀ k i, base k = .file i → base k ∈ v.shell.files.held)
    (redirects : List (Redirect String)) :
    wp watch (redirect base redirects) (fun r v' => Grown n (given r) v v' ∧
      v'.ended = false) v := by
  rw [redirect, bind_eq, wp_bind]
  refine wp_mono (made_spec h hgo hbase redirects) fun r v1 h1 => ?_
  cases r with
  | ok fds => exact h1
  | error failed =>
    obtain ⟨fds, message⟩ := failed
    have hg : Grown n (fds ::ₘ 0) v v1 := h1.1
    simp only [bind_eq, wp_bind]
    refine wp_mono (sayOn_spec hg.sound (Grown.mem hg) message) fun _ v2 h2 => ?_
    exact wp_mono (release_spec h.around (hg.then h2.1)) fun _ v3 h3 =>
      ⟨h3.1, (h2.2.trans h3.2).going h1.2⟩

theorem expandTargets_spec (h : v.Sound n 0) (hgo : v.ended = false)
    (redirects : List (Redirect Word)) :
    wp watch (expandTargets redirects) (fun _ v' => v' = v) v := by
  induction redirects with
  | nil => rfl
  | cons r rest ih =>
    simp only [expandTargets, bind_eq, wp_bind, wp_look]
    refine wp_going rfl rfl hgo h.prompt fun reply => ?_
    cases reply with
    | ok r' =>
      simp only [wp_bind]
      exact wp_mono ih fun _ v' h' => h'
    | error e => rfl

/-- **`make`** gives a context while the line goes on, or none and adds none. -/
theorem make_spec (h : v.Sound noNews 0) (hgo : v.ended = false)
    (redirects : List (Redirect Word)) :
    wp watch (make v.shell.fds redirects)
      (fun r v' => Grown noNews (given r) v v' ∧ (r.isSome = true → v'.ended = false)) v := by
  rw [make, bind_eq, wp_bind]
  refine wp_mono (expandTargets_spec h hgo redirects) fun expanded v1 h1 => ?_
  subst h1
  obtain ⟨expanded, failed⟩ := expanded
  dsimp only
  rw [bind_eq, wp_bind]
  refine wp_mono (redirect_spec h hgo (base_held h) expanded) fun r v2 h2 => ?_
  cases r with
  | none => exact ⟨h2.1, nofun⟩
  | some fds =>
    cases failed with
    | none => exact ⟨h2.1, fun _ => h2.2⟩
    | some e =>
      have hg : Grown noNews (fds ::ₘ 0) v1 v2 := h2.1
      simp only [bind_eq, wp_bind, wp_change]
      have hflags := hg.then
        (hg.sound.note_going h2.2 (s := { v2.shell with abandoned := e.abandons }) rfl rfl)
      refine wp_mono (sayOn_spec hflags.sound (Grown.mem hflags) _) fun _ v3 h3 => ?_
      exact wp_mono (release_spec h.around (hflags.then h3.1)) fun _ v4 h4 => ⟨h4.1, nofun⟩

/-! ### The contexts of a pipeline -/

/-- The contexts of the stages that have one. -/
def stageContexts (all : List (Option Fds × Option String)) : Multiset Fds :=
  (all.filterMap (·.1) : List Fds)

theorem stageBase_held (h : v.Sound n 0) {first last : Bool} (k : Fin 3) (i : ℕ)
    (hi : stageBase v.shell.fds first last k = .file i) :
    stageBase v.shell.fds first last k ∈ v.shell.files.held := by
  have hown : ∀ k', stageBase v.shell.fds first last k = v.shell.fds k' →
      stageBase v.shell.fds first last k ∈ v.shell.files.held := fun k' heq => by
    rw [heq]
    exact Files.mem_held h.around k'
  fin_cases k
  · cases first with
    | true => exact hown 0 rfl
    | false => cases hi
  · cases last with
    | true => exact hown 1 rfl
    | false => cases hi
  · exact hown 2 rfl

theorem stageContext_spec (h : v.Sound n 0) (hgo : v.ended = false) {base : Fds}
    (hbase : ∀ k i, base k = .file i → base k ∈ v.shell.files.held)
    (redirects : List (Redirect String)) :
    wp watch (stageContext base redirects)
      (fun one v' => Grown n (given one.1) v v' ∧ v'.ended = false) v := by
  rw [stageContext, bind_eq, wp_bind]
  refine wp_mono (made_spec h hgo hbase redirects) fun r v1 h1 => ?_
  cases r with
  | ok fds => exact h1
  | error failed =>
    obtain ⟨fds, message⟩ := failed
    have hg : Grown n (fds ::ₘ 0) v v1 := h1.1
    have hsay : ∀ piped : Bool, wp watch (if piped = true then pure () else sayOn fds message)
        (fun _ v' => Still n v1 v') v1 := by
      intro piped
      cases piped with
      | true => exact hg.sound.still
      | false => exact sayOn_spec hg.sound (Grown.mem hg) message
    simp only [bind_eq, wp_bind]
    refine wp_mono (hsay _) fun _ v2 h2 => ?_
    exact wp_mono (release_spec h.around (hg.then h2.1)) fun _ v3 h3 =>
      ⟨h3.1, (h2.2.trans h3.2).going h1.2⟩

theorem stageContexts_cons (one : Option Fds × Option String)
    (more : List (Option Fds × Option String)) :
    stageContexts (one :: more) = stageContexts more + given one.1 := by
  obtain ⟨fds, message⟩ := one
  cases fds with
  | none => exact (add_zero _).symm
  | some fds =>
    show ((fds :: more.filterMap (·.1) : List Fds) : Multiset Fds) = _ + {fds}
    rw [add_comm, Multiset.singleton_add, ← Multiset.cons_coe]
    rfl

/-- **Each stage's context is made.** -/
theorem stageFds_spec (h : v.Sound n 0) (hgo : v.ended = false) (first : Bool)
    (stages : List (Command String)) :
    wp watch (stageFds first stages)
      (fun all v' => Grown n (stageContexts all) v v' ∧ v'.ended = false) v := by
  induction stages generalizing v first with
  | nil => exact ⟨h.grown, hgo⟩
  | cons stage rest ih =>
    simp only [stageFds, bind_eq, wp_bind, wp_look]
    refine wp_mono (stageContext_spec h hgo (stageBase_held h) stage.redirects) fun one v1 h1 => ?_
    refine wp_mono (ih h1.1.sound h1.2 false) fun more v2 h2 => ⟨?_, h2.2⟩
    rw [stageContexts_cons]
    exact h1.1.trans h2.1

theorem releaseAll_spec (h : v.shell.fds ∈ v.shell.files.contexts) (all : List Fds)
    (hg : Grown n (all : Multiset Fds) v v1) :
    wp watch (releaseAll all) (fun _ v2 => Grown n 0 v v2 ∧ SameLine v1 v2) v1 := by
  induction all generalizing v1 with
  | nil => exact ⟨hg, rfl, rfl⟩
  | cons fds rest ih =>
    rw [releaseAll, bind_eq, wp_bind]
    rw [← Multiset.cons_coe] at hg
    refine wp_mono (release_spec h hg) fun _ v2 h2 => ?_
    exact wp_mono (ih h2.1) fun _ v3 h3 => ⟨h3.1, h2.2.trans h3.2⟩

theorem putOffsets_spec (h : v.Sound n 0) (moved : List (ℕ × ℕ)) :
    wp watch (putOffsets moved) (fun _ v' => Still n v v') v := by
  induction moved generalizing v with
  | nil => exact h.still
  | cons m rest ih =>
    obtain ⟨i, n⟩ := m
    have hstill := still_setOffset h i n
    rw [putOffsets, bind_eq, wp_bind, wp_change]
    exact wp_mono (ih hstill.1.sound) fun _ v' h' => hstill.trans h'

end RelayOs.Sh
