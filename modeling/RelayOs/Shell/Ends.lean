import RelayOs.Shell.Contexts

/-!
# Every part of the walker

Each part of the walker, from one command to a whole list, is **fine** (`RelayOs.Sh.Fine`): started
in a sound run whose line has not ended, it asks only what is allowed – in particular, it starts,
expands, sets and opens nothing after the line has ended – and gives back every context it made. For
the tree this is one induction (`RelayOs.Sh.itemsFrom_fine` and its companions), and what carries it
is that each level looks at the flags before it goes on.
-/

namespace RelayOs.Sh

open Prog View

/-- **A part that asks only what is allowed and gives back what it took.** -/
def Fine {α : Type} (p : Walk α) : Prop :=
  ∀ v : View, v.Sound noNews 0 → v.ended = false → wp watch p (fun _ v' => Grown noNews 0 v v') v

variable {α : Type} {v v1 : View} {fds : Fds} {script : Script → Walk ℤ}

/-! ### Pipelines and jobs -/

theorem finish_fine (status : ℤ) (message : String) : Fine (finish status message) :=
  fun _ h _ => wp_mono (finish_spec h status message) fun _ _ h' => h'.1.1

/-- The end of a part, however it got there. -/
theorem finish_grown (hg : Grown noNews 0 v v1) (status : ℤ) (message : String) :
    wp watch (finish status message) (fun _ v' => Grown noNews 0 v v') v1 :=
  wp_mono (finish_spec hg.sound status message) fun _ _ h' => hg.then h'.1.1

theorem notExpanded_fine (e : ExpandError) (alone : Bool) : Fine (notExpanded e alone) :=
  fun _ h hgo => notExpanded_spec h hgo e alone

theorem notExpanded_grown (hg : Grown noNews 0 v v1) (hgo : v1.ended = false) (e : ExpandError)
    (alone : Bool) : wp watch (notExpanded e alone) (fun _ v' => Grown noNews 0 v v') v1 :=
  wp_mono (notExpanded_spec hg.sound hgo e alone) fun _ _ h' => hg.then h'

theorem ownMessage_spec {n : News} (h : v.Sound n 0) (ran : Ran) {fds : Option Fds}
    (hf : ∀ f, fds = some f → f ∈ v.shell.files.contexts) :
    wp watch (ownMessage ran fds) (fun _ v' => Still n v v') v := by
  unfold ownMessage
  split
  · simp only [bind_eq, wp_bind]
    exact wp_mono (sayOn_spec h (hf _ rfl) ran.message) fun _ _ h' => h'
  · exact h.still

theorem stages_opened {all : List (Option Fds × Option String)}
    (hg : Grown noNews (stageContexts all) v v1) (stages : List (Command String)) :
    ∀ f ∈ (runnerStages stages all).filterMap Stage.fds, ∀ k i, f k = .file i →
      ∃ e, v1.shell.files.entry i = some e := by
  intro f hf k i hk
  have hmem : f ∈ v1.shell.files.contexts := by
    rw [hg.contexts_eq]
    refine Multiset.mem_add.mpr (.inl ?_)
    obtain ⟨stage, hstage, hfds⟩ := List.mem_filterMap.mp hf
    obtain ⟨⟨c, a⟩, hzip, rfl⟩ := List.mem_map.mp hstage
    exact List.mem_filterMap.mpr ⟨a, (List.of_mem_zip hzip).2, hfds⟩
  refine hg.sound.counted.exists_entry (Multiset.mem_add.mpr (.inl ?_))
  rw [← hk]
  exact Files.mem_held hmem k

/-- **A pipeline.** -/
theorem pipeline_fine (stages : List (Command String)) : Fine (pipeline stages) := by
  intro v h hgo
  rw [pipeline]
  cases builtinIn stages with
  | some name => exact finish_fine _ _ v h hgo
  | none =>
    simp only [bind_eq, wp_bind]
    refine wp_mono (stageFds_spec h hgo true stages) fun all v1 h1 => ?_
    refine wp_call.mpr ⟨⟨fun _ => h1.2, fun _ => h1.1.sound.prompt, stages_opened h1.1 stages,
      fun _ _ => nofun⟩, ?_⟩
    rintro ⟨ran, moved⟩ _ rfl
    have hg1 := h1.1.hear (ran.cancelled, ran.cancelled)
    refine wp_mono (putOffsets_spec hg1.sound moved) fun _ v2 h2 => ?_
    have hg2 := hg1.then h2.1
    refine wp_mono (ownMessage_spec h2.1.sound ran ?_) fun message v3 h3 => ?_
    · intro f hf
      rw [hg2.contexts_eq]
      refine Multiset.mem_add.mpr (.inl ?_)
      obtain ⟨a, ha, hfds⟩ := Option.bind_eq_some_iff.mp hf
      exact List.mem_filterMap.mpr ⟨a, List.mem_of_getLast? ha, hfds⟩
    refine wp_mono (releaseAll_spec h.around _ (hg2.then h3.1)) fun _ v4 h4 => ?_
    refine wp_idle rfl rfl fun _ => wp_change.mpr ?_
    -- the news are put into the flags
    have hflags := h4.1.sound.note_flags (s := { v4.shell with
      cancelled := v4.shell.cancelled || ran.cancelled }) ?_ ?_ rfl rfl
    · exact finish_grown (h4.1.then hflags) _ _
    · rw [h4.1.sound.ended_eq]
      simp only [Shell.endsLine, Bool.or_eq_true]
      tauto
    · rw [h4.1.sound.ctrlC_eq]
      exact id

theorem announce_spec (h : v.Sound noNews 0) (started : Started) (text : String) :
    wp watch (announce started text) (fun _ v' => Still noNews v v') v := by
  rw [announce]
  cases started.pgid with
  | none => exact h.still
  | some pgid =>
    simp only [bind_eq, wp_bind]
    refine wp_idle rfl rfl fun number => wp_look.mpr ?_
    by_cases hsays : (v.shell.prompting && !v.shell.inScript) = true
    · rw [if_pos hsays]
      exact sayOn_spec h h.around _
    · rw [if_neg hsays]
      exact h.still

/-- **A background job.** -/
theorem background_fine (stages : List (Command String)) (text : String) :
    Fine (background stages text) := by
  intro v h hgo
  rw [background]
  cases builtinIn stages with
  | some name => exact finish_fine _ _ v h hgo
  | none =>
    simp only [bind_eq, wp_bind]
    refine wp_mono (stageFds_spec h hgo true stages) fun all v1 h1 => ?_
    refine wp_call.mpr ⟨⟨fun _ => h1.2, fun _ => h1.1.sound.prompt, stages_opened h1.1 stages,
      fun _ _ => nofun⟩, ?_⟩
    rintro started _ rfl
    refine wp_mono (releaseAll_spec h.around _ h1.1) fun _ v2 h2 => ?_
    refine wp_mono (announce_spec h2.1.sound started text) fun _ v3 h3 => ?_
    exact finish_grown (h2.1.then h3.1) _ _

/-! ### One command -/

theorem setAll_spec (h : v.Sound noNews 0) (hgo : v.ended = false)
    (pairs : List (String × String)) :
    wp watch (setAll pairs) (fun _ v' => v' = v) v := by
  induction pairs with
  | nil => rfl
  | cons pair rest ih =>
    rw [setAll, bind_eq, wp_bind]
    refine wp_going rfl rfl hgo h.prompt fun reply => ?_
    cases reply with
    | ok _ => exact ih
    | error e => rfl

theorem assignAll_spec (h : v.Sound noNews 0) (hgo : v.ended = false)
    (pairs : List (String × Word)) :
    wp watch (assignAll pairs) (fun _ v' => v' = v) v := by
  induction pairs with
  | nil => rfl
  | cons pair rest ih =>
    simp only [assignAll, bind_eq, wp_bind, wp_look]
    refine wp_going rfl rfl hgo h.prompt fun reply => ?_
    cases reply with
    | error e => rfl
    | ok value =>
      simp only [wp_bind]
      refine wp_going rfl rfl hgo h.prompt fun reply => ?_
      cases reply with
      | error e => rfl
      | ok _ => exact ih

/-- **A line of assignments.** -/
theorem assign_fine (command : Command Word) : Fine (assign command) := by
  intro v h hgo
  rw [assign, bind_eq, wp_bind]
  refine wp_mono (assignAll_spec h hgo _) fun reply v1 h1 => ?_
  subst h1
  cases reply with
  | error e => exact notExpanded_fine e true v1 h hgo
  | ok _ =>
    simp only [bind_eq, wp_bind, wp_look]
    refine wp_mono (make_spec h hgo command.redirects) fun made v2 h2 => ?_
    cases made with
    | none => exact finish_grown h2.1 _ _
    | some fds =>
      simp only [wp_bind]
      exact wp_mono (release_spec (D := 0) h.around h2.1) fun _ v3 h3 => finish_grown h3.1 _ _

/-- **A part that runs in a context.** -/
theorem within_spec (h : v.Sound noNews 0) (hg : Grown noNews {fds} v v1)
    (hgo : v1.ended = false) {p : Walk ℤ}
    (hp : Fine p) : wp watch (within fds p) (fun _ v2 => Grown noNews {fds} v v2) v1 := by
  have hmem : fds ∈ v1.shell.files.contexts := Grown.mem (D := 0) hg
  obtain ⟨hs, hline⟩ := hg.sound.note (s := { v1.shell with fds := fds }) rfl rfl hg.sound.counted
    hmem hg.sound.books
  simp only [within, bind_eq, wp_bind, wp_look, wp_change, pure_eq, wp_ret]
  refine wp_mono (hp _ hs (hline.going hgo)) fun _ v3 h3 => ?_
  have hcontexts : v3.shell.files.contexts = fds ::ₘ v.shell.files.contexts := by
    rw [h3.contexts_eq, zero_add]
    exact hg.contexts_eq.trans (Multiset.singleton_add _ _)
  have haround : v1.shell.fds ∈ v3.shell.files.contexts := by
    rw [hcontexts, hg.fds_eq]
    exact Multiset.mem_cons_of_mem h.around
  obtain ⟨hs3, -⟩ := h3.sound.note (s := { v3.shell with fds := v1.shell.fds }) rfl rfl
    h3.sound.counted haround h3.sound.books
  refine ⟨hs3, ?_, ?_, hg.fds_eq, h3.outer_eq.trans hg.outer_eq, hg.next_le.trans h3.next_le⟩
  · exact hcontexts.trans (Multiset.singleton_add _ _).symm
  · intro i hi
    rw [← hg.id_eq i hi]
    exact h3.id_eq i (Multiset.mem_of_le hg.held_le hi)

/-- **After a command**, what its end says of the line is put into the flags. -/
theorem settle_spec (hscript : ∀ sc, Fine (script sc)) (h : v.Sound noNews 0) {ran : Ran}
    (hg : Grown ran.news {fds} v v1) (hends : v1.shell.endsLine = false) :
    wp watch (settle script fds ran) (fun _ v2 => Grown noNews 0 v v2) v1 := by
  simp only [settle, bind_eq, wp_bind]
  refine wp_mono (ownMessage_spec hg.sound ran ?_) fun message v2 h2 => wp_change.mpr ?_
  · rintro f ⟨⟩
    exact Grown.mem (D := 0) hg
  have hends2 := h2.2.ends_eq.trans hends
  have hflags := h2.1.sound.note_flags (s := { v2.shell with
    stopped := ran.stop, exited := ran.exited, cancelled := v2.shell.cancelled || ran.cancelled })
    ?_ ?_ rfl rfl
  · have hg3 := (hg.then h2.1).then hflags
    refine wp_mono (Q := fun _ v4 => Grown noNews {fds} v v4) ?_ fun status v4 h4 => ?_
    · rw [scriptOr]
      cases hsc : ran.script with
      | none => exact hg3
      | some sc =>
        -- a command that leaves a script has neither stopped the shell nor seen Ctrl-C
        obtain ⟨hstop, hcancelled⟩ := ran.of_script (by rw [hsc]; rfl)
        simp only [Shell.endsLine, Bool.or_eq_false_iff] at hends2
        refine within_spec h hg3 ?_ (hscript sc)
        rw [hg3.sound.ended_eq]
        show (ran.stop || (v2.shell.cancelled || ran.cancelled) || v2.shell.abandoned || false) =
          false
        rw [hstop, hends2.1.2, hcancelled, hends2.2]
        rfl
    · exact wp_mono (release_spec (D := 0) h.around h4) fun _ v5 h5 => finish_grown h5.1 _ _
  · rw [h2.1.sound.ended_eq, hends2]
    simp only [Shell.endsLine, Ran.news, Bool.or_eq_true, Bool.false_or]
    tauto
  · rw [h2.1.sound.ctrlC_eq]
    exact id

/-- **A command is started**: what it is handed is open, and how it ends is heard. -/
theorem start_spec (h : v.Sound noNews 0) (hgo : v.ended = false)
    (hf : fds ∈ v.shell.files.contexts) (builtin : Bool) (words assigns : List String) :
    wp watch (start builtin words assigns fds)
      (fun ran v' => Grown ran.news 0 v v' ∧ v'.shell.endsLine = v.shell.endsLine) v := by
  cases words with
  | nil => exact ⟨h.grown, rfl⟩
  | cons name args =>
    simp only [start, bind_eq, wp_bind]
    refine wp_call.mpr ⟨⟨fun _ => hgo, fun _ => h.prompt, ?_, fun _ _ => nofun⟩, ?_⟩
    · rintro f hmem k i hk
      obtain rfl := List.mem_singleton.mp hmem
      refine h.counted.exists_entry (Multiset.mem_add.mpr (.inl ?_))
      rw [← hk]
      exact Files.mem_held hf k
    · rintro ⟨ran, moved⟩ _ rfl
      have hg := h.grown.hear ran.news
      refine wp_mono (putOffsets_spec hg.sound moved) fun _ v1 h1 => ?_
      have hpost : Grown ran.news 0 v v1 ∧ v1.shell.endsLine = v.shell.endsLine :=
        ⟨hg.then h1.1, h1.2.ends_eq⟩
      cases builtin with
      | true => exact hpost
      | false =>
        simp only [Bool.false_eq_true, if_false, wp_bind]
        exact wp_idle rfl rfl fun _ => hpost

/-- **A command's words on its fds.** -/
theorem runOn_spec (hscript : ∀ sc, Fine (script sc)) (h : v.Sound noNews 0)
    (hg : Grown noNews {fds} v v1)
    (hgo : v1.ended = false) (words assigns : List String) :
    wp watch (runOn script words assigns fds) (fun _ v2 => Grown noNews 0 v v2) v1 := by
  have hhold : ∀ builtin : Bool, wp watch (if builtin = true then call (.holdVars assigns)
      else pure (.ok ())) (fun _ v' => v' = v1) v1 := by
    intro builtin
    cases builtin with
    | true => exact wp_going rfl rfl hgo hg.sound.prompt fun _ => rfl
    | false => rfl
  simp only [runOn, bind_eq, wp_bind]
  refine wp_mono (hhold _) fun reply v2 h2 => ?_
  subst h2
  cases reply with
  | error e =>
    simp only [wp_bind]
    exact wp_mono (release_spec (D := 0) h.around hg) fun _ v3 h3 =>
      notExpanded_grown h3.1 (h3.2.going hgo) e true
  | ok _ =>
    simp only [wp_bind]
    refine wp_mono (start_spec hg.sound hgo (Grown.mem (D := 0) hg) _ words assigns)
      fun ran v3 h3 => ?_
    have hends : v2.shell.endsLine = false := by
      have hended := hg.sound.ended_eq.symm.trans hgo
      rwa [noNews, Bool.or_false] at hended
    exact wp_idle rfl rfl fun _ => settle_spec hscript h (hg.then h3.1) (h3.2.trans hends)

/-- **A single command.** -/
theorem runCommand_fine (hscript : ∀ sc, Fine (script sc)) (typed : Command Word) :
    Fine (runCommand script typed) := by
  intro v h hgo
  simp only [runCommand, bind_eq, wp_bind, wp_look]
  refine wp_going rfl rfl hgo h.prompt fun reply => ?_
  cases reply with
  | error e => exact notExpanded_fine e true v h hgo
  | ok parts =>
    obtain ⟨words, assigns⟩ := parts
    have hset : wp watch (if words.isEmpty = true then setAll (assigns.filterMap (splitOnce '='))
        else pure (.ok ())) (fun _ v' => v' = v) v := by
      by_cases hw : words.isEmpty = true
      · rw [if_pos hw]
        exact setAll_spec h hgo _
      · rw [if_neg hw]
        rfl
    simp only [wp_bind]
    refine wp_mono hset fun reply v1 h1 => ?_
    subst h1
    cases reply with
    | error e => exact notExpanded_fine e true v1 h hgo
    | ok _ =>
      dsimp only
      by_cases hnone : (words.isEmpty && typed.redirects.isEmpty) = true
      · rw [if_pos hnone]
        exact finish_fine _ _ v1 h hgo
      · rw [if_neg hnone]
        simp only [wp_bind, wp_look]
        refine wp_mono (make_spec h hgo typed.redirects) fun made v2 h2 => ?_
        cases made with
        | none => exact finish_grown h2.1 _ _
        | some fds => exact runOn_spec hscript h h2.1 (h2.2 rfl) words assigns

theorem runStages_fine (commands : List (Command Word)) (job : Option String) :
    Fine (runStages commands job) := by
  intro v h hgo
  simp only [runStages, bind_eq, wp_bind, wp_look]
  refine wp_going rfl rfl hgo h.prompt fun reply => ?_
  cases reply with
  | error e => exact notExpanded_fine e false v h hgo
  | ok stages =>
    cases job with
    | none => exact pipeline_fine stages v h hgo
    | some text => exact background_fine stages text v h hgo

/-- **A pipeline of simple commands.** -/
theorem runCommands_fine (hscript : ∀ sc, Fine (script sc)) (first : Command Word)
    (more : List (Command Word)) (job : Option String) :
    Fine (runCommands script first more job) := by
  intro v h hgo
  rw [runCommands, bind_eq, wp_bind]
  refine wp_idle rfl rfl fun _ => ?_
  cases ((first :: more).filter (·.words.isEmpty)).findSome? (·.assigns.head?) with
  | some word =>
    cases job with
    | some text => exact finish_fine _ _ v h hgo
    | none =>
      cases more with
      | nil => exact assign_fine first v h hgo
      | cons c rest => exact finish_fine _ _ v h hgo
  | none =>
    dsimp only
    by_cases hmany : (!more.isEmpty || job.isSome) = true
    · rw [if_pos hmany]
      exact runStages_fine _ job v h hgo
    · rw [if_neg hmany]
      exact runCommand_fine hscript first v h hgo

/-! ### The walk over the tree -/

/-- A part after another one. -/
theorem Fine.after {p : Walk α} (hp : Fine p) (hg : Grown noNews 0 v v1) (hgo : v1.ended = false) :
    wp watch p (fun _ v' => Grown noNews 0 v v') v1 :=
  wp_mono (hp v1 hg.sound hgo) fun _ _ h' => hg.then h'

/-- **The walker looks before it goes on**: what follows runs only if the line has not
ended. -/
theorem wp_unless_ended (hg : Grown noNews 0 v v1) (status : ℤ) {k : Walk ℤ}
    (hk : v1.ended = false → wp watch k (fun _ v' => Grown noNews 0 v v') v1) :
    wp watch (look.bind fun s => if s.endsLine = true then pure status else k)
      (fun _ v' => Grown noNews 0 v v') v1 := by
  rw [wp_bind, wp_look]
  by_cases hends : v1.shell.endsLine = true
  · rw [if_pos hends]
    exact hg
  · rw [if_neg hends]
    refine hk (hg.sound.ended_eq.trans ?_)
    rw [noNews, Bool.or_false]
    exact Bool.eq_false_iff.mpr hends

theorem fromStatus_fine {items : ℤ → Walk ℤ} (h : ∀ status, Fine (items status)) :
    Fine (fromStatus items) := by
  intro v hv hgo
  rw [fromStatus, bind_eq, wp_bind, wp_look]
  exact h _ v hv hgo

/-- **A loop**, whatever number of turns it takes. -/
theorem runLoop_fine {condition body : Walk ℤ} (hc : Fine condition) (hb : Fine body)
    (until_ : Bool) (turns : ℕ) (status : ℤ) :
    Fine (runLoop condition body until_ turns status) := by
  intro v h hgo
  induction turns generalizing v status with
  | zero => exact wp_hang
  | succ turns ih =>
    rw [runLoop, bind_eq, wp_bind]
    refine wp_mono (hc v h hgo) fun c v1 h1 => ?_
    refine wp_unless_ended h1 c fun hgo1 => ?_
    by_cases hdone : ((c == 0) == until_) = true
    · rw [if_pos hdone]
      exact h1
    · rw [if_neg hdone, bind_eq, wp_bind]
      refine wp_mono (hb v1 h1.sound hgo1) fun st v2 h2 => ?_
      refine wp_unless_ended (h1.then h2) st fun hgo2 => ?_
      exact wp_mono (ih st v2 h2.sound hgo2) fun _ _ h3 => (h1.then h2).then h3

/-- **A `for`'s turns.** -/
theorem runEach_fine (name : String) {body : Walk ℤ} (hb : Fine body) (words : List String)
    (status : ℤ) : Fine (runEach name body words status) := by
  intro v h hgo
  induction words generalizing v status with
  | nil => exact h.grown
  | cons word rest ih =>
    rw [runEach, bind_eq, wp_bind]
    refine wp_going rfl rfl hgo h.prompt fun reply => ?_
    cases reply with
    | error e => exact notExpanded_fine e false v h hgo
    | ok _ =>
      simp only [bind_eq, wp_bind]
      refine wp_mono (hb v h hgo) fun st v1 h1 => ?_
      have hnext := wp_unless_ended h1 st (k := runEach name body rest st) fun hgo1 =>
        wp_mono (ih st v1 h1.sound hgo1) fun _ _ h2 => h1.then h2
      rw [wp_bind] at hnext
      exact hnext

theorem runFor_fine (name : Word) (words : Option (List Word)) {body : Walk ℤ} (hb : Fine body) :
    Fine (runFor name words body) := by
  intro v h hgo
  by_cases hname : isName name.typed = true
  · cases words with
    | none =>
      rw [runFor, if_pos hname, bind_eq, wp_bind]
      exact wp_going rfl rfl hgo h.prompt fun args => runEach_fine _ hb args 0 v h hgo
    | some words =>
      simp only [runFor, if_pos hname, bind_eq, wp_bind, wp_look]
      refine wp_going rfl rfl hgo h.prompt fun reply => ?_
      cases reply with
      | error e => exact notExpanded_fine e true v h hgo
      | ok words => exact runEach_fine _ hb words 0 v h hgo
  · unfold runFor
    rw [if_neg hname]
    exact finish_fine _ _ v h hgo

/-- **A redirected compound command.** -/
theorem runRedirected_fine {compound : Walk ℤ} (hc : Fine compound)
    (redirects : List (Redirect Word)) : Fine (runRedirected compound redirects) := by
  intro v h hgo
  simp only [runRedirected, bind_eq, wp_bind, wp_look]
  refine wp_mono (make_spec h hgo redirects) fun made v1 h1 => ?_
  cases made with
  | none => exact finish_grown h1.1 _ _
  | some fds =>
    simp only [wp_bind]
    refine wp_mono (within_spec h h1.1 (h1.2 rfl) hc) fun _ v2 h2 => ?_
    exact wp_mono (release_spec (D := 0) h.around h2) fun _ v3 h3 => h3.1

theorem runWhole_fine {compound : Walk ℤ} (hc : Fine compound) (redirects : List (Redirect Word)) :
    Fine (runWhole compound redirects) := by
  intro v h hgo
  have hrun : wp watch (if redirects.isEmpty = true then compound
      else runRedirected compound redirects) (fun _ v' => Grown noNews 0 v v') v := by
    by_cases hr : redirects.isEmpty = true
    · rw [if_pos hr]
      exact hc v h hgo
    · rw [if_neg hr]
      exact runRedirected_fine hc redirects v h hgo
  simp only [runWhole, bind_eq, wp_bind]
  exact wp_mono hrun fun status v1 h1 => wp_change.mpr
    (h1.then (h1.sound.note_status status).1)

/-- **A pipeline**: if Ctrl-C was typed it is not even started. -/
theorem runPipelineOf_fine (negated : Bool) (job : Option String) {body : Walk ℤ} (hb : Fine body) :
    Fine (runPipelineOf negated job body) := by
  intro v h hgo
  simp only [runPipelineOf, bind_eq, wp_bind]
  refine wp_interrupted fun interrupted => ?_
  have hs := h.hear (interrupted, interrupted)
  cases interrupted with
  | true =>
    simp only [if_true, wp_bind, wp_change]
    have hflags := hs.note_flags (s := { v.shell with cancelled := true }) ?_ (fun _ => rfl) rfl rfl
    · exact finish_grown ((h.grown.hear (true, true)).then hflags) _ _
    · intro _
      simp [Shell.endsLine]
  | false =>
    simp only [Bool.false_eq_true, if_false, wp_bind, wp_look]
    have hg : Grown noNews 0 v (v.hear (false, false)) := h.grown.hear noNews
    have hgo' : (v.hear (false, false)).ended = false := by
      show (v.ended || false) = false
      rw [hgo]
      rfl
    refine wp_mono (hb _ hs hgo') fun status v1 h1 => ?_
    by_cases hkeep : (!negated || job.isSome || v1.shell.stopped || v1.shell.abandoned) = true
    · rw [if_pos hkeep]
      exact hg.then h1
    · rw [if_neg hkeep, wp_bind, wp_change]
      exact (hg.then h1).then (h1.sound.note_status _).1

-- The induction is on the tree; each level hands the next one a run whose line goes on.
mutual

/-- **A list is fine**, of any nesting. -/
theorem itemsFrom_fine (hscript : ∀ sc, Fine (script sc)) (turns : ℕ) :
    ∀ (items : Items Word) (status : ℤ),
    Fine (itemsFrom script turns items status)
  | .nil, _ => fun _ h _ => h.grown
  | .cons item rest, _ => by
    intro v h hgo
    rw [itemsFrom, bind_eq, wp_bind]
    refine wp_mono (itemFrom_fine hscript turns item v h hgo) fun st v1 h1 => ?_
    exact wp_unless_ended h1 st fun hgo1 => (itemsFrom_fine hscript turns rest st).after h1 hgo1

theorem itemFrom_fine (hscript : ∀ sc, Fine (script sc)) (turns : ℕ) :
    ∀ item : Item Word, Fine (itemFrom script turns item)
  | .mk andOr none => by
    rw [itemFrom]
    exact andOrFrom_fine hscript turns andOr
  | .mk (.mk first _) (some text) => by
    rw [itemFrom]
    exact pipelineFrom_fine hscript turns first (some text)

theorem andOrFrom_fine (hscript : ∀ sc, Fine (script sc)) (turns : ℕ) :
    ∀ andOr : AndOr Word, Fine (andOrFrom script turns andOr)
  | .mk first rest => by
    intro v h hgo
    rw [andOrFrom, bind_eq, wp_bind]
    refine wp_mono (pipelineFrom_fine hscript turns first none v h hgo) fun status v1 h1 => ?_
    exact wp_mono (restFrom_spec hscript turns rest status v1 h1.sound) fun _ _ h2 => h1.then h2

theorem restFrom_spec (hscript : ∀ sc, Fine (script sc)) (turns : ℕ) :
    ∀ (rest : Rest Word) (status : ℤ) (v : View), v.Sound noNews 0 →
    wp watch (restFrom script turns rest status) (fun _ v' => Grown noNews 0 v v') v
  | .nil, _, _, h => h.grown
  | .cons connector pipeline rest, status, v, h => by
    rw [restFrom]
    refine wp_unless_ended h.grown status fun hgo => ?_
    by_cases hruns : connector.allows status = true
    · rw [if_pos hruns, bind_eq, wp_bind]
      refine wp_mono (pipelineFrom_fine hscript turns pipeline none v h hgo) fun st v1 h1 => ?_
      exact wp_mono (restFrom_spec hscript turns rest st v1 h1.sound) fun _ _ h2 => h1.then h2
    · rw [if_neg hruns]
      exact restFrom_spec hscript turns rest status v h

theorem pipelineFrom_fine (hscript : ∀ sc, Fine (script sc)) (turns : ℕ) :
    ∀ (pipeline : Pipeline Word) (job : Option String),
    Fine (pipelineFrom script turns pipeline job)
  | .mk negated run redirects, job => by
    rw [pipelineFrom]
    exact runPipelineOf_fine negated job (runFrom_fine hscript turns run redirects job)

theorem runFrom_fine (hscript : ∀ sc, Fine (script sc)) (turns : ℕ) :
    ∀ (run : Run Word) (redirects : List (Redirect Word)) (job : Option String),
    Fine (runFrom script turns run redirects job)
  | .commands first more, _, job => by
    rw [runFrom]
    exact runCommands_fine hscript first more job
  | .compound c, redirects, _ => by
    rw [runFrom]
    exact runWhole_fine (compoundFrom_fine hscript turns c) redirects

theorem compoundFrom_fine (hscript : ∀ sc, Fine (script sc)) (turns : ℕ) :
    ∀ c : Compound Word, Fine (compoundFrom script turns c)
  | .cond branches => by
    rw [compoundFrom]
    exact branchesFrom_fine hscript turns branches
  | .while condition body => by
    rw [compoundFrom]
    exact runLoop_fine (fromStatus_fine (itemsFrom_fine hscript turns condition))
      (fromStatus_fine (itemsFrom_fine hscript turns body)) false turns 0
  | .until condition body => by
    rw [compoundFrom]
    exact runLoop_fine (fromStatus_fine (itemsFrom_fine hscript turns condition))
      (fromStatus_fine (itemsFrom_fine hscript turns body)) true turns 0
  | .for name words body => by
    rw [compoundFrom]
    exact runFor_fine name words (fromStatus_fine (itemsFrom_fine hscript turns body))

theorem branchesFrom_fine (hscript : ∀ sc, Fine (script sc)) (turns : ℕ) :
    ∀ branches : Branches Word, Fine (branchesFrom script turns branches)
  | .fi => fun _ h _ => h.grown
  | .else body => by
    rw [branchesFrom]
    exact fromStatus_fine (itemsFrom_fine hscript turns body)
  | .elif condition body rest => by
    intro v h hgo
    rw [branchesFrom, bind_eq, wp_bind]
    refine wp_mono (fromStatus_fine (itemsFrom_fine hscript turns condition) v h hgo)
      fun st v1 h1 => ?_
    refine wp_unless_ended h1 st fun hgo1 => ?_
    by_cases hzero : st = 0
    · rw [if_pos hzero]
      exact (fromStatus_fine (itemsFrom_fine hscript turns body)).after h1 hgo1
    · rw [if_neg hzero]
      exact (branchesFrom_fine hscript turns rest).after h1 hgo1

end

end RelayOs.Sh
