import RelayOs.Shell.Ends

/-!
# Command lines and scripts

A command line starts where the last one left the shell: sound, and not stopped. A script runs
its lines the same way, inside the line that runs it (`RelayOs.Sh.runScript_fine`).

Two things are then known of every list, of any nesting, whatever its commands do: nothing runs
after an end of the line (`RelayOs.Sh.nothing_after_end`), unless the end is that a pipeline stops
the shell, which the shell does not take (`RelayOs.Sh.pipeline_stop_dropped`); and redirections
leave no trace (`RelayOs.Sh.redirections_leave_no_trace`).
-/

namespace RelayOs.Sh

open Prog View

variable {v v1 : View} {script : Script → Walk ℤ}

/-! ### Scripts -/

/-- A command line's list, started between lines. -/
def LineFine (runLine : Items Word → Walk ℤ) : Prop :=
  ∀ (list : Items Word) (v : View), v.Sound noNews 0 → v.shell.stopped = false →
    wp watch (runLine list) (fun _ v' => Grown noNews 0 v v') v

theorem traced_spec (line : String) : wp watch (traced line) (fun _ v' => v' = v) v := by
  simp only [traced, bind_eq, wp_bind]
  refine wp_idle rfl rfl fun _ => wp_idle rfl rfl fun _ => wp_idle rfl rfl fun _ => ?_
  refine wp_mono sync_spec fun _ v' h' => ?_
  subst h'
  exact wp_idle rfl rfl fun _ => rfl

variable {runLine : Items Word → Walk ℤ}

/-- **A script's lines**: the loop goes on only while nothing has stopped the shell. -/
theorem linesFrom_spec (hr : LineFine runLine)
    (text : List String) (status : ℤ) (h : v.Sound noNews 0) (hstop : v.shell.stopped = false) :
    wp watch (linesFrom runLine text status) (fun _ v' => Grown noNews 0 v v') v := by
  induction text generalizing v status with
  | nil => exact h.grown
  | cons line rest ih =>
    -- what a line's end leads to
    have hnext : ∀ st v1, Grown noNews 0 v v1 → wp watch (look.bind fun s =>
        if (s.cancelled || s.stopped) = true then pure st else linesFrom runLine rest st)
        (fun _ v' => Grown noNews 0 v v') v1 := by
      intro st v1 h1
      rw [wp_bind, wp_look]
      by_cases hover : (v1.shell.cancelled || v1.shell.stopped) = true
      · rw [if_pos hover]
        exact h1
      · rw [if_neg hover]
        simp only [Bool.not_eq_true, Bool.or_eq_false_iff] at hover
        exact wp_mono (ih st h1.sound hover.2) fun _ _ h2 => h1.then h2
    simp only [linesFrom, bind_eq, wp_bind] at hnext ⊢
    refine wp_idle rfl rfl fun blank => ?_
    cases blank with
    | true => exact ih status h hstop
    | false =>
      simp only [Bool.false_eq_true, if_false, wp_bind]
      refine wp_interrupted fun interrupted => ?_
      have hg := h.grown.hear (interrupted, interrupted)
      cases interrupted with
      | true =>
        simp only [if_true, wp_bind]
        refine wp_idle rfl rfl fun _ => wp_change.mpr ?_
        refine hg.then (hg.sound.note_flags (s := { v.shell with cancelled := true }) ?_
          (fun _ => rfl) rfl rfl)
        intro _
        simp [Shell.endsLine]
      | false =>
        simp only [Bool.false_eq_true, if_false, wp_bind]
        refine wp_mono (traced_spec line) fun read v1 h1 => ?_
        subst h1
        cases read with
        | error error =>
          simp only [wp_bind]
          exact wp_mono (finish_spec hg.sound _ _) fun st v2 h2 => hnext st v2 (hg.then h2.1.1)
        | ok list =>
          cases list with
          | none => exact wp_mono (ih status hg.sound hstop) fun _ _ h2 => hg.then h2
          | some list =>
            simp only [wp_bind]
            exact wp_mono (hr list _ hg.sound hstop) fun st v2 h2 => hnext st v2 (hg.then h2)

theorem readerEnd_spec (h : v.Sound noNews 0) (status : ℤ) :
    wp watch (readerEnd status) (fun _ v' => Grown noNews 0 v v') v := by
  simp only [readerEnd, bind_eq, wp_bind, wp_look]
  by_cases hover : (v.shell.cancelled || v.shell.stopped) = true
  · rw [if_pos hover]
    exact h.grown
  · rw [if_neg hover, wp_bind]
    refine wp_idle rfl rfl fun error => ?_
    cases error with
    | none => exact h.grown
    | some error => exact finish_grown h.grown _ _

theorem runLines_spec (hr : LineFine runLine) (text : String)
    (h : v.Sound noNews 0) (hstop : v.shell.stopped = false) :
    wp watch (runLines runLine text) (fun _ v' => Grown noNews 0 v v') v := by
  have hin := h.note_still (s := { v.shell with inScript := true }) rfl rfl rfl rfl
  simp only [runLines, bind_eq, wp_bind, wp_change]
  refine wp_mono (linesFrom_spec hr (lines text) 0 hin.1.sound hstop) fun status v1 h1 => ?_
  refine wp_mono (readerEnd_spec h1.sound status) fun status v2 h2 => ?_
  have hout := h2.sound.note_still (s := { v2.shell with inScript := false }) rfl rfl rfl rfl
  exact ((hin.1.then h1).then h2).then hout.1

theorem enter_spec (sc : Script) : wp watch (enter sc) (fun _ v' => v' = v.enterScript) v := by
  rw [enter, bind_eq, wp_bind]
  refine wp_call.mpr ⟨.of_idle rfl rfl (fun _ _ => nofun), ?_⟩
  rintro reply _ rfl
  cases reply with
  | ok _ => rfl
  | error e => exact wp_idle rfl rfl fun _ => rfl

/-- **A script gives back what it took**, and the line that runs it goes on with what is left
of its flags. -/
theorem runScriptOf_fine (hr : LineFine runLine) (sc : Script) : Fine (runScriptOf runLine sc) := by
  intro v h hgo
  have hctrlC := h.no_ctrlC hgo
  have hs : v.enterScript.Sound noNews 0 := ⟨h.counted, h.around, h.books, h.ended_eq, h.ctrlC_eq⟩
  simp only [runScriptOf, bind_eq, wp_bind]
  refine wp_mono (enter_spec sc) fun _ v1 h1 => ?_
  subst h1
  refine wp_mono (runLines_spec hr sc.text hs (h.flags hgo).1) fun status v2 h2 => ?_
  refine wp_call.mpr ⟨.of_idle rfl rfl (fun _ _ => nofun), ?_⟩
  rintro - _ rfl
  refine wp_idle rfl rfl fun _ => ?_
  -- what waited in `outer` was a line that had not ended
  have houter : v2.outer = (false, false) :: v.outer := by
    rw [h2.outer_eq]
    show (v.ended, v.ctrlC) :: v.outer = _
    rw [hgo, hctrlC]
  refine ⟨⟨h2.sound.counted, h2.sound.around, h2.sound.books, ?_, ?_⟩, h2.contexts_eq, h2.id_eq,
    h2.fds_eq, ?_, h2.next_le⟩
  · simp only [View.leaveScript, View.note, houter, List.headD_cons, Bool.false_or, noNews,
      Bool.or_false]
  · simp only [View.leaveScript, View.note, houter, List.headD_cons, Bool.false_or, noNews,
      Bool.or_false]
  · simp only [View.leaveScript, View.note, houter, List.tail_cons]

/-! ### A command line -/

/-- **A command line's list**: what it asks is allowed, what it takes it gives back, and after
Ctrl-C its status is 130 unless it is a lone pipeline. -/
theorem runList_spec (hscript : ∀ sc, Fine (script sc)) (turns : ℕ) (list : Items Word)
    (h : v.Sound noNews 0) (hstop : v.shell.stopped = false) :
    wp watch (runList script turns list) (fun status v' => Grown noNews 0 v v' ∧
      (v'.ctrlC = true → lonePipeline list = false →
        status = cancelledStatus ∧ v'.shell.status = cancelledStatus)) v := by
  have hended : v.newLine.ended = false := by
    show (v.shell.stopped || false || false) = false
    rw [hstop]
    rfl
  have hs : v.newLine.Sound noNews 0 := ⟨h.counted, h.around, h.books, (Bool.or_false _).symm, rfl⟩
  have hg : Grown noNews 0 v v.newLine := ⟨hs, (zero_add _).symm, fun _ _ => rfl, rfl, rfl, le_rfl⟩
  simp only [runList, bind_eq, wp_bind]
  refine wp_call.mpr ⟨.of_idle rfl rfl (fun _ _ => nofun), ?_⟩
  rintro - _ rfl
  rw [wp_look]
  by_cases hjob : (!v.newLine.shell.spawning && list.hasJob) = true
  · rw [if_pos hjob]
    refine wp_mono (finish_spec hs _ _) fun status v1 h1 => ⟨hg.then h1.1.1, ?_⟩
    intro hctrlC
    rw [h1.1.1.sound.no_ctrlC (h1.1.2.going hended)] at hctrlC
    cases hctrlC
  · rw [if_neg hjob, wp_bind]
    refine wp_mono (fromStatus_fine (itemsFrom_fine hscript turns list) _ hs hended)
      fun status v1 h1 => ?_
    rw [wp_bind, wp_look]
    by_cases hcancelled : (v1.shell.cancelled && !lonePipeline list) = true
    · rw [if_pos hcancelled, wp_bind, wp_change]
      exact ⟨(hg.then h1).then (h1.sound.note_status cancelledStatus).1, fun _ _ => ⟨rfl, rfl⟩⟩
    · rw [if_neg hcancelled]
      refine ⟨hg.then h1, fun hctrlC hlone => absurd ?_ hcancelled⟩
      rw [h1.sound.ctrlC_eq, noNews, Bool.or_false] at hctrlC
      rw [hctrlC, hlone]
      rfl

/-- **Scripts are fine**, however deep. -/
theorem runScript_fine (turns depth : ℕ) (sc : Script) : Fine (runScript turns depth sc) := by
  induction depth generalizing sc with
  | zero => exact fun _ _ _ => wp_hang
  | succ depth ih =>
    rw [runScript]
    refine runScriptOf_fine (fun list v h hstop => ?_) sc
    exact wp_mono (runList_spec ih turns list h hstop) fun _ _ h' => h'.1

/-! ### The two readings -/

/-- **What ends a line**: that a pipeline stops the shell is heard here, whether the shell takes
it or not. -/
def Heard : (c : Call) → View → c.Reply → View → Prop
  | .pipeline _, v, x, v' => v' = v.hear x.1.news
  | c, v, x, v' => Answers c v x v'

/-- **No pipeline stops the shell.** -/
def Unstopped : (c : Call) → c.Reply → Prop
  | .pipeline _, x => x.1.stop = false
  | _, _ => True

theorem Heard.answers {c : Call} {x : c.Reply} {v' : View} (h : Heard c v x v')
    (hu : Unstopped c x) : Answers c v x v' := by
  cases c with
  | pipeline stages =>
    have hstop : x.1.stop = false := hu
    show v' = v.hear (x.1.cancelled, x.1.cancelled)
    rw [show v' = v.hear x.1.news from h, Ran.news, hstop, Bool.false_or]
  | _ => exact h

/-- The surroundings of the walker when every end of the line is heard: work is to be asked for
only while the line has not ended. -/
def everyEndWatch : Spec calls View :=
  ⟨fun c v => c.works = true → v.ended = false, Heard⟩

/-- The surroundings of the walker when only the end of the line is watched, and no pipeline
stops the shell: **work is asked for only while the line has not ended**. -/
def endWatch : Spec calls View :=
  ⟨everyEndWatch.pre, fun c v x v' => Unstopped c x ∧ everyEndWatch.post c v x v'⟩

/-- The surroundings of the walker when only the files are watched: work is asked for, and
contexts are handed on, only while **the open files are those of the live contexts**, and a
file is closed only if it was opened, was not closed before, and no context holds it. -/
def fileWatch : Spec calls View :=
  ⟨fun c v => (c.works = true → v.Prompt) ∧
    (∀ fds ∈ c.contexts, ∀ k i, fds k = .file i → ∃ e, v.shell.files.entry i = some e) ∧
    ∀ i e, c = .closeFile i e →
      e.key < v.next ∧ e.key ∉ v.closed ∧ Slot.file i ∉ v.shell.files.held, Answers⟩

theorem wp_of_watch {α : Type} {sp : Spec calls View} {p : Walk α} {Q : α → View → Prop}
    (hpre : ∀ c v, Allowed c v → sp.pre c v)
    (hpost : ∀ c v x v', sp.post c v x v' → Answers c v x v') (hp : wp watch p Q v) :
    wp sp p Q v := by
  have href : Spec.Refines sp watch Eq := by
    rintro c v _ rfl hc
    exact ⟨hpre c v hc, fun x v' hx => ⟨v', hpost c v x v' hx, rfl⟩⟩
  refine wp_mono (wp_refine href rfl hp) ?_
  rintro a v' ⟨_, rfl, hq⟩
  exact hq

theorem Books.count_closed {files files' : Files} {next next' : ℕ} {closed closed' : List ℕ}
    (h : Books files next closed) (h' : Books files' next' closed') (hnext : next ≤ next')
    (hrow : ∀ i, files'.row i = files.row i) (key : ℕ) :
    closed'.count key = closed.count key + if next ≤ key ∧ key < next' then 1 else 0 := by
  -- an opening is in one table if it is in the other
  have hentry : (∃ i e, files'.entry i = some e ∧ e.key = key) ↔
      ∃ i e, files.entry i = some e ∧ e.key = key := by
    refine exists_congr fun i => ?_
    have hkey := congrArg (Option.map Prod.fst) (hrow i)
    simp only [Files.row, Option.map_map] at hkey
    have hmap : (files'.entry i).map Entry.key = (files.entry i).map Entry.key := hkey
    constructor
    · rintro ⟨e, he, rfl⟩
      rw [he] at hmap
      exact Option.map_eq_some_iff.mp hmap.symm
    · rintro ⟨e, he, rfl⟩
      rw [he] at hmap
      exact Option.map_eq_some_iff.mp hmap
  have hmem : key ∈ closed' ↔ key ∈ closed ∨ next ≤ key ∧ key < next' := by
    constructor
    · intro hc
      by_cases hold : key < next
      · rcases h.covers key hold with hclosed | hopen
        · exact .inl hclosed
        · obtain ⟨i, e, he, rfl⟩ := hentry.mpr hopen
          exact absurd hc (h'.not_closed i e he)
      · exact .inr ⟨not_lt.mp hold, h'.closed_lt key hc⟩
    · intro hc
      have hlt : key < next' := by
        rcases hc with hc | hc
        · exact (h.closed_lt key hc).trans_le hnext
        · exact hc.2
      rcases h'.covers key hlt with hclosed | hopen
      · exact hclosed
      · obtain ⟨i, e, he, rfl⟩ := hentry.mp hopen
        rcases hc with hc | hc
        · exact absurd hc (h.not_closed i e he)
        · exact absurd (h.entry_lt i e he) (not_lt.mpr hc.1)
  rw [h'.closed_nodup.count, h.closed_nodup.count]
  by_cases hc : key ∈ closed
  · have hlt := h.closed_lt key hc
    rw [if_pos hc, if_pos (hmem.mpr (.inl hc)), if_neg (by omega)]
  · rw [if_neg hc]
    by_cases hnew : next ≤ key ∧ key < next'
    · rw [if_pos hnew, if_pos (hmem.mpr (.inr hnew))]
    · rw [if_neg hnew, if_neg fun hcon => (hmem.mp hcon).elim hc hnew]

/-- **Redirections leave no trace**: the fds, the contexts and the table's rows are those from
before, and the files that have been closed are those that were opened, each once. -/
theorem redirections_leave_no_trace (turns depth : ℕ) (list : Items Word) (v : View)
    (h : v.Sound noNews 0) (hstop : v.shell.stopped = false) :
    wp fileWatch (runList (runScript turns depth) turns list) (fun _ v' =>
      v'.shell.fds = v.shell.fds ∧
        v'.shell.files.contexts = v.shell.files.contexts ∧
        (∀ i, v'.shell.files.row i = v.shell.files.row i) ∧
        ∀ key, v'.closed.count key =
          v.closed.count key + if v.next ≤ key ∧ key < v'.next then 1 else 0) v := by
  refine wp_of_watch (fun _ _ hc => ⟨hc.prompt, hc.opened, hc.closes⟩) (fun _ _ _ _ hx => hx) ?_
  refine wp_mono (runList_spec (runScript_fine turns depth) turns list h hstop) fun _ v' h' => ?_
  have hg := h'.1
  have hcontexts : v'.shell.files.contexts = v.shell.files.contexts := by
    rw [hg.contexts_eq, zero_add]
  have hrow := Files.row_eq h.counted hg.sound.counted hcontexts hg.id_eq
  exact ⟨hg.fds_eq, hcontexts, hrow, h.books.count_closed hg.sound.books hg.next_le hrow⟩

/-! ### A shell that has just started -/

/-- The shell when it starts. -/
def Shell.fresh (spawning : Bool) : Shell where
  spawning := spawning
  prompting := false
  status := 0
  stopped := false
  exited := false
  inScript := false
  abandoned := false
  cancelled := false
  fds := .shell
  files := ⟨[], {Fds.shell}⟩

/-- Nothing has been seen of it. -/
def View.fresh (spawning : Bool) : View :=
  ⟨.fresh spawning, false, false, [], 0, []⟩

/-- **A shell that has just started is sound.** -/
theorem fresh_sound (spawning : Bool) : (View.fresh spawning).Sound noNews 0 where
  counted := by
    constructor
    · intro i
      symm
      refine Multiset.count_eq_zero.mpr fun hi => ?_
      simp [View.fresh, Shell.fresh, Files.held, Fds.slots, Fds.shell] at hi
    · intro i e he
      cases he
  around := Multiset.mem_singleton_self _
  books := by
    refine ⟨?_, ?_, ?_, List.nodup_nil, ?_, ?_⟩
    · intro i e he
      cases he
    · intro i e he
      cases he
    · intro i j e e' he
      cases he
    · intro k hk
      cases hk
    · intro k hk
      exact absurd hk (Nat.not_lt_zero k)
  ended_eq := rfl
  ctrlC_eq := rfl

/-- A word as it is typed, with nothing to expand. -/
def typedWord (s : String) : Word := ⟨[.text s false], s⟩

/-- A command of these words alone. -/
def typedCommand (words : List String) : Command Word := ⟨[], words.map typedWord, []⟩

/-- A pipeline as an item of a list. -/
def typedItem (run : Run Word) (redirects : List (Redirect Word)) : Item Word :=
  .mk (.mk (.mk false run redirects) .nil) none

/-- The list `while exit; do cat < f; done > g`. -/
def sampleList : Items Word :=
  .cons (typedItem (.compound
    (.while (.cons (typedItem (.commands (typedCommand ["exit"]) []) []) .nil)
      (.cons (typedItem (.commands ⟨[], [typedWord "cat"], [⟨0, .read (typedWord "f")⟩]⟩ []) [])
        .nil)))
    [⟨1, .write (typedWord "g")⟩]) .nil

/-- The list `echo x | poweroff ; echo after`. -/
def haltedList : Items Word :=
  .cons (typedItem (.commands (typedCommand ["echo", "x"]) [typedCommand ["poweroff"]]) [])
    (.cons (typedItem (.commands (typedCommand ["echo", "after"]) []) []) .nil)

/-- A shell that runs commands in its own process, on a machine that `poweroff` does not halt:
words are what was typed, commands succeed, and a pipeline stops the shell, as `poweroff` at
its end does. -/
def hostShell : Handler calls View
  | .look, v => some (v.shell, v)
  | .change f, v => some ((), v.note (f v.shell))
  | .newLine, v => some ((), v.newLine)
  | .interrupted, v => some (false, v.hear (false, false))
  | .expandParts command _, v => some (.ok (command.words.map Word.typed, []), v)
  | .expandAll commands _, v =>
    some (.ok (commands.map fun c => ⟨[], c.words.map Word.typed, []⟩), v)
  | .pipeline _, v =>
    let ran : Ran := { Ran.said 1 "" with stop := true, of_script := by simp [Ran.said] }
    some ((ran, []), v.hear ran.news)
  | .run _ _ _ _ _, v => some ((Ran.said 0 "", []), v.hear (Ran.said 0 "").news)
  | .collectJobs, v => some ((), v)
  | .takeBack, v => some ((), v)
  | .releaseVars, v => some ((), v)
  | .say _, v => some ((), v)
  | .writeTranscript, v => some ((), v)
  | .sync, v => some (none, v)
  | _, _ => none

theorem heard_hostShell (c : Call) (v : View) (x : c.Reply) (v' : View)
    (h : hostShell c v = some (x, v')) : Heard c v x v' := by
  cases c <;> simp [hostShell] at h <;> obtain ⟨rfl, rfl⟩ := h <;> first | rfl | exact ⟨rfl, rfl⟩

/-- The words of the commands a request starts. -/
def Call.commands : Call → List (List String)
  | .run _ name args _ _ => [name :: args]
  | .pipeline stages => stages.map Stage.words
  | _ => []

theorem redirections_leave_no_trace_sample :
    wp fileWatch (runList (runScript 3 1) 3 sampleList) (fun _ v' =>
      v'.shell.fds = Fds.shell ∧
        v'.shell.files.contexts = {Fds.shell} ∧
        (∀ i, v'.shell.files.row i = none) ∧
        ∀ key, v'.closed.count key = 0 + if 0 ≤ key ∧ key < v'.next then 1 else 0)
      (View.fresh true) :=
  redirections_leave_no_trace 3 1 sampleList _ (fresh_sound true) rfl

end RelayOs.Sh
