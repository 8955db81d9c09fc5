import RelayOs.Shell.Parser

/-!
# Reading a command line by line is reading it whole

A reader gives the parser a command's lines one at a time, and each is read once; what the
lines make must be what their text makes read in one go. Two things carry the argument.

* No step looks behind the end of its line: a `RelayOs.Lex` is steady, and what a step cuts out
  of the text lies before the place it stands at. So what has been read stays read when more
  lines come.
* The new line after the last line and the end of the text do the same, **except inside a
  compound command**: a new line there can be wrong, where the end of the text is only too
  early. So a wrong last line need not be why its text is wrong.
-/

namespace RelayOs.Sh

namespace Parser

variable {p p' : Parser} {line : List Char} {at_ : ℕ}

/-- Nothing waits in a pipeline behind a compound command. -/
def Tidy (p : Parser) : Prop :=
  p.pipeline = [] ∨ p.parts.compound = none

/-- What every function of the parser keeps, the ends of words apart. -/
structure Keeps (p p' : Parser) : Prop where
  text : p'.text = p.text
  word : p'.word = p.word
  tidy : p.Tidy → p'.Tidy

variable {q : Parser} {token : String} {found : Option (Pipeline Word)} {w : Word} {ps ps' : Parts}
  {pos : ℕ} {rest text : List Char} {e : ParseError}

theorem Keeps.trans (h : p.Keeps p') (h' : p'.Keeps q) : p.Keeps q where
  text := h'.text.trans h.text
  word := h'.word.trans h.word
  tidy hp := h'.tidy (h.tidy hp)

/-! ### What the ends of pipelines and lists do -/

theorem endPipeline_cases
    (h : p.endPipeline token = .ok (found, p')) :
    (p.parts.compound.isSome ∧ found.isSome ∧ p' = { p with parts := {} }) ∨
    (p.parts.isEmpty ∧ p.parts.bangs = 0 ∧ p.pipeline = [] ∧ found = none ∧ p' = p) ∨
    (found.isSome ∧ p' = { p with parts := {}, pipeline := [] }) := by
  rw [endPipeline] at h
  split at h
  · cases h
  split at h
  next c hc =>
    cases h
    exact .inl ⟨by rw [hc]; rfl, rfl, rfl⟩
  next hc =>
    split at h
    next hnone =>
      obtain ⟨hwords, hpipe, hredirects, hbangs⟩ := hnone
      cases h
      exact .inr (.inl ⟨by simp [Parts.isEmpty, hwords, hredirects, hc], hbangs, hpipe, rfl, rfl⟩)
    split at h
    · cases h
    split at h
    · cases h
    split at h
    · cases h
    · rcases hcommand : command p.parts.words p.parts.redirects with e | last
      · rw [hcommand] at h
        cases h
      · rw [hcommand] at h
        cases h
        exact .inr (.inr ⟨rfl, rfl⟩)

theorem keeps_endPipeline
    (h : p.endPipeline token = .ok (found, p')) : p.Keeps p' := by
  obtain ⟨-, -, rfl⟩ | ⟨-, -, -, -, rfl⟩ | ⟨-, rfl⟩ := endPipeline_cases h
  · exact ⟨rfl, rfl, fun _ => .inr rfl⟩
  · exact ⟨rfl, rfl, id⟩
  · exact ⟨rfl, rfl, fun _ => .inr rfl⟩

theorem pipeline_endPipeline
    (h : p.endPipeline token = .ok (found, p')) (hp : p.Tidy) : p'.pipeline = [] := by
  obtain ⟨hc, -, rfl⟩ | ⟨-, -, hpipe, -, rfl⟩ | ⟨-, rfl⟩ := endPipeline_cases h
  · rcases hp with hpipe | hnone
    · exact hpipe
    · rw [hnone] at hc
      cases hc
  · exact hpipe
  · rfl

theorem keeps_items (p : Parser) (items : ItemsRead) : p.Keeps { p with items } :=
  ⟨rfl, rfl, id⟩

theorem keeps_endItem (p : Parser) (found : Option (Pipeline Word)) (background : Option String) :
    p.Keeps ((found.elim p p.withPipeline).endItem background) := by
  cases found with
  | none => exact keeps_items p _
  | some pipeline => exact (keeps_items p _).trans (keeps_items _ _)

theorem keeps_join {connector : Connector} (h : p.join connector = .ok p') : p.Keeps p' := by
  rw [join] at h
  split at h
  · cases h
  split at h
  · cases h
  · cases h
  next pipeline q hq =>
    cases h
    exact (keeps_endPipeline hq).trans ((keeps_items q _).trans (keeps_items _ _))

theorem keeps_endList {list : Items Word} (h : p.endList token = .ok (list, p')) :
    p.Keeps p' ∧ (p.Tidy → p'.pipeline = []) := by
  rw [endList] at h
  split at h
  · cases h
  split at h
  · cases h
  next found q hq =>
    split at h
    · cases h
    dsimp only at h
    split at h
    · cases h
    cases h
    constructor
    · exact (keeps_endPipeline hq).trans ((keeps_endItem q found none).trans (keeps_items _ _))
    · intro hp
      have hpipe := pipeline_endPipeline hq hp
      cases found with
      | none => exact hpipe
      | some pipeline => exact hpipe

/-! ### What the ends of words do -/

theorem keeps_keyword {k : Keyword} (h : p.keyword k at_ = .ok p') : p.Keeps p' := by
  rw [keyword] at h
  split at h
  next kind hk =>
    rw [openCompound] at h
    split at h
    · cases h
    split at h
    · cases h
    cases h
    exact ⟨rfl, rfl, fun _ => .inr rfl⟩
  next hk =>
    split at h
    · cases h
    next o outer ho =>
      split at h
      · cases h
      next next_ hnext =>
        split at h
        · cases h
        next list q hq =>
          obtain ⟨hkeeps, hpipe⟩ := keeps_endList hq
          split at h
          next stage =>
            cases h
            exact ⟨hkeeps.text, hkeeps.word, fun hp => hkeeps.tidy hp⟩
          next =>
            split at h
            · cases h
            · cases h
              exact ⟨hkeeps.text, hkeeps.word, fun hp => .inl (hpipe hp)⟩

theorem keeps_forWord {stage : OpenStage} (h : p.forWord stage w at_ = .ok p') : p.Keeps p' := by
  rw [forWord] at h
  split at h
  · cases h
  split at h
  · cases h
    exact ⟨rfl, rfl, id⟩
  · cases h
    exact ⟨rfl, rfl, id⟩
  · cases h
    exact ⟨rfl, rfl, id⟩
  · cases h
    exact ⟨rfl, rfl, id⟩
  · cases h
    exact ⟨rfl, rfl, id⟩
  · cases h

theorem compound_target {pending : Pending}
    (h : ps.target pending w = .ok ps') : ps'.compound = ps.compound := by
  cases pending with
  | read explicit =>
    cases h
    rfl
  | file fd append explicit =>
    cases h
    rfl
  | copy fd typed =>
    rw [Parts.target] at h
    split at h
    · cases h
      rfl
    split at h
    · cases h
      rfl
    · cases h

theorem compound_word {k : Option Keyword}
    (h : ps.word w = .ok (ps', k)) : ps'.compound = ps.compound := by
  rw [Parts.word] at h
  split at h
  · split at h
    · split at h
      · cases h
        rfl
      · cases h
    · cases h
  split at h
  · split at h
    · split at h
      · cases h
      · cases h
        rfl
    split at h
    · cases h
      rfl
    split at h
    · cases h
    · cases h
      rfl
  · cases h
    rfl

theorem compound_partsEndWord {b : Building} {k : Option Keyword}
    (h : ps.endWord b line = .ok (ps', k)) : ps'.compound = ps.compound := by
  rw [Parts.endWord] at h
  split at h
  · cases h
    rfl
  next w hw =>
    split at h
    next pending hpending =>
      rcases htarget : ps.target pending w with e | ps''
      · rw [htarget] at h
        cases h
      · rw [htarget] at h
        cases h
        exact compound_target htarget
    next => exact compound_word h

/-- **A word that has ended is gone**; the rest is kept. -/
theorem keeps_endWord (h : p.endWord line at_ = .ok p') : Keeps { p with word := {} } p' := by
  rw [endWord] at h
  split at h
  next stage hstage =>
    split at h
    next w hw => exact keeps_forWord h
    next =>
      cases h
      exact ⟨rfl, rfl, id⟩
  next =>
    split at h
    · cases h
    next parts hparts =>
      cases h
      refine ⟨rfl, rfl, fun hp => ?_⟩
      rw [Tidy, compound_partsEndWord hparts]
      exact hp
    next parts k hparts =>
      have hkeeps := keeps_keyword h
      refine ⟨hkeeps.text, hkeeps.word, fun hp => hkeeps.tidy ?_⟩
      rw [Tidy, compound_partsEndWord hparts]
      exact hp

theorem word_endWord (h : p.endWord line at_ = .ok p') : p'.word = {} :=
  (keeps_endWord h).word

/-- The text after a word that has ended is not looked at. -/
theorem endWord_append (h : p.word.stop ≤ line.length) (t : List Char) :
    p.endWord (line ++ t) at_ = p.endWord line at_ := by
  rw [endWord, endWord, Parts.endWord, Parts.endWord, Building.finish_append h]

theorem endWord_none (h : p.word = {}) (hfor : p.forHeader = none) :
    p.endWord line at_ = .ok p := by
  rw [endWord, hfor, Parts.endWord, h]
  obtain ⟨text, items, itemStart, comments, pipeline, parts, word, opened⟩ := p
  cases h
  rfl

/-! ### What a step does -/

/-- What holds between two steps of a read up to place `n`. -/
structure Good (n : ℕ) (p : Parser) : Prop where
  text : p.text = []
  tidy : p.Tidy
  stop : p.word.stop ≤ n

variable {n : ℕ}

theorem Keeps.good (h : p.Keeps p') (hp : p.Good n) : p'.Good n where
  text := h.text.trans hp.text
  tidy := h.tidy hp.tidy
  stop := by
    rw [h.word]
    exact hp.stop

theorem good_endWord (h : p.endWord line at_ = .ok p') (hp : p.Good n) : p'.Good n :=
  (keeps_endWord h).good ⟨hp.text, hp.tidy, Nat.zero_le n⟩

theorem good_fdWord {digits : Option String} (h : p.fdWord = .ok (digits, p')) (hp : p.Good n) :
    p'.Good n := by
  rw [fdWord] at h
  split at h
  · split at h
    · cases h
      exact hp
    · cases h
      exact hp
    · cases h
    · cases h
      exact ⟨hp.text, hp.tidy, Nat.zero_le n⟩
  · cases h
    exact hp

theorem good_outputFd {fd : Fin 3} {typed : String}
    (h : p.outputFd line at_ = .ok (fd, typed, p')) (hp : p.Good n) : p'.Good n := by
  rw [outputFd] at h
  split at h
  · cases h
  next digits q hq =>
    have hgood := good_fdWord hq hp
    -- Whatever the fd is, the word before it ends.
    have hend : ∀ {fd' : Fin 3} {typed' : String},
        (q.endWord line at_).map (fd', typed', ·) = .ok (fd, typed, p') → p'.Good n := by
      intro fd' typed' hmap
      obtain ⟨r, hr, heq⟩ := exists_of_map_eq_ok hmap
      cases heq
      exact good_endWord hr hgood
    split at h
    · exact hend h
    split at h
    · exact hend h
    split at h
    · cases h
    · exact hend h

theorem good_inputFd {explicit : Bool} (h : p.inputFd line at_ = .ok (explicit, p'))
    (hp : p.Good n) : p'.Good n := by
  rw [inputFd] at h
  split at h
  · cases h
  next digits q hq =>
    split at h
    · obtain ⟨r, hr, heq⟩ := exists_of_map_eq_ok h
      cases heq
      exact good_endWord hr (good_fdWord hq hp)
    · cases h
  next q hq =>
    obtain ⟨r, hr, heq⟩ := exists_of_map_eq_ok h
    cases heq
    exact good_endWord hr (good_fdWord hq hp)

theorem good_withWord {w : Building} (hp : p.Good n) (h : w.stop = p.word.stop) :
    (p.withWord w).Good n :=
  ⟨hp.text, hp.tidy, h ▸ hp.stop⟩

theorem good_startItem (hp : p.Good n) : p.startItem.Yields (Good n) :=
  Lex.yields_bind fun _ => Lex.yields_pure ⟨hp.text, hp.tidy, hp.stop⟩

theorem good_greater (hp : p.Good n) : (p.greater line at_).Yields (Good n) := by
  refine Lex.Yields.bind (P := fun r => r.2.2.Good n)
    (Lex.yields_ofExcept fun r hr => good_outputFd hr hp) ?_
  rintro ⟨fd, typed, q⟩ hq
  refine Lex.yields_guard fun _ => ?_
  refine Lex.yields_bind fun append => Lex.yields_bind fun copy => Lex.yields_bind fun clobber => ?_
  refine Lex.yields_guard fun _ => Lex.yields_pure ?_
  exact ⟨hq.text, hq.tidy, hq.stop⟩

theorem good_less (hp : p.Good n) : (p.less line at_).Yields (Good n) := by
  refine Lex.Yields.bind (P := fun r => r.2.Good n)
    (Lex.yields_ofExcept fun r hr => good_inputFd hr hp) ?_
  rintro ⟨explicit, q⟩ hq
  refine Lex.yields_guard fun _ => ?_
  refine Lex.yields_bind fun here => Lex.yields_ite (fun _ => ?_) fun _ => ?_
  · exact Lex.yields_bind fun _ => Lex.yields_fail
  refine Lex.yields_bind fun copy => Lex.yields_guard fun _ => ?_
  refine Lex.yields_bind fun both => Lex.yields_guard fun _ => ?_
  exact Lex.yields_pure ⟨hq.text, hq.tidy, hq.stop⟩

theorem good_joinAt {connector : Connector} (h : p.joinAt line at_ connector = .ok p')
    (hp : p.Good n) : p'.Good n := by
  rw [joinAt] at h
  split at h
  · cases h
  next q hq => exact (keeps_join h).good (good_endWord hq hp)

theorem good_pipe (h : p.pipe line at_ = .ok p') (hp : p.Good n) : p'.Good n := by
  rw [pipe] at h
  split at h
  · cases h
  next q hq =>
    obtain ⟨⟨c, ps⟩, hc, heq⟩ := exists_of_map_eq_ok h
    have hgood := good_endWord hq hp
    cases heq
    refine ⟨hgood.text, .inr ?_, hgood.stop⟩
    -- What is kept for the commands after a `|` is no compound command.
    rw [Parts.takeBeforePipe] at hc
    split at hc
    · cases hc
    split at hc
    · cases hc
    split at hc
    · cases hc
    split at hc
    · cases hc
    obtain ⟨last, -, hlast⟩ := exists_of_map_eq_ok hc
    cases hlast
    rfl

theorem good_bar (hp : p.Good n) : (p.bar line at_).Yields (Good n) := by
  refine Lex.yields_bind fun or => Lex.yields_ite (fun _ => ?_) fun _ => ?_
  · exact Lex.yields_ofExcept fun q hq => good_joinAt hq hp
  refine Lex.yields_bind fun both => Lex.yields_guard fun _ => ?_
  exact Lex.yields_ofExcept fun q hq => good_pipe hq hp

theorem good_semicolonItem (h : p.semicolonItem line at_ = .ok p') (hp : p.Good n) : p'.Good n := by
  rw [semicolonItem] at h
  split at h
  · cases h
  next q hq =>
    split at h
    · cases h
    · cases h
    next pipeline r hr =>
      cases h
      have hkeeps := (keeps_endPipeline hr).trans (keeps_endItem r (some pipeline) none)
      exact hkeeps.good (good_endWord hq hp)

theorem good_semicolon (hp : p.Good n) : (p.semicolon line at_).Yields (Good n) := by
  refine Lex.yields_bind fun again => Lex.yields_ite (fun _ => ?_) fun _ => ?_
  · exact Lex.yields_bind fun _ => Lex.yields_fail
  refine Lex.yields_bind fun amp => Lex.yields_guard fun _ => ?_
  exact (Lex.yields_ofExcept fun q hq => good_semicolonItem hq hp).bind fun q hq =>
    good_startItem hq

theorem good_background (h : p.background line at_ = .ok p') (hp : p.Good n) : p'.Good n := by
  rw [background] at h
  split at h
  · cases h
  next q hq =>
    split at h
    · cases h
    split at h
    · cases h
    split at h
    · cases h
    split at h
    · cases h
    dsimp only at h
    split at h
    · cases h
    next found r hr =>
      cases h
      exact ((keeps_endPipeline hr).trans (keeps_endItem r found _)).good (good_endWord hq hp)

theorem good_ampersand (hp : p.Good n) : (p.ampersand line at_).Yields (Good n) := by
  refine Lex.yields_bind fun and => Lex.yields_ite (fun _ => ?_) fun _ => ?_
  · exact Lex.yields_ofExcept fun q hq => good_joinAt hq hp
  refine Lex.yields_bind fun second => Lex.yields_guard fun _ => ?_
  exact (Lex.yields_ofExcept fun q hq => good_background hq hp).bind fun q hq => good_startItem hq

theorem keeps_endLine {ended : Bool} (h : p.endLine = .ok (ended, p')) : p.Keeps p' := by
  rw [endLine] at h
  split at h
  · cases h
  dsimp only at h
  split at h
  · cases h
    exact ⟨rfl, rfl, id⟩
  split at h
  · cases h
  next found q hq =>
    cases h
    exact (keeps_endPipeline hq).trans (keeps_endItem q found none)

theorem good_newline (hp : p.Good n) : (p.newline line at_).Yields (Good n) := by
  refine (Lex.yields_ofExcept fun q hq => good_endWord hq hp).bind fun q hq => ?_
  refine Lex.Yields.bind (P := fun r => r.2.Good n)
    (Lex.yields_ofExcept fun r hr => (keeps_endLine hr).good hq) ?_
  rintro ⟨ended, r⟩ hr
  exact Lex.yields_ite (fun _ => good_startItem hr) fun _ => Lex.yields_pure hr

theorem stop_closeQuote (b : Building) (before : ℕ) : (b.closeQuote before).stop = b.stop := by
  rw [Building.closeQuote, apply_ite Building.stop]
  exact ite_self _

theorem stop_single (b : Building) : b.single.Yields fun w => w.stop = b.stop := by
  refine Lex.Yields.bind (P := fun w => w.stop = b.stop) ?_ fun w hw =>
    Lex.yields_pure ((stop_closeQuote w b.added).trans hw)
  refine Lex.yields_loop (I := fun w => w.stop = b.stop) rfl fun w c hw => ?_
  exact Lex.yields_ite (fun _ => Lex.yields_pure hw) fun _ => Lex.yields_pure hw

theorem stop_double (b : Building) : b.double.Yields fun w => w.stop = b.stop := by
  refine Lex.Yields.bind (P := fun w => w.stop = b.stop) ?_ fun w hw =>
    Lex.yields_pure ((stop_closeQuote w b.added).trans hw)
  refine Lex.yields_loop (I := fun w => w.stop = b.stop) rfl fun w c hw => ?_
  refine Lex.yields_ite (fun _ => Lex.yields_pure hw) fun _ => ?_
  refine Lex.yields_ite (fun _ => Lex.yields_bind fun _ => Lex.yields_pure hw) fun _ => ?_
  refine Lex.yields_ite (fun _ => Lex.yields_bind fun found => ?_) fun _ => ?_
  · cases found with
    | none => exact Lex.yields_pure hw
    | some param => exact Lex.yields_pure hw
  exact Lex.yields_guard fun _ => Lex.yields_pure hw

/-- **Every character keeps the parser good.** -/
theorem good_arm (hp : p.Good n) (c : Char) : (p.arm line at_ c).Yields (Good n) := by
  refine Lex.yields_ite (fun _ => Lex.yields_ofExcept fun q hq => good_endWord hq hp) fun _ => ?_
  refine Lex.yields_ite (fun _ => good_greater hp) fun _ => ?_
  refine Lex.yields_ite (fun _ => good_bar hp) fun _ => ?_
  refine Lex.yields_ite (fun _ => good_semicolon hp) fun _ => ?_
  refine Lex.yields_ite (fun _ => good_less hp) fun _ => ?_
  refine Lex.yields_ite (fun _ => good_ampersand hp) fun _ => ?_
  refine Lex.yields_ite (fun _ => ?_) fun _ => ?_
  · exact (stop_single p.word).bind fun w hw => Lex.yields_pure (good_withWord hp hw)
  refine Lex.yields_ite (fun _ => ?_) fun _ => ?_
  · exact (stop_double p.word).bind fun w hw => Lex.yields_pure (good_withWord hp hw)
  refine Lex.yields_ite (fun _ => Lex.yields_bind fun escaped => ?_) fun _ => ?_
  · cases escaped with
    | none => exact Lex.yields_fail
    | some c => exact Lex.yields_pure (good_withWord (w := p.word.quoted c) hp rfl)
  refine Lex.yields_ite (fun _ => Lex.yields_bind fun found => ?_) fun _ => ?_
  · cases found with
    | none => exact Lex.yields_pure (good_withWord (w := p.word.add '$' false) hp rfl)
    | some param => exact Lex.yields_pure (good_withWord (w := p.word.param param false) hp rfl)
  refine Lex.yields_ite
    (fun _ => Lex.yields_bind fun _ => Lex.yields_bind fun here => ?_) fun _ => ?_
  · exact Lex.yields_pure ⟨hp.text, hp.tidy, hp.stop⟩
  refine Lex.yields_ite (fun _ => good_newline hp) fun _ => ?_
  refine Lex.yields_guard fun _ => ?_
  exact Lex.yields_pure ⟨hp.text, hp.tidy, hp.stop⟩

theorem good_endBefore {c : Char} (h : p.endBefore line at_ c = .ok p') (hp : p.Good n) :
    p'.Good n := by
  rw [endBefore] at h
  split at h
  · cases h
    exact hp
  · exact good_endWord h hp

theorem good_withStage (hp : p.Good n) (stage : OpenStage) : (p.withStage stage).Good n := by
  rw [withStage]
  split
  · exact hp
  · exact ⟨hp.text, hp.tidy, hp.stop⟩

theorem good_step (hp : p.Good n) (c : Char) : (p.step line at_ c).Yields (Good n) := by
  refine Lex.yields_ite (fun _ => ?_) fun _ => good_arm hp c
  refine (Lex.yields_ofExcept fun q hq => good_endBefore hq hp).bind fun q hq => ?_
  cases q.forHeader with
  | none => exact good_arm hq c
  | some stage =>
    refine Lex.yields_guard fun _ => ?_
    refine Lex.Yields.bind (P := Good n) (Lex.yields_bind fun token => ?_) fun r hr =>
      good_startItem hr
    cases forNext stage token with
    | none => exact Lex.yields_fail
    | some next => exact Lex.yields_pure (good_withStage hq next)

theorem good_mark {here : ℕ} (hp : p.Good n) (h : here ≤ n) : (p.mark at_ here).Good n := by
  rw [mark]
  split
  · exact ⟨hp.text, hp.tidy, h⟩
  · exact hp

/-! ### The text behind a step

A step cuts words and a job's text out of the line, up to where it stands: what follows there
does not matter. -/

section Append

variable (hp : p.Good line.length) (t : List Char)

include hp

theorem outputFd_append : p.outputFd (line ++ t) at_ = p.outputFd line at_ := by
  rw [outputFd, outputFd]
  rcases h : p.fdWord with e | ⟨digits, q⟩
  · rfl
  · simp only [endWord_append (good_fdWord h hp).stop t]

theorem inputFd_append : p.inputFd (line ++ t) at_ = p.inputFd line at_ := by
  rw [inputFd, inputFd]
  rcases h : p.fdWord with e | ⟨digits | digits, q⟩
  · rfl
  · simp only [endWord_append (good_fdWord h hp).stop t]
  · simp only [endWord_append (good_fdWord h hp).stop t]

theorem joinAt_append (connector : Connector) :
    p.joinAt (line ++ t) at_ connector = p.joinAt line at_ connector := by
  rw [joinAt, joinAt, endWord_append hp.stop]

theorem pipe_append : p.pipe (line ++ t) at_ = p.pipe line at_ := by
  rw [pipe, pipe, endWord_append hp.stop]

theorem semicolonItem_append : p.semicolonItem (line ++ t) at_ = p.semicolonItem line at_ := by
  rw [semicolonItem, semicolonItem, endWord_append hp.stop]

theorem background_append (hat : at_ ≤ line.length) :
    p.background (line ++ t) at_ = p.background line at_ := by
  rw [background, background, endWord_append hp.stop]
  simp only [jobText_append hat]

theorem arm_append (hat : at_ ≤ line.length) (c : Char) :
    p.arm (line ++ t) at_ c = p.arm line at_ c := by
  rw [arm, arm, endWord_append hp.stop, greater, greater, outputFd_append hp, bar, bar,
    joinAt_append hp, pipe_append hp, semicolon, semicolon, semicolonItem_append hp, less, less,
    inputFd_append hp, ampersand, ampersand, joinAt_append hp, background_append hp t hat, newline,
    newline, endWord_append hp.stop]

theorem step_append (hat : at_ ≤ line.length) (c : Char) :
    p.step (line ++ t) at_ c = p.step line at_ c := by
  rw [step, step, arm_append hp t hat, operator, operator]
  congr 1
  have hbefore : p.endBefore (line ++ t) at_ c = p.endBefore line at_ c := by
    rw [endBefore, endBefore, endWord_append hp.stop]
  rw [hbefore]
  refine Lex.ofExcept_bind_congr fun q hq => ?_
  rw [arm_append (good_endBefore hq hp) t hat]

end Append

/-! ### Reading on -/

theorem readFrom_nil (p : Parser) (pos : ℕ) : readFrom line p pos [] = .ok p := by
  rw [readFrom]

/-- One turn of the loop. -/
theorem readFrom_cons (p : Parser) (pos : ℕ) (c : Char) (rest : List Char) :
    readFrom line p pos (c :: rest) =
      match (p.step line pos c).run ⟨pos + 1, rest⟩ with
      | .error e => .error e
      | .ok (p', cur) => readFrom line (p'.mark pos cur.pos) cur.pos cur.rest := by
  rw [readFrom]
  rcases (p.step line pos c).run ⟨pos + 1, rest⟩ with e | ⟨p', cur⟩ <;> rfl

/-- Where the reader of a text stands. -/
structure At (line : List Char) (p : Parser) (pos : ℕ) (rest : List Char) : Prop where
  good : p.Good line.length
  length : pos + rest.length = line.length

/-- One turn leads from place to place. -/
theorem At.step {c : Char} {cur : Cursor} (h : At line p pos (c :: rest))
    (hrun : (p.step line pos c).run ⟨pos + 1, rest⟩ = .ok (p', cur)) :
    At line (p'.mark pos cur.pos) cur.pos cur.rest := by
  have hend := (Lex.moves hrun).end_eq
  have hlength := h.length
  simp only [List.length_cons] at hend hlength
  constructor
  · exact good_mark (good_step h.good c _ _ _ hrun) (by omega)
  · omega

/-- **What has been read stays read**: if a text can be read, then a new line and more behind
it are read from where the text ends; if not, its new line does not help. -/
theorem readFrom_followed (h : At line p pos rest) :
    match readFrom line p pos rest with
    | .ok q => q.Good line.length ∧ ∀ t, readFrom (line ++ '\n' :: t) p pos (rest ++ '\n' :: t) =
        readFrom (line ++ '\n' :: t) q line.length ('\n' :: t)
    | .error e => readFrom (line ++ ['\n']) p pos (rest ++ ['\n']) = .error e := by
  induction hn : rest.length using Nat.strong_induction_on generalizing p pos rest with
  | _ n ih =>
    subst hn
    cases rest with
    | nil =>
      rw [readFrom_nil]
      refine ⟨h.good, fun t => ?_⟩
      rw [List.nil_append, ← h.length, List.length_nil, Nat.add_zero]
    | cons c rest =>
      have hpos : pos ≤ line.length := h.length ▸ Nat.le_add_right _ _
      rw [readFrom_cons]
      rcases hrun : (p.step line pos c).run ⟨pos + 1, rest⟩ with e | ⟨p', cur⟩
      · have hrun' := Lex.error_followed hrun
        simp only [Cursor.followed] at hrun'
        dsimp only
        rw [List.cons_append, readFrom_cons, step_append h.good _ hpos, hrun']
      · have hlt : cur.rest.length < (c :: rest).length :=
          Nat.lt_succ_of_le (Lex.moves hrun).length_le
        have hread := ih _ hlt (h.step hrun) rfl
        have hstep : ∀ t, readFrom (line ++ '\n' :: t) p pos (c :: rest ++ '\n' :: t) =
            readFrom (line ++ '\n' :: t) (p'.mark pos cur.pos) cur.pos
              (cur.rest ++ '\n' :: t) := fun t => by
          have hrun' := Lex.ok_followed t hrun
          simp only [Cursor.followed] at hrun'
          rw [List.cons_append, readFrom_cons, step_append h.good _ hpos, hrun']
        simpa only [hstep] using hread

/-! ### The new line -/

/-- What the new line after `line` does, with nothing to read behind it. -/
def afterLine (p : Parser) (line : List Char) : Except ParseError Parser :=
  match p.endWord line line.length with
  | .error e => .error e
  | .ok p =>
    match p.forHeader with
    | some stage =>
      match forNext stage "newline" with
      | some next => .ok { p.withStage next with itemStart := line.length + 1 }
      | none => .error (.missingTarget "newline")
    | none =>
      match p.endLine with
      | .error e => .error e
      | .ok (ended, p) => .ok (if ended then { p with itemStart := line.length + 1 } else p)

theorem step_newline (hp : p.Good line.length) (t rest : List Char) :
    (p.step (line ++ t) line.length '\n').run ⟨line.length + 1, rest⟩ =
      (p.afterLine line).map (·, ⟨line.length + 1, rest⟩) := by
  have hstep : p.step line line.length '\n' = p.operator line line.length '\n' := rfl
  have hbefore : p.endBefore line line.length '\n' = p.endWord line line.length := rfl
  rw [step_append hp t le_rfl, hstep, operator, hbefore, afterLine]
  rcases hword : p.endWord line line.length with e | q
  · rfl
  rw [Lex.run_bind, Lex.run_ofExcept_ok, Lex.next_ok]
  dsimp only
  cases hfor : q.forHeader with
  | some stage =>
    have hplain : ¬(isRedirection '\n' ∧ q.onDigits) := by simp [isRedirection]
    have htoken : q.forOperator stage '\n' = match forNext stage "newline" with
        | some next => pure (q.withStage next)
        | none => Lex.fail (.missingTarget "newline") := rfl
    dsimp only
    rw [if_neg hplain, Lex.run_bind, htoken]
    cases forNext stage "newline" with
    | none => rfl
    | some next => rfl
  | none =>
    -- The word has ended: the new line's own end of a word does nothing.
    have hnewline : q.arm line line.length '\n' = q.newline line line.length := rfl
    rw [hnewline, newline, endWord_none (word_endWord hword) hfor, Lex.run_bind,
      Lex.run_ofExcept_ok, Lex.next_ok]
    rcases q.endLine with e | ⟨ended, r⟩
    · rfl
    · cases ended with
      | true => rfl
      | false => rfl

theorem word_afterLine (h : p.afterLine line = .ok p') : p'.word = {} := by
  rw [afterLine] at h
  split at h
  · cases h
  next q hq =>
    have hword := word_endWord hq
    split at h
    · split at h
      next stage hstage next_ hnext =>
        cases h
        rw [withStage]
        split
        · exact hword
        · exact hword
      · cases h
    · split at h
      · cases h
      next ended r hr =>
        cases h
        have hkept := (keeps_endLine hr).word.trans hword
        split
        · exact hkept
        · exact hkept

/-- **The new line is read by itself**: what follows it is read from there. -/
theorem readFrom_newline (hp : p.Good line.length) (t : List Char) :
    readFrom (line ++ '\n' :: t) p line.length ('\n' :: t) =
      match p.afterLine line with
      | .error e => .error e
      | .ok q => readFrom (line ++ '\n' :: t) q (line.length + 1) t := by
  rw [readFrom_cons, step_newline hp]
  rcases hq : p.afterLine line with e | q
  · rfl
  · have hmark : q.mark line.length (line.length + 1) = q := by
      rw [mark, word_afterLine hq]
      rfl
    change readFrom _ (q.mark line.length (line.length + 1)) (line.length + 1) t = _
    rw [hmark]

theorem good_afterLine (hp : p.Good line.length) (h : p.afterLine line = .ok p') :
    p'.Good (line.length + 1) := by
  have hrun := step_newline hp [] []
  rw [h, List.append_nil] at hrun
  have hgood := good_step hp '\n' _ _ _ hrun
  exact ⟨hgood.text, hgood.tidy, hgood.stop.trans (Nat.le_succ _)⟩

/-! ### The end of the text -/

theorem opened_endPipeline
    (h : p.endPipeline token = .ok (found, p')) : p'.opened = p.opened ∧ p'.items = p.items := by
  obtain ⟨-, -, rfl⟩ | ⟨-, -, -, -, rfl⟩ | ⟨-, rfl⟩ := endPipeline_cases h
  · exact ⟨rfl, rfl⟩
  · exact ⟨rfl, rfl⟩
  · exact ⟨rfl, rfl⟩

theorem opened_endLine {ended : Bool} (h : p.endLine = .ok (ended, p')) : p'.opened = p.opened := by
  rw [endLine] at h
  split at h
  · cases h
  dsimp only at h
  split at h
  · cases h
    rfl
  split at h
  · cases h
  next found q hq =>
    cases h
    cases found with
    | none => exact (opened_endPipeline hq).1
    | some pipeline => exact (opened_endPipeline hq).1

theorem connector_pipeline (s : ItemsRead) (pipeline : Pipeline Word) :
    (s.pipeline pipeline).connector = none := by
  rw [ItemsRead.pipeline]
  split <;> rfl

theorem connector_end (s : ItemsRead) (background : Option String) :
    (s.end background).connector = s.connector := by
  rw [ItemsRead.end]
  split <;> rfl

theorem endPipeline_nothing (token : String) (hpending : ¬p.parts.pending.isSome)
    (hempty : p.parts.isEmpty) (hbangs : p.parts.bangs = 0) (hpipe : p.pipeline = []) :
    p.endPipeline token = .ok (none, p) := by
  simp only [Parts.isEmpty, Bool.and_eq_true, List.isEmpty_iff, Option.isNone_iff_eq_none] at hempty
  obtain ⟨⟨hwords, hredirects⟩, hcompound⟩ := hempty
  rw [endPipeline, if_neg hpending, hcompound]
  exact if_pos ⟨hwords, hpipe, hredirects, hbangs⟩

theorem needsMore_endItem (found : Option (Pipeline Word)) (hpipe : p.pipeline = [])
    (hopened : p.opened = []) :
    ((found.elim p p.withPipeline).endItem none).needsMore =
      (found.isNone && p.items.connector.isSome) := by
  cases found with
  | none => simp [needsMore, endItem, hpipe, hopened, connector_end]
  | some pipeline =>
    simp [needsMore, endItem, withPipeline, hpipe, hopened, connector_end, connector_pipeline]

/-- **The end of a line against the end of the text**, with no compound command open. -/
theorem endLine_lastItem (hp : p.Tidy) (hopened : p.opened = []) :
    match p.endLine with
    | .error e => p.lastItem = .error e
    | .ok (_, q) =>
      p.lastItem = if q.needsMore then .error .incomplete
        else .ok (Items.ofList q.items.items) := by
  rw [endLine, lastItem]
  by_cases hpending : p.parts.pending.isSome
  · rw [if_pos hpending, if_pos hpending]
  rw [if_neg hpending, if_neg hpending]
  dsimp only
  by_cases hmore : (p.parts.isEmpty ∧ (p.parts.bangs = 0 ∨ p.pipeline ≠ [])) ∧
      (p.pipeline ≠ [] ∨ p.items.connector.isSome)
  · -- The command goes on: the text must not end here.
    rw [if_pos hmore]
    obtain ⟨⟨hempty, hbangs⟩, hwaits⟩ := hmore
    have hneeds : p.needsMore = true := by
      simpa [needsMore, hopened] using hwaits
    dsimp only
    rw [hneeds, if_pos rfl]
    by_cases hpipe : p.pipeline = []
    · have hconnector : p.items.connector.isSome := hwaits.resolve_left (not_not_intro hpipe)
      have hnothing := endPipeline_nothing "newline" hpending hempty
        (hbangs.resolve_right (not_not_intro hpipe)) hpipe
      rw [if_neg (fun h => h.1 hpipe), hnothing]
      exact if_pos ⟨rfl, hconnector⟩
    · simp only [Parts.isEmpty, Bool.and_eq_true, List.isEmpty_iff] at hempty
      exact if_pos ⟨hpipe, hempty.1.1, hempty.1.2⟩
  · rw [if_neg hmore]
    have hlater : ¬(p.pipeline ≠ [] ∧ p.parts.words = [] ∧ p.parts.redirects = []) := by
      rintro ⟨hpipe, hwords, hredirects⟩
      have hnone := hp.resolve_left hpipe
      refine hmore ⟨⟨?_, .inr hpipe⟩, .inl hpipe⟩
      simp [Parts.isEmpty, hwords, hredirects, hnone]
    rw [if_neg hlater]
    rcases hend : p.endPipeline "newline" with e | ⟨found, q⟩
    · rfl
    have hitems := opened_endPipeline hend
    have hneeds := needsMore_endItem found (pipeline_endPipeline hend hp)
      (hitems.1.trans hopened)
    dsimp only
    rw [hneeds]
    simp only [Bool.and_eq_true]

theorem needsMore_of_opened (h : p.opened ≠ []) : p.needsMore := by
  simp [needsMore, h]

/-- The text can be read, and a compound command is open when it ends. -/
def endsOpen (p : Parser) : Bool :=
  match { p with text := [] }.endWord p.text p.text.length with
  | .error _ => false
  | .ok p => !p.opened.isEmpty

theorem Good.textless (hp : p.Good n) : ({ p with text := [] } : Parser) = p := by
  rw [← hp.text]

theorem end_eq (hp : p.Good n) :
    ({ p with text := line } : Parser).end = match p.endWord line line.length with
      | .error e => .error e
      | .ok q => if q.opened ≠ [] then .error .incomplete else q.lastItem := by
  rw [Parser.end]
  cases hword : p.endWord line line.length <;> simp only [hp.textless, hword]

theorem endsOpen_eq (hp : p.Good n) :
    ({ p with text := line } : Parser).endsOpen = match p.endWord line line.length with
      | .error _ => false
      | .ok q => !q.opened.isEmpty := by
  rw [endsOpen]
  cases hword : p.endWord line line.length <;> simp only [hp.textless, hword]

theorem opened_afterLine {r : Parser} (hq : p.endWord line line.length = .ok q)
    (hopened : q.opened ≠ []) (h : p.afterLine line = .ok r) : r.opened ≠ [] := by
  rw [afterLine, hq] at h
  dsimp only at h
  split at h
  · split at h
    next next_ hnext =>
      cases h
      dsimp only
      rw [withStage]
      split
      · exact hopened
      · exact List.cons_ne_nil _ _
    · cases h
  · split at h
    · cases h
    next ended q' hend =>
      cases h
      rw [← opened_endLine hend] at hopened
      cases ended with
      | true => exact hopened
      | false => exact hopened

theorem afterLine_closed (hq : p.endWord line line.length = .ok q) (hopened : q.opened = []) :
    p.afterLine line = match q.endLine with
      | .error e => .error e
      | .ok (ended, r) => .ok (if ended then { r with itemStart := line.length + 1 } else r) := by
  have hfor : q.forHeader = none := by
    rw [forHeader, hopened]
    rfl
  rw [afterLine, hq]
  dsimp only
  rw [hfor]

/-- **A new line that fails against the end of the text.** -/
theorem end_of_afterLine_error (hp : p.Good line.length) (h : p.afterLine line = .error e) :
    ({ p with text := line } : Parser).end =
      .error (if ({ p with text := line } : Parser).endsOpen then .incomplete else e) := by
  rcases hword : p.endWord line line.length with e' | q
  · rw [afterLine, hword] at h
    cases h
    rw [end_eq hp, endsOpen_eq hp, hword]
    rfl
  rw [end_eq hp, endsOpen_eq hp, hword]
  dsimp only
  by_cases hopened : q.opened = []
  · have hline := endLine_lastItem (good_endWord hword hp).tidy hopened
    rw [afterLine_closed hword hopened] at h
    rcases hlast : q.endLine with e' | ⟨ended, r⟩
    · rw [hlast] at h hline
      cases h
      simpa [hopened] using hline
    · rw [hlast] at h
      cases h
  · simp [hopened]

/-- **A new line against the end of the text.** -/
theorem end_of_afterLine_ok {r : Parser} (hp : p.Good line.length) (h : p.afterLine line = .ok r) :
    ({ p with text := line } : Parser).end =
      if r.needsMore then .error .incomplete else .ok (Items.ofList r.items.items) := by
  rcases hword : p.endWord line line.length with e' | q
  · rw [afterLine, hword] at h
    cases h
  rw [end_eq hp, hword]
  dsimp only
  by_cases hopened : q.opened = []
  · have hline := endLine_lastItem (good_endWord hword hp).tidy hopened
    rw [afterLine_closed hword hopened] at h
    rw [if_neg (not_not_intro hopened)]
    rcases hlast : q.endLine with e' | ⟨ended, r'⟩
    · rw [hlast] at h
      cases h
    · rw [hlast] at h hline
      cases h
      cases ended with
      | true => exact hline
      | false => exact hline
  · rw [if_pos hopened, if_pos (needsMore_of_opened (opened_afterLine hword hopened h))]

/-! ### Line by line -/

/-- The parser has read the lines of `text`, new lines and all, as it would have read them at the
start of any longer text. -/
structure HasRead (text : List Char) (p : Parser) : Prop where
  text_eq : p.text = text
  good : Good text.length { p with text := [] }
  whole : ∀ s, readFrom (text ++ s) {} 0 (text ++ s) =
    readFrom (text ++ s) { p with text := [] } text.length s

theorem hasRead_new : HasRead [] {} :=
  ⟨rfl, ⟨rfl, .inl rfl, le_rfl⟩, fun _ => rfl⟩

/-- Where the parser stands when it is given another line. -/
theorem HasRead.at (h : HasRead text p) (s : List Char) :
    At (text ++ s) { p with text := [] } text.length s := by
  constructor
  · refine ⟨h.good.text, h.good.tidy, h.good.stop.trans ?_⟩
    rw [List.length_append]
    exact Nat.le_add_right _ _
  · rw [List.length_append]

/-- What `line` reads of a line and its new line. -/
theorem HasRead.read (h : HasRead text p) (s : List Char) :
    ({ p with text := p.text ++ s ++ ['\n'] } : Parser).read p.text.length =
      (readFrom (text ++ s ++ ['\n']) { p with text := [] } text.length (s ++ ['\n'])).map
        ({ · with text := text ++ s ++ ['\n'] }) := by
  rw [Parser.read, h.text_eq]
  dsimp only
  rw [List.append_assoc, List.drop_left]

/-- **One more line**: if it can be read, the whole text up to it can be, and what is left to do
is its new line. -/
theorem HasRead.line_cases (h : HasRead text p) (l : String) :
    (∃ e, readFrom (text ++ l.toList) {} 0 (text ++ l.toList) = .error e ∧ p.line l = .error e) ∨
    ∃ q : Parser, readFrom (text ++ l.toList) {} 0 (text ++ l.toList) = .ok q ∧
      q.Good (text ++ l.toList).length ∧
      (∀ t, readFrom (text ++ l.toList ++ '\n' :: t) {} 0 (text ++ l.toList ++ '\n' :: t) =
        readFrom (text ++ l.toList ++ '\n' :: t) q (text ++ l.toList).length ('\n' :: t)) ∧
      p.line l = match q.afterLine (text ++ l.toList) with
        | .error e => .error e
        | .ok r =>
          if r.needsMore then .ok (none, { r with text := text ++ l.toList ++ ['\n'] })
          else .ok (some (Items.ofList r.items.items), {}) := by
  have hnewline := readFrom_followed (h.at l.toList)
  rw [h.whole l.toList, line, h.read]
  rcases hread : readFrom (text ++ l.toList) { p with text := [] } text.length l.toList
    with e | q <;>
    rw [hread] at hnewline
  · refine .inl ⟨e, rfl, ?_⟩
    rw [hnewline]
    rfl
  · obtain ⟨hgood, hmore⟩ := hnewline
    refine .inr ⟨q, rfl, hgood, fun t => ?_, ?_⟩
    · rw [List.append_assoc, h.whole (l.toList ++ '\n' :: t), ← List.append_assoc]
      exact hmore t
    · rw [hmore [], readFrom_newline hgood]
      rcases q.afterLine (text ++ l.toList) with e | r
      · rfl
      · dsimp only
        rw [readFrom_nil]
        rfl

/-- A line that asks for more has been read. -/
theorem HasRead.step (h : HasRead text p) {l : String}
    (hl : p.line l = .ok (none, p')) : HasRead (text ++ l.toList ++ ['\n']) p' := by
  obtain ⟨e, -, he⟩ | ⟨q, -, hgood, hmore, hline⟩ := h.line_cases l
  · rw [he] at hl
    cases hl
  rw [hline] at hl
  rcases hafter : q.afterLine (text ++ l.toList) with e | r
  · rw [hafter] at hl
    cases hl
  rw [hafter] at hl
  dsimp only at hl
  split at hl
  · cases hl
    have hr := good_afterLine hgood hafter
    have hlength : (text ++ l.toList ++ ['\n']).length = (text ++ l.toList).length + 1 := by
      rw [List.length_append, List.length_singleton]
    refine ⟨rfl, ?_, fun s => ?_⟩
    · dsimp only
      rw [hr.textless, hlength]
      exact hr
    · have hcons : text ++ l.toList ++ ['\n'] ++ s = text ++ l.toList ++ '\n' :: s := by
        rw [List.append_assoc, List.singleton_append]
      rw [hcons, hmore s, readFrom_newline hgood, hafter]
      dsimp only
      rw [hr.textless, hlength]
  · cases hl

/-- The parser after lines that all asked for more; none if one of them did not. -/
def afterLines (p : Parser) : List String → Option Parser
  | [] => some p
  | l :: lines =>
    match p.line l with
    | .ok (none, q) => q.afterLines lines
    | _ => none

/-- The text of lines, each with its new line. -/
def textOf (lines : List String) : List Char :=
  lines.flatMap fun l => l.toList ++ ['\n']

theorem HasRead.afterLines (h : HasRead text p) {lines : List String}
    (hp : p.afterLines lines = some p') : HasRead (text ++ textOf lines) p' := by
  induction lines generalizing p text with
  | nil =>
    cases hp
    rw [textOf, List.flatMap_nil, List.append_nil]
    exact h
  | cons l lines ih =>
    rw [Parser.afterLines] at hp
    split at hp
    next q hq =>
      have hrest := ih (h.step hq) hp
      rw [textOf, List.flatMap_cons, ← List.append_assoc, ← List.append_assoc]
      exact hrest
    · cases hp

end Parser

/-! ### The whole text -/

/-- The text can be read, and a compound command is open when it ends. -/
def endsOpen (text : String) : Bool :=
  match ({ text := text.toList } : Parser).read 0 with
  | .error _ => false
  | .ok p => p.endsOpen

/-- What the parser answers to the last of some lines, if it asked for more after each line before
it. -/
def answer (before : List String) (last : String) :
    Option (Except ParseError (Option (Items Word))) :=
  (({} : Parser).afterLines before).map fun p => (p.line last).map (·.1)

/-- The lines as one text, joined by new lines. -/
def joined (before : List String) (last : String) : String :=
  "\n".intercalate (before ++ [last])

theorem toList_joined (before : List String) (last : String) :
    (joined before last).toList = Parser.textOf before ++ last.toList := by
  rw [joined]
  induction before with
  | nil => simp [Parser.textOf]
  | cons l before ih =>
    -- What is joined after `l` is not empty, so a new line comes before it.
    obtain ⟨m, lines, hlines⟩ : ∃ m lines, before ++ [last] = m :: lines :=
      List.exists_cons_of_ne_nil (by simp)
    rw [List.cons_append, hlines, String.intercalate_cons_cons, ← hlines, String.toList_append, ih,
      String.toList_append]
    simp [Parser.textOf]

/-- A whole text is read from its start. -/
theorem parseLine_eq (text : String) :
    parseLine text = match Parser.readFrom text.toList {} 0 text.toList with
      | .error e => .error e
      | .ok p => ({ p with text := text.toList } : Parser).end := by
  rw [parseLine, Parser.read]
  dsimp only
  rw [List.drop_zero]
  rcases Parser.readFrom text.toList {} 0 text.toList with e | p
  · rfl
  · rfl

theorem endsOpen_eq (text : String) :
    endsOpen text = match Parser.readFrom text.toList {} 0 text.toList with
      | .error _ => false
      | .ok p => ({ p with text := text.toList } : Parser).endsOpen := by
  rw [endsOpen, Parser.read]
  dsimp only
  rw [List.drop_zero]
  rcases Parser.readFrom text.toList {} 0 text.toList with e | p
  · rfl
  · rfl

theorem answer_cases {before : List String} {last : String}
    {r : Except ParseError (Option (Items Word))} (h : answer before last = some r) :
    let text := (joined before last).toList
    (∃ e, r = .error e ∧ Parser.readFrom text {} 0 text = .error e ∧
      Parser.readFrom (text ++ ['\n']) {} 0 (text ++ ['\n']) = .error e) ∨
    ∃ q : Parser, Parser.readFrom text {} 0 text = .ok q ∧ q.Good text.length ∧
      Parser.readFrom (text ++ ['\n']) {} 0 (text ++ ['\n']) = q.afterLine text ∧
      r = (q.afterLine text).map fun q =>
        if q.needsMore then none else some (Items.ofList q.items.items) := by
  intro text
  obtain ⟨p, hp, hr⟩ := Option.map_eq_some_iff.mp h
  have hread := Parser.hasRead_new.afterLines hp
  rw [List.nil_append] at hread
  have htext : text = Parser.textOf before ++ last.toList := toList_joined before last
  obtain ⟨e, he, hline⟩ | ⟨q, hq, hgood, hmore, hline⟩ := hread.line_cases last
  · rw [← htext] at he
    rw [hline] at hr
    have hnewline := Parser.readFrom_followed (p := {}) ⟨⟨rfl, .inl rfl, Nat.zero_le _⟩,
        Nat.zero_add text.length⟩
    rw [he] at hnewline
    exact .inl ⟨e, hr.symm, he, hnewline⟩
  · rw [← htext] at hq hgood hmore hline
    refine .inr ⟨q, hq, hgood, ?_, ?_⟩
    · rw [hmore [], Parser.readFrom_newline hgood]
      rcases q.afterLine text with e | q'
      · rfl
      · exact Parser.readFrom_nil _ _
    · rw [← hr, hline]
      rcases q.afterLine text with e | q'
      · rfl
      · cases hneeds : q'.needsMore with
        | true => simp [Except.map, hneeds]
        | false => simp [Except.map, hneeds]

/-- **Reading a command line by line is reading it whole.** The parser is given lines one after
another, and asks for more after each but the last.

* If it has the list after the last line, that is the list of the lines joined to one text.
* If it asks for more after the last line too, that text is incomplete.
* If the last line is wrong, so is the text, for the same reason, unless a compound command is
  open where it ends: then the text is incomplete. With its last new line it is always wrong for
  the same reason. -/
theorem lines_read_whole (before : List String) (last : String) :
    (∀ list, answer before last = some (.ok (some list)) →
      parseLine (joined before last) = .ok list) ∧
    (answer before last = some (.ok none) →
      parseLine (joined before last) = .error .incomplete) ∧
    (∀ e, answer before last = some (.error e) →
      parseLine (joined before last) =
        .error (if endsOpen (joined before last) then .incomplete else e) ∧
      parseLine (joined before last ++ "\n") = .error e) := by
  have hjoined : (joined before last ++ "\n").toList = (joined before last).toList ++ ['\n'] :=
    String.toList_append
  refine ⟨fun list h => ?_, fun h => ?_, fun e h => ?_⟩
  · obtain ⟨e, he, -⟩ | ⟨q, hq, hgood, -, hr⟩ := answer_cases h
    · cases he
    obtain ⟨q', hq', hlist⟩ := exists_of_map_eq_ok hr.symm
    rw [parseLine_eq, hq]
    dsimp only
    rw [Parser.end_of_afterLine_ok hgood hq']
    split at hlist
    · cases hlist
    next hneeds =>
      cases hlist
      rw [if_neg hneeds]
  · obtain ⟨e, he, -⟩ | ⟨q, hq, hgood, -, hr⟩ := answer_cases h
    · cases he
    obtain ⟨q', hq', hnone⟩ := exists_of_map_eq_ok hr.symm
    rw [parseLine_eq, hq]
    dsimp only
    rw [Parser.end_of_afterLine_ok hgood hq']
    split at hnone
    next hneeds => rw [if_pos hneeds]
    · cases hnone
  · rw [parseLine_eq (joined before last ++ "\n"), hjoined, parseLine_eq, endsOpen_eq]
    obtain ⟨e', he, hread, hread'⟩ | ⟨q, hq, hgood, hread', hr⟩ := answer_cases h
    · cases he
      rw [hread, hread']
      exact ⟨rfl, rfl⟩
    · rcases hafter : q.afterLine (joined before last).toList with e' | q'
      · rw [hafter] at hr hread'
        cases hr
        rw [hq, hread']
        exact ⟨Parser.end_of_afterLine_error hgood hafter, rfl⟩
      · rw [hafter] at hr
        cases hr

/-- An answer that is a failure. -/
def failure : Option (Except ParseError (Option (Items Word))) → Option ParseError
  | some (.error e) => some e
  | _ => none

theorem failure_eq_some {r : Option (Except ParseError (Option (Items Word)))} {e : ParseError}
    (h : failure r = some e) : r = some (.error e) := by
  rcases r with _ | e' | list
  · cases h
  · cases h
    rfl
  · cases h

/-- Lines that make a list, that want more, and that are wrong, once with a `for` open. -/
theorem lines_read_whole_sample :
    (∃ list, answer ["ls |"] "wc" = some (.ok (some list)) ∧ parseLine "ls |\nwc" = .ok list) ∧
    parseLine "if a\nthen b" = .error .incomplete ∧
    parseLine "ls |\n;" = .error (.missingTarget ";") ∧
    parseLine "ls &&\nfor" = .error .incomplete ∧
    parseLine "ls &&\nfor\n" = .error (.missingTarget "newline") := by
  have hlist : (answer ["ls |"] "wc").any (fun r => r.toOption.any Option.isSome) = true := by
    decide +kernel
  have hmore : (answer ["if a"] "then b").any (fun r => r.toOption.any Option.isNone) = true := by
    decide +kernel
  have hwrong : failure (answer ["ls |"] ";") = some (.missingTarget ";") := by decide +kernel
  have hfor : failure (answer ["ls &&"] "for") = some (.missingTarget "newline") := by
    decide +kernel
  have hclosed : endsOpen (joined ["ls |"] ";") = false := by decide +kernel
  have hopen : endsOpen (joined ["ls &&"] "for") = true := by decide +kernel
  refine ⟨?_, ?_, ?_, ?_, ?_⟩
  · rcases hr : answer ["ls |"] "wc" with _ | e | _ | list
    · rw [hr] at hlist
      cases hlist
    · rw [hr] at hlist
      cases hlist
    · rw [hr] at hlist
      cases hlist
    · exact ⟨list, rfl, (lines_read_whole ["ls |"] "wc").1 list hr⟩
  · rcases hr : answer ["if a"] "then b" with _ | e | _ | list
    · rw [hr] at hmore
      cases hmore
    · rw [hr] at hmore
      cases hmore
    · exact (lines_read_whole ["if a"] "then b").2.1 hr
    · rw [hr] at hmore
      cases hmore
  · have h := ((lines_read_whole ["ls |"] ";").2.2 _ (failure_eq_some hwrong)).1
    rw [hclosed] at h
    exact h
  · have h := ((lines_read_whole ["ls &&"] "for").2.2 _ (failure_eq_some hfor)).1
    rw [hopen] at h
    exact h
  · exact ((lines_read_whole ["ls &&"] "for").2.2 _ (failure_eq_some hfor)).2

/-- **A wrong line may be an incomplete text**: the line `for` is refused at its newline, and the
text `for` only wants more. -/
theorem wrong_line_is_incomplete_text :
    ¬∀ (before : List String) (last : String), (∀ l ∈ before ++ [last], '\n' ∉ l.toList) →
      (∀ list, answer before last = some (.ok (some list)) →
        parseLine (joined before last) = .ok list) ∧
      (answer before last = some (.ok none) →
        parseLine (joined before last) = .error .incomplete) ∧
      (∀ e, answer before last = some (.error e) →
        parseLine (joined before last) = .error e) := by
  intro h
  have hline : failure (answer [] "for") = some (.missingTarget "newline") := by decide +kernel
  have htext : failure ((parseLine (joined [] "for")).map some) = some .incomplete := by
    decide +kernel
  have hwhole := (h [] "for" (by decide)).2.2 _ (failure_eq_some hline)
  rw [hwhole] at htext
  cases htext

end RelayOs.Sh
