import Mathlib
import RelayOs.Lib.Bytes
import RelayOs.Lib.Pieces

/-!
# The line discipline

In line mode what is typed on the console is edited here, and a program reads it a line at a time.
Enter ends a line, Ctrl-D hands over what is typed so far or, on an empty line, an end of input, and
Ctrl-C drops everything typed and not read.
-/

namespace RelayOs.Console

open Pieces

/-! ### The discipline -/

/-- The bytes typed and not read that the discipline keeps, each line's newline included. -/
def lineMax : ℕ := 4096

/-- Ctrl-C. -/
def interrupt : UInt8 := 0x03

/-- Ctrl-D. -/
def endKey : UInt8 := 0x04

/-- Backspace, and Ctrl-H. -/
def eraseKeys : Bytes := [0x7F, 0x08]

/-- The escape key. -/
def esc : UInt8 := 0x1B

/-- What Enter sends. -/
def cr : UInt8 := 0x0D

/-- A new line. -/
def lf : UInt8 := 0x0A

/-- A tab, the characters of ASCII, and the bytes of the others. -/
def IsText (b : UInt8) : Prop := b = 0x09 ∨ (0x20 ≤ b ∧ b ≤ 0x7E) ∨ 0x80 ≤ b

instance (b : UInt8) : Decidable (IsText b) := inferInstanceAs (Decidable (_ ∨ _ ∨ _))

/-- A continuation byte of a character of several bytes. -/
def isContinuation (b : UInt8) : Bool := b &&& 0xC0 == 0x80

/-- **The line discipline**: the line being typed, and the lines that wait to be read. -/
structure LineDiscipline where
  line : Bytes
  /-- Lines ended with Enter or Ctrl-D, oldest first; `none` is end of input. -/
  ready : List (Option Bytes)
  waiting : ℕ
  afterCr : Bool
  deriving DecidableEq, Repr

/-- Pops bytes off a line, given from its last one on, until one was no continuation byte. -/
def popCharacter : Bytes → Bytes
  | [] => []
  | b :: bs => if isContinuation b then popCharacter bs else bs

namespace LineDiscipline

/-- Nothing is typed and nothing waits. -/
def new : LineDiscipline := ⟨[], [], 0, false⟩

/-- Moves the line being typed to the ones that wait. -/
def handOver (d : LineDiscipline) : LineDiscipline :=
  { d with waiting := d.waiting + d.line.length, ready := d.ready ++ [some d.line], line := [] }

/-- **One key's bytes**: whether it was Ctrl-C, and what the screen should show. -/
def input (d : LineDiscipline) (key : Bytes) : Bool × Bytes × LineDiscipline :=
  let afterCr := d.afterCr
  let d := { d with afterCr := false }
  match key with
  | [b] =>
    if b = interrupt then (true, [], { d with line := [], ready := [], waiting := 0 })
    else if b = lf ∧ afterCr then (false, [], d)
    else if b = cr ∨ b = lf then
      let d := { d with afterCr := b == cr }
      if d.waiting + d.line.length < lineMax then
        (false, [lf], { d with line := d.line ++ [lf] }.handOver)
      else (false, [], d)
    else if b = endKey then
      if d.line = [] then
        if d.waiting < lineMax then
          (false, [], { d with ready := d.ready ++ [none], waiting := d.waiting + 1 })
        else (false, [], d)
      else (false, [], d.handOver)
    else if b ∈ eraseKeys then
      if d.line = [] then (false, [], d)
      else (false, [0x08, 0x20, 0x08], { d with line := (popCharacter d.line.reverse).reverse })
    else if b = esc then (false, [], d)
    else if IsText b ∧ d.waiting + d.line.length + 2 ≤ lineMax then
      (false, [b], { d with line := d.line ++ [b] })
    else (false, [], d)
  -- an escape sequence
  | _ => (false, [], d)

/-- Whether the key before the next one was a CR, read raw. -/
def setAfterCr (d : LineDiscipline) (b : Bool) : LineDiscipline := { d with afterCr := b }

/-- Whether a line, or end of input, waits to be read. -/
def hasLine (d : LineDiscipline) : Bool := !d.ready.isEmpty

/-- **Reads from the oldest line that waits** into a buffer of `n` bytes: `none` if none does, and
nothing at end of input. -/
def read (d : LineDiscipline) (n : ℕ) : Option Bytes × LineDiscipline :=
  if n = 0 then (some [], d)
  else
    match d.ready with
    | [] => (none, d)
    | none :: rest => (some [], { d with ready := rest, waiting := d.waiting - 1 })
    | some line :: rest =>
      let k := min n line.length
      (some (line.take k),
        { d with
          ready := if k = line.length then rest else some (line.drop k) :: rest
          waiting := d.waiting - k })

/-- **Everything typed and not read**, as the bytes a raw reader would have had. -/
def takeAll (d : LineDiscipline) : Bytes × LineDiscipline :=
  (data d.ready ++ d.line, { line := [], ready := [], waiting := 0, afterCr := false })

end LineDiscipline

/-! ### What a key means -/

/-- What a key does to the line being typed. -/
inductive Stroke
  | interrupt
  | enter
  | endInput
  | erase
  | text (b : UInt8)
  | nothing
  deriving DecidableEq, Repr

/-- **The meaning of a key** after a CR or another key: CR LF is one Enter. -/
def stroke (afterCr : Bool) : Bytes → Stroke
  | [b] =>
    if b = interrupt then .interrupt
    else if b = lf ∧ afterCr then .nothing
    else if b = cr ∨ b = lf then .enter
    else if b = endKey then .endInput
    else if b ∈ eraseKeys then .erase
    else if b = esc then .nothing
    else if IsText b then .text b
    else .nothing
  | _ => .nothing

namespace LineDiscipline

/-- What a stroke does: the screen's part, and the discipline. -/
def strike (d : LineDiscipline) : Stroke → Bytes × LineDiscipline
  | .interrupt => ([], { d with line := [], ready := [], waiting := 0 })
  | .enter =>
    if d.waiting + d.line.length < lineMax then ([lf], { d with line := d.line ++ [lf] }.handOver)
    else ([], d)
  | .endInput =>
    if d.line = [] then
      if d.waiting < lineMax then
        ([], { d with ready := d.ready ++ [none], waiting := d.waiting + 1 })
      else ([], d)
    else ([], d.handOver)
  | .erase =>
    if d.line = [] then ([], d)
    else ([0x08, 0x20, 0x08], { d with line := (popCharacter d.line.reverse).reverse })
  | .text b =>
    if d.waiting + d.line.length + 2 ≤ lineMax then ([b], { d with line := d.line ++ [b] })
    else ([], d)
  | .nothing => ([], d)

/-- **A key does what its stroke does**, and only a CR is remembered. -/
theorem input_eq (d : LineDiscipline) (key : Bytes) :
    d.input key = (decide (stroke d.afterCr key = .interrupt),
      ({ d with afterCr := key == [cr] } : LineDiscipline).strike (stroke d.afterCr key)) := by
  rcases key with - | ⟨b, - | ⟨c, rest⟩⟩
  · rfl
  · have hcr : b ≠ cr → ([b] == [cr]) = false := by
      intro hb
      simpa using hb
    simp only [input, stroke]
    -- in the order of the source's arms; only the arm of Enter can be a CR
    by_cases h1 : b = interrupt
    · subst h1
      rfl
    by_cases h2 : b = lf ∧ d.afterCr = true
    · obtain ⟨rfl, h2⟩ := h2
      simp only [h2, if_neg h1, and_self, if_true]
      rfl
    by_cases h3 : b = cr ∨ b = lf
    · simp only [if_neg h1, if_neg h2, if_pos h3, strike]
      rcases h3 with rfl | rfl <;> split_ifs <;> rfl
    have hb := hcr fun h => h3 (Or.inl h)
    simp only [if_neg h1, if_neg h2, if_neg h3, hb]
    by_cases h4 : b = endKey
    · simp only [if_pos h4, strike]
      split_ifs <;> rfl
    by_cases h5 : b ∈ eraseKeys
    · simp only [if_neg h4, if_pos h5, strike]
      split_ifs <;> rfl
    by_cases h6 : b = esc
    · simp only [if_neg h4, if_neg h5, if_pos h6]
      rfl
    simp only [if_neg h4, if_neg h5, if_neg h6]
    by_cases h7 : IsText b
    · simp only [h7, true_and, if_true, strike]
      split_ifs <;> rfl
    · simp only [h7, false_and, if_false]
      rfl
  · have hlong : (b :: c :: rest == [cr]) = false := by simp
    rw [hlong]
    rfl

/-! ### What the discipline keeps -/

/-- **The books of the discipline**: what waits is counted right, and there is room for the newline
of a line that has something in it. -/
structure Sound (d : LineDiscipline) : Prop where
  waiting_eq : d.waiting = size d.ready
  waiting_le : d.waiting ≤ lineMax
  room : d.line ≠ [] → d.waiting + d.line.length < lineMax
  full : some [] ∉ d.ready

/-- After a CR the line is empty. -/
def Settled (d : LineDiscipline) : Prop := d.afterCr = true → d.line = []

variable {d : LineDiscipline}

theorem sound_new : new.Sound := ⟨rfl, Nat.zero_le _, fun h => absurd rfl h, List.not_mem_nil⟩

theorem Sound.setAfterCr (h : d.Sound) (b : Bool) : (d.setAfterCr b).Sound :=
  ⟨h.waiting_eq, h.waiting_le, h.room, h.full⟩

theorem Sound.bound (h : d.Sound) : d.waiting + d.line.length ≤ lineMax := by
  by_cases hline : d.line = []
  · rw [hline]
    exact h.waiting_le
  · exact (h.room hline).le

theorem length_popCharacter_le (l : Bytes) : (popCharacter l).length ≤ l.length := by
  induction l with
  | nil => exact le_rfl
  | cons b bs ih =>
    rw [popCharacter]
    split
    · exact ih.trans (Nat.le_succ _)
    · exact Nat.le_succ _

/-- A line handed over waits behind the others. -/
theorem Sound.handOver (h : d.Sound) {line : Bytes} (hne : line ≠ [])
    (hroom : d.waiting + line.length ≤ lineMax) :
    ({ d with line := line } : LineDiscipline).handOver.Sound where
  waiting_eq := by
    change d.waiting + line.length = size (d.ready ++ [some line])
    rw [size_append, ← h.waiting_eq]
    simp
  waiting_le := hroom
  room := fun hnil => absurd rfl hnil
  full := by
    change some [] ∉ d.ready ++ [some line]
    rw [List.mem_append, List.mem_singleton, Option.some_inj]
    exact fun hmem => hmem.elim h.full fun he => hne he.symm

/-- **Every stroke keeps the books.** -/
theorem Sound.strike (h : d.Sound) (s : Stroke) : (d.strike s).2.Sound := by
  cases s with
  | interrupt => exact ⟨rfl, Nat.zero_le _, fun hnil => absurd rfl hnil, List.not_mem_nil⟩
  | enter =>
    rw [LineDiscipline.strike]
    split
    · rename_i hroom
      refine h.handOver (by simp) ?_
      rw [List.length_append]
      exact hroom
    · exact h
  | endInput =>
    rw [LineDiscipline.strike]
    split_ifs with hline hroom
    · refine ⟨?_, hroom, fun hne => absurd hline hne, ?_⟩
      · change d.waiting + 1 = size (d.ready ++ [none])
        rw [size_append, ← h.waiting_eq]
        rfl
      · change some [] ∉ d.ready ++ [none]
        simpa using h.full
    · exact h
    · exact h.handOver hline h.bound
  | erase =>
    rw [LineDiscipline.strike]
    split_ifs with hline
    · exact h
    · refine ⟨h.waiting_eq, h.waiting_le, fun _ => ?_, h.full⟩
      have hroom := h.room hline
      have hle := length_popCharacter_le d.line.reverse
      rw [List.length_reverse] at hle
      change d.waiting + (popCharacter d.line.reverse).reverse.length < lineMax
      rw [List.length_reverse]
      omega
  | text b =>
    rw [LineDiscipline.strike]
    split_ifs with hroom
    · refine ⟨h.waiting_eq, h.waiting_le, fun _ => ?_, h.full⟩
      change d.waiting + (d.line ++ [b]).length < lineMax
      rw [List.length_append, List.length_singleton]
      omega
    · exact h
  | nothing => exact h

theorem Sound.input (h : d.Sound) (key : Bytes) : (d.input key).2.2.Sound := by
  rw [input_eq]
  exact (h.setAfterCr _).strike _

@[simp] theorem strike_afterCr (d : LineDiscipline) (s : Stroke) :
    (d.strike s).2.afterCr = d.afterCr := by
  cases s <;> rw [LineDiscipline.strike] <;> split_ifs <;> rfl

theorem stroke_cr (b : Bool) : stroke b [cr] = .enter := by
  cases b <;> rfl

/-- **A CR leaves an empty line**: the line was ended, or there was nothing in it. -/
theorem Sound.settled_input (h : d.Sound) (key : Bytes) : (d.input key).2.2.Settled := by
  rw [input_eq]
  intro hcr
  rw [strike_afterCr] at hcr
  have hkey : key = [cr] := by simpa using hcr
  subst hkey
  rw [stroke_cr, LineDiscipline.strike]
  split_ifs with hroom
  · rfl
  · by_contra hline
    exact hroom (h.room hline)

/-- **A line with something in it can be ended**: Enter, as CR or as LF, hands it over with its
newline. -/
theorem Sound.enter (h : d.Sound) (hset : d.Settled) (hline : d.line ≠ []) {key : Bytes}
    (hkey : key = [cr] ∨ key = [lf]) :
    (d.input key).2.2.line = [] ∧ (d.input key).2.2.ready = d.ready ++ [some (d.line ++ [lf])] := by
  have hcr : d.afterCr = false := by
    by_contra hcr
    exact hline (hset (by simpa using hcr))
  have hstroke : stroke d.afterCr key = .enter := by
    rw [hcr]
    rcases hkey with rfl | rfl <;> rfl
  have hroom := h.room hline
  rw [input_eq, hstroke, LineDiscipline.strike, if_pos hroom]
  exact ⟨rfl, rfl⟩

/-! ### Reading -/

/-- **What a read does**: it takes an end, a whole line or the beginning of one. -/
theorem read_cases (h : d.Sound) {n : ℕ} (hn : n ≠ 0) :
    (d.ready = [] ∧ d.read n = (none, d)) ∨
    (∃ rest, d.ready = none :: rest ∧
      d.read n = (some [], { d with ready := rest, waiting := d.waiting - 1 })) ∨
    (∃ l rest, d.ready = some l :: rest ∧ l ≠ [] ∧ l.length ≤ n ∧
      d.read n = (some l, { d with ready := rest, waiting := d.waiting - l.length })) ∨
    (∃ a b rest, d.ready = some (a ++ b) :: rest ∧ a ≠ [] ∧ b ≠ [] ∧ a.length = n ∧
      d.read n = (some a, { d with ready := some b :: rest, waiting := d.waiting - n })) := by
  match hready : d.ready with
  | [] => exact Or.inl ⟨rfl, by simp only [read, if_neg hn, hready]⟩
  | none :: rest => exact Or.inr (Or.inl ⟨rest, rfl, by simp only [read, if_neg hn, hready]⟩)
  | some l :: rest =>
    have hl : l ≠ [] := by
      rintro rfl
      exact h.full (hready ▸ List.mem_cons_self)
    by_cases hle : l.length ≤ n
    · refine Or.inr (Or.inr (Or.inl ⟨l, rest, rfl, hl, hle, ?_⟩))
      simp only [read, if_neg hn, hready, Nat.min_eq_right hle, if_true, List.take_length]
    · have hmin : min n l.length = n := Nat.min_eq_left (by omega)
      have hlen : (l.take n).length = n := by rw [List.length_take, hmin]
      refine Or.inr (Or.inr (Or.inr ⟨l.take n, l.drop n, rest, ?_, ?_, ?_, hlen, ?_⟩))
      · rw [List.take_append_drop]
      · intro he
        rw [he] at hlen
        exact hn hlen.symm
      · rw [Ne, List.drop_eq_nil_iff]
        exact hle
      · simp only [read, if_neg hn, hready, hmin]
        rw [if_neg (by omega)]

theorem Sound.read (h : d.Sound) (n : ℕ) : (d.read n).2.Sound := by
  by_cases hn : n = 0
  · rw [LineDiscipline.read, if_pos hn]
    exact h
  have hwait := h.waiting_eq
  have hle := h.waiting_le
  have hfull := h.full
  rcases read_cases h hn with ⟨-, he⟩ | ⟨rest, hready, he⟩ | ⟨l, rest, hready, -, -, he⟩ |
    ⟨a, b, rest, hready, -, hb, ha, he⟩ <;> rw [he]
  · exact h
  all_goals rw [hready] at hwait hfull
  · rw [size_none] at hwait
    exact ⟨by dsimp only; omega, by dsimp only; omega,
      fun hline => by have := h.room hline; dsimp only; omega,
      fun hmem => hfull (List.mem_cons_of_mem _ hmem)⟩
  · rw [size_some] at hwait
    exact ⟨by dsimp only; omega, by dsimp only; omega,
      fun hline => by have := h.room hline; dsimp only; omega,
      fun hmem => hfull (List.mem_cons_of_mem _ hmem)⟩
  · rw [size_some, List.length_append] at hwait
    refine ⟨by rw [size_some]; dsimp only; omega, by dsimp only; omega,
      fun hline => by have := h.room hline; dsimp only; omega, fun hmem => ?_⟩
    rcases List.mem_cons.mp hmem with he | hmem
    · exact hb (Option.some_inj.mp he).symm
    · exact hfull (List.mem_cons_of_mem _ hmem)

theorem read_line (d : LineDiscipline) (n : ℕ) : (d.read n).2.line = d.line := by
  rw [read]
  split_ifs
  · rfl
  · split <;> rfl

theorem read_afterCr (d : LineDiscipline) (n : ℕ) : (d.read n).2.afterCr = d.afterCr := by
  rw [read]
  split_ifs
  · rfl
  · split <;> rfl

end LineDiscipline

/-! ### Runs -/

/-- What happens to the discipline: a key is typed, or a program reads into a buffer. -/
inductive Act
  | key (bytes : Bytes)
  | read (room : ℕ)

/-- What is seen of it: the key, or what was read. -/
inductive Seen
  | key (bytes : Bytes)
  | read (room : ℕ) (got : Option Bytes)

namespace LineDiscipline

/-- A key is pressed or a program reads. -/
def act (d : LineDiscipline) : Act → Seen × LineDiscipline
  | .key k => (.key k, (d.input k).2.2)
  | .read n => (.read n (d.read n).1, (d.read n).2)

/-- **A run**: what is seen of it, and how the discipline is left. -/
def run : LineDiscipline → List Act → List Seen × LineDiscipline
  | d, [] => ([], d)
  | d, a :: as => ((d.act a).1 :: ((d.act a).2.run as).1, ((d.act a).2.run as).2)

end LineDiscipline

/-- **What a user and the readers know**: the line as it was edited, the lines ended since the last
Ctrl-C, and what was read of them. -/
structure Transcript where
  afterCr : Bool
  line : Bytes
  lines : List (Option Bytes)
  reads : List (Option Bytes)

namespace Transcript

/-- Nothing has happened. -/
def start : Transcript := ⟨false, [], [], []⟩

/-- What is typed and not read yet takes up. -/
def unread (t : Transcript) : ℕ := size t.lines - size t.reads

/-- **The line after a stroke.** What does not fit beside what is unread is dropped, and a character
does not fit without a newline. -/
def edit (t : Transcript) : Stroke → Transcript
  | .interrupt => { t with line := [], lines := [], reads := [] }
  | .enter =>
    if t.unread + t.line.length < lineMax then
      { t with line := [], lines := t.lines ++ [some (t.line ++ [lf])] }
    else t
  | .endInput =>
    if t.line ≠ [] then { t with line := [], lines := t.lines ++ [some t.line] }
    else if t.unread < lineMax then { t with lines := t.lines ++ [none] }
    else t
  | .erase => { t with line := (t.line.rdropWhile isContinuation).dropLast }
  | .text b => if t.unread + t.line.length + 2 ≤ lineMax then { t with
      line := t.line ++ [b] } else t
  | .nothing => t

/-- What a read delivered: nothing is the end of input. -/
def deliver (t : Transcript) : Option Bytes → Transcript
  | none => t
  | some [] => { t with reads := t.reads ++ [none] }
  | some bytes => { t with reads := t.reads ++ [some bytes] }

/-- The transcript after one more thing was seen. -/
def see (t : Transcript) : Seen → Transcript
  | .key k => { t with afterCr := k == [cr] }.edit (stroke t.afterCr k)
  | .read n got => if n = 0 then t else t.deliver got

/-- The discipline holds what the transcript says is left. -/
structure Matches (t : Transcript) (d : LineDiscipline) : Prop where
  afterCr_eq : t.afterCr = d.afterCr
  line_eq : t.line = d.line
  cut : Cut t.lines t.reads d.ready

variable {t : Transcript} {d : LineDiscipline}

theorem Matches.unread_eq (h : t.Matches d) (hd : d.Sound) : t.unread = d.waiting := by
  have hsize := h.cut.size_eq
  rw [hd.waiting_eq, unread]
  omega

theorem popCharacter_reverse (l : Bytes) :
    (popCharacter l.reverse).reverse = (l.rdropWhile isContinuation).dropLast := by
  have htail : ∀ l : Bytes, popCharacter l = (l.dropWhile isContinuation).tail := by
    intro l
    induction l with
    | nil => rfl
    | cons b bs ih =>
      rw [popCharacter, List.dropWhile_cons]
      split
      · exact ih
      · rfl
  rw [htail, List.rdropWhile, List.dropLast_reverse]

/-- **The discipline edits as the transcript does.** -/
theorem Matches.edit (h : t.Matches d) (hd : d.Sound) (s : Stroke) :
    (t.edit s).Matches (d.strike s).2 := by
  have hunread := h.unread_eq hd
  obtain ⟨hcr, hline, hcut⟩ := h
  cases s with
  | interrupt => exact ⟨hcr, rfl, Cut.nil []⟩
  | enter =>
    rw [Transcript.edit, LineDiscipline.strike, hunread, hline]
    split_ifs
    · exact ⟨hcr, rfl, hcut.append _⟩
    · exact ⟨hcr, hline, hcut⟩
  | endInput =>
    rw [Transcript.edit, LineDiscipline.strike, hunread, hline]
    by_cases hnil : d.line = []
    · rw [if_neg (not_not.mpr hnil), if_pos hnil]
      split_ifs
      · exact ⟨hcr, rfl, hcut.append _⟩
      · exact ⟨hcr, hline, hcut⟩
    · rw [if_pos hnil, if_neg hnil]
      exact ⟨hcr, rfl, hcut.append _⟩
  | erase =>
    rw [Transcript.edit, LineDiscipline.strike, hline]
    split_ifs with hnil
    · refine ⟨hcr, ?_, hcut⟩
      rw [hnil]
      rfl
    · exact ⟨hcr, (popCharacter_reverse d.line).symm, hcut⟩
  | text b =>
    rw [Transcript.edit, LineDiscipline.strike, hunread, hline]
    split_ifs
    · exact ⟨hcr, rfl, hcut⟩
    · exact ⟨hcr, hline, hcut⟩
  | nothing => exact ⟨hcr, hline, hcut⟩

theorem deliver_of_ne_nil (t : Transcript) {bytes : Bytes} (h : bytes ≠ []) :
    t.deliver (some bytes) = { t with reads := t.reads ++ [some bytes] } := by
  cases bytes with
  | nil => exact absurd rfl h
  | cons b bs => rfl

/-- **A read takes a piece off the lines.** -/
theorem Matches.deliver (h : t.Matches d) (hd : d.Sound) {n : ℕ} (hn : n ≠ 0) :
    (t.deliver (d.read n).1).Matches (d.read n).2 := by
  obtain ⟨hcr, hline, hcut⟩ := h
  rcases LineDiscipline.read_cases hd hn with ⟨-, he⟩ | ⟨rest, hready, he⟩ |
    ⟨l, rest, hready, hl, -, he⟩ |
    ⟨a, b, rest, hready, ha, hb, -, he⟩ <;> rw [he]
  · exact ⟨hcr, hline, hcut⟩
  all_goals rw [hready] at hcut
  · exact ⟨hcr, hline, hcut.trans (Cut.stop (Cut.nil rest))⟩
  · rw [deliver_of_ne_nil t hl]
    exact ⟨hcr, hline, hcut.trans (Cut.whole (Cut.nil rest))⟩
  · rw [deliver_of_ne_nil t ha]
    exact ⟨hcr, hline, hcut.trans (Cut.part ha hb (Cut.nil _))⟩

theorem Matches.act (h : t.Matches d) (hd : d.Sound) (a : Act) :
    (t.see (d.act a).1).Matches (d.act a).2 := by
  cases a with
  | key k =>
    rw [LineDiscipline.act, see, LineDiscipline.input_eq, h.afterCr_eq]
    have hk : Matches { t with afterCr := k == [cr] } (d.setAfterCr (k == [cr])) :=
      ⟨rfl, h.line_eq, h.cut⟩
    exact hk.edit (hd.setAfterCr _) _
  | read n =>
    rw [LineDiscipline.act, see]
    split_ifs with hn
    · rw [hn]
      exact h
    · exact h.deliver hd hn

end Transcript

namespace LineDiscipline

variable {d : LineDiscipline}

theorem Sound.act (h : d.Sound) (a : Act) : (d.act a).2.Sound := by
  cases a with
  | key k => exact h.input k
  | read n => exact h.read n

theorem Sound.settled_act (h : d.Sound) (hset : d.Settled) (a : Act) : (d.act a).2.Settled := by
  cases a with
  | key k => exact h.settled_input k
  | read n =>
    intro hcr
    rw [LineDiscipline.act, read_line]
    refine hset ?_
    rw [← read_afterCr d n]
    exact hcr

/-- **Over a run** the books stay right and the transcript accounts for what is there. -/
theorem Sound.run (h : d.Sound) (hset : d.Settled) {t : Transcript} (ht : t.Matches d)
    (acts : List Act) :
    (d.run acts).2.Sound ∧ (d.run acts).2.Settled ∧
      ((d.run acts).1.foldl Transcript.see t).Matches (d.run acts).2 := by
  induction acts generalizing d t with
  | nil => exact ⟨h, hset, ht⟩
  | cons a as ih => exact ih (h.act a) (h.settled_act hset a) (ht.act h a)

theorem Sound.read_eq_none_iff (h : d.Sound) {n : ℕ} (hn : n ≠ 0) :
    (d.read n).1 = none ↔ d.waiting = 0 := by
  rw [h.waiting_eq, size_eq_zero_iff h.full]
  rcases read_cases h hn with ⟨hready, he⟩ | ⟨rest, hready, he⟩ | ⟨l, rest, hready, -, -, he⟩ |
    ⟨a, b, rest, hready, -, -, -, he⟩ <;> rw [he, hready] <;> simp

end LineDiscipline

/-- **Reads deliver the lines as they were edited**, over every run of keys and reads. What waits is
counted right and bounded, a line that has something in it can be ended by Enter, and the pieces
read since the last Ctrl-C are cut off the lines ended since then, in order, each within one line; a
read finds nothing only when everything was read. -/
theorem reads_deliver_edited_lines (acts : List Act) :
    let seen := (LineDiscipline.new.run acts).1
    let d := (LineDiscipline.new.run acts).2
    let t := seen.foldl Transcript.see Transcript.start
    d.waiting = size d.ready ∧ d.waiting + d.line.length ≤ lineMax ∧
    (d.line ≠ [] → ∀ key, key = [cr] ∨ key = [lf] →
      (d.input key).2.2.line = [] ∧ (d.input key).2.2.ready = d.ready ++ [some (d.line ++ [lf])]) ∧
    d.line = t.line ∧ Cut t.lines t.reads d.ready ∧ data t.lines = data t.reads ++ data d.ready ∧
    ∀ n, n ≠ 0 → ((d.read n).1 = none ↔ size t.lines = size t.reads) := by
  intro seen d t
  obtain ⟨hsound, hset, hmatch⟩ := LineDiscipline.sound_new.run (fun _ => rfl)
    (t := Transcript.start) ⟨rfl, rfl, Cut.nil []⟩ acts
  refine ⟨hsound.waiting_eq, hsound.bound, fun hline key hkey => hsound.enter hset hline hkey,
    hmatch.line_eq.symm,
    hmatch.cut, hmatch.cut.data_eq, fun n hn => ?_⟩
  have hsize : size t.lines = size t.reads + size d.ready := hmatch.cut.size_eq
  rw [hsound.read_eq_none_iff hn, hsound.waiting_eq]
  change size d.ready = 0 ↔ _
  omega

end RelayOs.Console
