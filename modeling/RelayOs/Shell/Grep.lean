import RelayOs.Lib.Bytes

/-!
# The patterns of `grep`

A pattern is a list of pieces, each an item that one byte may match, perhaps repeated. The matcher
runs all of them at once: its states are how many pieces have matched.
`RelayOs.Grep.Pattern.Found` says what it is for, without states.
-/

namespace RelayOs.Grep

/-! ### Patterns -/

/-- One position of a pattern. -/
inductive Item
  | byte (b : UInt8)
  | any
  /-- Inclusive ranges; `negated` matches every byte outside them. -/
  | set (ranges : List (UInt8 × UInt8)) (negated : Bool)
  deriving DecidableEq, Repr

/-- An item of a pattern, once or any number of times. -/
structure Piece where
  item : Item
  repeated : Bool
  deriving DecidableEq, Repr

/-- **A pattern**: its pieces, where it is anchored, and whether case counts. -/
structure Pattern where
  pieces : List Piece
  atStart : Bool
  atEnd : Bool
  ignoreCase : Bool
  deriving DecidableEq, Repr

/-- Why a pattern is refused. -/
inductive PatternError
  | invalid
  | unmatchedBracket
  | trailingBackslash
  | invalidRangeEnd
  | unsupported (what : String)
  deriving DecidableEq, Repr

/-- An ASCII character as a byte. -/
def ascii (c : Char) : UInt8 := c.toNat.toUInt8

/-- The escapes that are something else in GNU's basic expressions. -/
def unsupportedEscape (b : UInt8) : Option String :=
  if b ∈ ['(', ')'].map ascii then some "\\( \\)"
  else if b ∈ [123, 125] then some "\\\x7b \\\x7d"
  else if b = ascii '|' then some "\\|"
  else if b = ascii '+' then some "\\+"
  else if b = ascii '?' then some "\\?"
  else if b ∈ [96, 39] ++ ['<', '>', 'b', 'B', 'w', 'W', 's', 'S'].map ascii then
    some "\\<, \\b, \\w and the like"
  else if ascii '1' ≤ b ∧ b ≤ ascii '9' then some "a back-reference"
  else none

/-- The two bytes stand next to each other somewhere. -/
def hasPair (a b : UInt8) : Bytes → Bool
  | x :: y :: rest => (x = a ∧ y = b) || hasPair a b (y :: rest)
  | _ => false

/-- The members of a set from here on, after the `ranges` read; with how many bytes were read up to
its `]`. -/
def parseRanges (ranges : List (UInt8 × UInt8)) (first : Bool) (n : ℕ) :
    Bytes → Except PatternError (List (UInt8 × UInt8) × ℕ)
  | [] => .error .unmatchedBracket
  | b :: rest =>
    let kind := rest.headD 0
    let stop := rest.getD 1 0
    if b = ascii ']' ∧ first = false then .ok (ranges, n + 1)
    else if b = ascii '[' ∧ kind ∈ [':', '.', '='].map ascii then
      -- GNU's classes and collating elements: refused, once closed
      if hasPair kind (ascii ']') (rest.drop 1) then
        .error (.unsupported "[: :], [. .] and [= =] in a set")
      else .error .unmatchedBracket
    else if kind = ascii '-' ∧ 2 ≤ rest.length ∧ stop ≠ ascii ']' then
      if stop < b then .error .invalidRangeEnd
      -- a range cannot start where one ended; a last `-` is a member
      else if (rest.drop 2).head? = some (ascii '-') ∧ (rest.drop 3).head? ≠ some (ascii ']') then
        .error .invalidRangeEnd
      else parseRanges (ranges ++ [(b, stop)]) false (n + 3) (rest.drop 2)
    else parseRanges (ranges ++ [(b, b)]) false (n + 1) rest
termination_by rest => rest.length
decreasing_by all_goals simp only [List.length_cons, List.length_drop]; omega

/-- The set that starts after a `[`, and how many bytes it has. -/
def parseSet (rest : Bytes) : Except PatternError (Item × ℕ) := do
  let negated := rest.head? = some (ascii '^')
  let members := if negated then rest.drop 1 else rest
  if members = [] then throw .invalid
  let (ranges, n) ← parseRanges [] true (if negated then 1 else 0) members
  return (.set ranges negated, n)

/-- The pieces from here on, after those read, and whether the end is anchored. -/
def parsePieces (pieces : List Piece) : Bytes → Except PatternError (List Piece × Bool)
  | [] => .ok (pieces, false)
  | b :: rest =>
    if b = ascii '\\' then
      match rest with
      | [] => .error .trailingBackslash
      | c :: rest =>
        match unsupportedEscape c with
        | some what => .error (.unsupported what)
        | none => parsePieces (pieces ++ [⟨.byte c, false⟩]) rest
    else if b = ascii '.' then parsePieces (pieces ++ [⟨.any, false⟩]) rest
    else if b = ascii '*' ∧ pieces ≠ [] then
      -- a second `*` changes nothing
      parsePieces (pieces.modify (pieces.length - 1) fun last =>
        { last with repeated := true }) rest
    else if b = ascii '$' ∧ rest = [] then .ok (pieces, true)
    else if b = ascii '[' then
      match parseSet rest with
      | .error e => .error e
      | .ok (set, n) => parsePieces (pieces ++ [⟨set, false⟩]) (rest.drop n)
    else parsePieces (pieces ++ [⟨.byte b, false⟩]) rest
termination_by rest => rest.length
decreasing_by all_goals simp only [List.length_cons, List.length_drop]; omega

namespace Pattern

/-- **The pattern `p`**; with `ignoreCase`, letters match either case. -/
def parse (p : Bytes) (ignoreCase : Bool) : Except PatternError Pattern := do
  let atStart := p.head? = some (ascii '^')
  let (pieces, atEnd) ← parsePieces [] (if atStart then p.drop 1 else p)
  return ⟨pieces, atStart, atEnd, ignoreCase⟩

end Pattern

/-! ### What a pattern's text says

The grammar of patterns, as the documentation tells it: each rule reads something from the start
of a text and leaves the rest. -/

/-- A `-` and what is not the end of a set: the byte before it starts a range. -/
def StartsRange (text : Bytes) : Prop :=
  ∃ hi rest, text = ascii '-' :: hi :: rest ∧ hi ≠ ascii ']'

/-- **The members of a set** up to its `]`, and the text after that; `first` is whether the text
starts with the first of them, which may be a `]`. -/
inductive ReadsSet : Bool → Bytes → List (UInt8 × UInt8) → Bytes → Prop
  | close (rest : Bytes) : ReadsSet false (ascii ']' :: rest) [] rest
  | one {first : Bool} {b : UInt8} {text rest : Bytes} {ranges : List (UInt8 × UInt8)}
      (hclose : b = ascii ']' → first = true)
      (hclass : b = ascii '[' → text.headD 0 ∉ [':', '.', '='].map ascii)
      (hrange : ¬StartsRange text) (hrest : ReadsSet false text ranges rest) :
      ReadsSet first (b :: text) ((b, b) :: ranges) rest
  | range {first : Bool} {lo hi : UInt8} {text rest : Bytes} {ranges : List (UInt8 × UInt8)}
      (hclose : lo = ascii ']' → first = true) (hhi : hi ≠ ascii ']') (hle : lo ≤ hi)
      (hrange : ¬StartsRange text) (hrest : ReadsSet false text ranges rest) :
      ReadsSet first (lo :: ascii '-' :: hi :: text) ((lo, hi) :: ranges) rest

/-- **One item**, and the text after it; `first` is whether the pattern starts with it. -/
inductive ReadsItem (first : Bool) : Bytes → Item → Bytes → Prop
  | byte {b : UInt8} {rest : Bytes} (hplain : b ∉ ['\\', '.', '['].map ascii)
      (hstar : b = ascii '*' → first = true) (hdollar : b = ascii '$' → rest ≠ []) :
      ReadsItem first (b :: rest) (.byte b) rest
  | escaped {c : UInt8} {rest : Bytes} (hc : unsupportedEscape c = none) :
      ReadsItem first (ascii '\\' :: c :: rest) (.byte c) rest
  | any (rest : Bytes) : ReadsItem first (ascii '.' :: rest) .any rest
  | set {text rest : Bytes} {ranges : List (UInt8 × UInt8)} (hplain : text.head? ≠ some (ascii '^'))
      (hset : ReadsSet true text ranges rest) :
      ReadsItem first (ascii '[' :: text) (.set ranges false) rest
  | negated {text rest : Bytes} {ranges : List (UInt8 × UInt8)}
      (hset : ReadsSet true text ranges rest) :
      ReadsItem first (ascii '[' :: ascii '^' :: text) (.set ranges true) rest

/-- **The pieces**: each is an item with any number of stars after it, which repeat it. A `$` at
the end is the anchor. -/
inductive Reads : Bool → Bytes → List Piece → Bool → Prop
  | nothing (first : Bool) : Reads first [] [] false
  | anchor (first : Bool) : Reads first [ascii '$'] [] true
  | piece {first atEnd : Bool} {text rest : Bytes} {item : Item} {pieces : List Piece} (stars : ℕ)
      (hitem : ReadsItem first text item (List.replicate stars (ascii '*') ++ rest))
      (hrest : Reads false rest pieces atEnd) :
      Reads first text (⟨item, decide (0 < stars)⟩ :: pieces) atEnd

/-- **The pattern is what the text says**: a `^` at the start anchors it there, and the rest are
its pieces. -/
structure Pattern.Written (p : Pattern) (text : Bytes) (ignoreCase : Bool) : Prop where
  ignoreCase : p.ignoreCase = ignoreCase
  atStart : p.atStart = true ↔ text.head? = some (ascii '^')
  reads : Reads true (if p.atStart then text.drop 1 else text) p.pieces p.atEnd

/-! ### Parsing reads what the text says -/

theorem startsRange_iff (text : Bytes) : StartsRange text ↔
    text.headD 0 = ascii '-' ∧ 2 ≤ text.length ∧ text.getD 1 0 ≠ ascii ']' := by
  rcases text with _ | ⟨a, _ | ⟨b, rest⟩⟩ <;> simp [StartsRange, and_comm]

theorem parseRanges_reads {ranges rs : List (UInt8 × UInt8)} {first : Bool} {n m : ℕ}
    {text : Bytes} (h : parseRanges ranges first n text = .ok (rs, m)) :
    ∃ rs', rs = ranges ++ rs' ∧ n ≤ m ∧ ReadsSet first text rs' (text.drop (m - n)) := by
  fun_induction parseRanges ranges first n text with
  | case1 => cases h
  | case2 ranges first n b rest hclose =>
    obtain ⟨rfl, rfl⟩ := Prod.mk.inj (Except.ok.inj h)
    obtain ⟨rfl, rfl⟩ := hclose
    exact ⟨[], by simp, by omega, by simpa using ReadsSet.close rest⟩
  | case3 => cases h
  | case4 => cases h
  | case5 => cases h
  | case6 => cases h
  | case7 ranges first n b rest kind stop hclose hclass hrange hle hnext ih =>
    obtain ⟨hi, text, rfl, hhi⟩ := (startsRange_iff rest).mpr hrange
    obtain ⟨rs', rfl, hm, hrest⟩ := ih h
    refine ⟨(b, hi) :: rs', by simp [stop], by omega, ?_⟩
    have hdrop : (b :: ascii '-' :: hi :: text).drop (m - n) = text.drop (m - (n + 3)) := by
      rw [show m - n = m - (n + 3) + 3 by omega]
      rfl
    rw [hdrop]
    refine .range (fun hb => by simpa [hb] using hclose) hhi (UInt8.not_lt.mp hle) ?_ hrest
    rintro ⟨x, t, rfl, hx⟩
    exact hnext ⟨rfl, by simpa using hx⟩
  | case8 ranges first n b rest kind stop hclose hclass hrange ih =>
    obtain ⟨rs', rfl, hm, hrest⟩ := ih h
    refine ⟨(b, b) :: rs', by simp, by omega, ?_⟩
    have hdrop : (b :: rest).drop (m - n) = rest.drop (m - (n + 1)) := by
      rw [show m - n = m - (n + 1) + 1 by omega]
      rfl
    rw [hdrop]
    exact .one (fun hb => by simpa [hb] using hclose) (fun hb hk => hclass ⟨hb, hk⟩)
      (mt (startsRange_iff rest).mp hrange) hrest

theorem parseSet_reads {text : Bytes} {item : Item} {n : ℕ} {first : Bool}
    (h : parseSet text = .ok (item, n)) :
    ReadsItem first (ascii '[' :: text) item (text.drop n) := by
  unfold parseSet at h
  by_cases hneg : text.head? = some (ascii '^')
  · obtain ⟨members, rfl⟩ := List.head?_eq_some_iff.mp hneg
    rcases hm : parseRanges [] true 1 members with e | ⟨ranges, m⟩
    · simp [hm, bind, Except.bind] at h
      split at h <;> cases h
    · simp [hm, bind, Except.bind] at h
      split at h
      · cases h
      · obtain ⟨rfl, rfl⟩ := Prod.mk.inj (Except.ok.inj h)
        obtain ⟨rs, rfl, hle, hset⟩ := parseRanges_reads hm
        rw [show (ascii '^' :: members).drop m = members.drop (m - 1) by
          rw [show m = m - 1 + 1 by omega]; rfl]
        exact .negated hset
  · rcases hm : parseRanges [] true 0 text with e | ⟨ranges, m⟩
    · simp [hm, hneg, bind, Except.bind] at h
      split at h <;> cases h
    · simp [hm, hneg, bind, Except.bind] at h
      split at h
      · cases h
      · obtain ⟨rfl, rfl⟩ := Prod.mk.inj (Except.ok.inj h)
        obtain ⟨rs, rfl, -, hset⟩ := parseRanges_reads hm
        exact .set hneg hset

/-- The last of the pieces read, with stars after it. -/
def starred (pieces : List Piece) (stars : ℕ) : List Piece :=
  if stars = 0 then pieces
  else pieces.modify (pieces.length - 1) fun last => { last with repeated := true }

theorem starred_concat (pieces : List Piece) (item : Item) (repeated : Bool) (stars : ℕ) :
    starred (pieces ++ [⟨item, repeated⟩]) stars =
      pieces ++ [⟨item, repeated || decide (0 < stars)⟩] := by
  unfold starred
  split
  · next h => simp [h]
  · next h =>
    have hlast : ∀ l : List Piece, (l ++ [Piece.mk item repeated]).modify l.length
        (fun last => { last with repeated := true }) = l ++ [⟨item, true⟩] := by
      intro l
      induction l with
      | nil => rfl
      | cons a l ih => simpa using ih
    simp [hlast, Nat.pos_of_ne_zero h]

/-- What the parser makes of a text, after the pieces it has read: stars for the last of them,
then pieces of the text's own. -/
def ReadsOn (pieces : List Piece) (text : Bytes) (all : List Piece) (atEnd : Bool) : Prop :=
  ∃ stars rest more, text = List.replicate stars (ascii '*') ++ rest ∧
    (pieces = [] → stars = 0) ∧ Reads (decide (pieces = [])) rest more atEnd ∧
    all = starred pieces stars ++ more

section

variable {pieces all : List Piece} {atEnd : Bool} {text rest : Bytes}

theorem ReadsOn.item {item : Item} (hitem : ReadsItem (decide (pieces = [])) text item rest)
    (h : ReadsOn (pieces ++ [⟨item, false⟩]) rest all atEnd) : ReadsOn pieces text all atEnd := by
  obtain ⟨stars, rest, more, rfl, -, hmore, rfl⟩ := h
  refine ⟨0, text, ⟨item, decide (0 < stars)⟩ :: more, rfl, fun _ => rfl, ?_, ?_⟩
  · exact .piece stars hitem (by simpa using hmore)
  · rw [starred_concat, Bool.false_or, List.append_assoc]
    rfl

theorem ReadsOn.star (hpieces : pieces ≠ []) (h : ReadsOn (starred pieces 1) text all atEnd) :
    ReadsOn pieces (ascii '*' :: text) all atEnd := by
  obtain ⟨before, ⟨item, repeated⟩, rfl⟩ := (List.eq_nil_or_concat pieces).resolve_left hpieces
  rw [List.concat_eq_append] at h hpieces ⊢
  rw [starred_concat] at h
  obtain ⟨stars, rest, more, rfl, -, hmore, rfl⟩ := h
  refine ⟨stars + 1, rest, more, rfl, fun h => absurd h hpieces, ?_, ?_⟩
  · simpa using hmore
  · rw [starred_concat, starred_concat]
    simp

theorem parsePieces_reads (h : parsePieces pieces text = .ok (all, atEnd)) :
    ReadsOn pieces text all atEnd := by
  fun_induction parsePieces pieces text with
  | case1 pieces =>
    obtain ⟨rfl, rfl⟩ := Prod.mk.inj (Except.ok.inj h)
    exact ⟨0, [], [], rfl, fun _ => rfl, .nothing _, by simp [starred]⟩
  | case2 => cases h
  | case3 => cases h
  | case4 pieces c rest hc ih => exact (ih h).item (.escaped hc)
  | case5 pieces rest _ ih => exact (ih h).item (.any rest)
  | case6 pieces b rest _ _ hstar ih =>
    obtain ⟨rfl, hpieces⟩ := hstar
    exact .star hpieces (ih h)
  | case7 pieces b rest _ _ _ hend =>
    obtain ⟨rfl, rfl⟩ := hend
    obtain ⟨rfl, rfl⟩ := Prod.mk.inj (Except.ok.inj h)
    exact ⟨0, _, [], rfl, fun _ => rfl, .anchor _, by simp [starred]⟩
  | case8 => cases h
  | case9 pieces rest set n hset _ _ _ _ ih => exact (ih h).item (parseSet_reads hset)
  | case10 pieces b rest hback hdot hstar hend hset ih =>
    refine (ih h).item (.byte ?_ (fun hb => ?_) fun hb hrest => hend ⟨hb, hrest⟩)
    · simpa using ⟨hback, hdot, hset⟩
    · simpa [hb] using hstar

end

/-- **What the parser accepts is what the text says.** -/
theorem Pattern.parse_written {p : Pattern} {text : Bytes} {ignoreCase : Bool}
    (h : Pattern.parse text ignoreCase = .ok p) : p.Written text ignoreCase := by
  unfold Pattern.parse at h
  rcases hp : parsePieces [] (if text.head? = some (ascii '^') then text.drop 1 else text) with
    e | ⟨pieces, atEnd⟩
  · simp only [hp, bind, Except.bind] at h
    cases h
  · simp only [hp, bind, Except.bind] at h
    cases h
    obtain ⟨stars, rest, more, hrest, hstars, hmore, rfl⟩ := parsePieces_reads hp
    cases hstars rfl
    refine ⟨rfl, by simp, ?_⟩
    simp only [decide_eq_true_eq]
    rw [hrest]
    exact hmore

namespace Pattern

/-! ### Matching -/

/-- A letter. -/
def isAlphabetic (c : UInt8) : Bool := (65 ≤ c ∧ c ≤ 90) ∨ (97 ≤ c ∧ c ≤ 122)

/-- The lower case of a letter. -/
def toLowercase (c : UInt8) : UInt8 := if 65 ≤ c ∧ c ≤ 90 then c + 32 else c

/-- The upper case of a letter. -/
def toUppercase (c : UInt8) : UInt8 := if 97 ≤ c ∧ c ≤ 122 then c - 32 else c

/-- Whether the item matches the byte as it is. -/
def one (item : Item) (c : UInt8) : Bool :=
  match item with
  | .byte b => b = c
  | .any => true
  | .set ranges negated => (ranges.any fun r => r.1 ≤ c ∧ c ≤ r.2) != negated

variable (p : Pattern)

/-- The item matches the byte, in either case if case does not count. -/
def accepts (item : Item) (c : UInt8) : Bool :=
  if !p.ignoreCase || !isAlphabetic c then one item c
  else
    match item with
    | .set _ true => one item (toLowercase c) && one item (toUppercase c)
    | _ => one item (toLowercase c) || one item (toUppercase c)

/-- Adds state `k`, and those a repeated piece lets it skip to. -/
def enter (states : List Bool) (k : ℕ) : List Bool :=
  match h : p.pieces[k]? with
  | some piece => if piece.repeated then enter (states.set k true) (k + 1) else states.set k true
  | none => states.set k true
termination_by p.pieces.length - k
decreasing_by have := (List.getElem?_eq_some_iff.mp h).1; omega

/-- What the pieces listed, each with its place, add to the next states. -/
def stepAll (now : List Bool) (c : UInt8) (next : List Bool) : List (Piece × ℕ) → List Bool
  | [] => next
  | (piece, k) :: rest =>
    if now.getD k false && p.accepts piece.item c then
      stepAll now c (p.enter next (if piece.repeated then k else k + 1)) rest
    else stepAll now c next rest

/-- No state is set. -/
def noStates : List Bool := List.replicate (p.pieces.length + 1) false

/-- The states after one more byte. -/
def advance (now : List Bool) (c : UInt8) : List Bool :=
  let next := p.stepAll now c p.noStates p.pieces.zipIdx
  if p.atStart then next else p.enter next 0

/-- The rest of a line, from the states that are set. -/
def matchFrom : Bytes → List Bool → Bool
  | [], now => now.getD p.pieces.length false
  | c :: line, now =>
    if now.getD p.pieces.length false && !p.atEnd then true else matchFrom line (p.advance now c)

/-- **Whether the line holds a match.** -/
def isMatch (line : Bytes) : Bool := p.matchFrom line (p.enter p.noStates 0)

end Pattern

/-! ### What a match is -/

/-- The cases of a byte that count. -/
def cases (ignoreCase : Bool) (c : UInt8) : List UInt8 :=
  if ignoreCase ∧ Pattern.isAlphabetic c then [Pattern.toLowercase c,
    Pattern.toUppercase c] else [c]

/-- **A byte the item matches**: one of its cases is the byte or is listed; for a negated set, none
is listed. -/
def Item.Takes (ignoreCase : Bool) (c : UInt8) : Item → Prop
  | .byte b => b ∈ cases ignoreCase c
  | .any => True
  | .set ranges false => ∃ x ∈ cases ignoreCase c, ∃ r ∈ ranges, r.1 ≤ x ∧ x ≤ r.2
  | .set ranges true => ∀ x ∈ cases ignoreCase c, ¬∃ r ∈ ranges, r.1 ≤ x ∧ x ≤ r.2

/-- **The bytes can be cut into parts**, one for each piece: one byte it matches, or any number if
it is repeated. -/
def Cuts (ignoreCase : Bool) : List Piece → Bytes → Prop
  | [], w => w = []
  | piece :: rest, w => ∃ u v, w = u ++ v ∧ (∀ c ∈ u, piece.item.Takes ignoreCase c) ∧
      (piece.repeated = false → u.length = 1) ∧ Cuts ignoreCase rest v

namespace Pattern

/-- **Some part of the line fits the pattern**, at the start or the end of the line where it is
anchored. -/
def Found (p : Pattern) (line : Bytes) : Prop :=
  ∃ a w b, line = a ++ w ++ b ∧ (p.atStart = true → a = []) ∧ (p.atEnd = true → b = []) ∧
    Cuts p.ignoreCase p.pieces w

/-- The pieces from `k` on fit the start of the line. -/
def Fits (p : Pattern) (k : ℕ) (line : Bytes) : Prop :=
  ∃ w b, line = w ++ b ∧ (p.atEnd = true → b = []) ∧ Cuts p.ignoreCase (p.pieces.drop k) w

variable {p : Pattern} {k : ℕ} {c : UInt8} {line : Bytes} {piece : Piece}

theorem accepts_iff (item : Item) : p.accepts item c = true ↔ item.Takes p.ignoreCase c := by
  unfold accepts Item.Takes cases
  by_cases hcase : p.ignoreCase = true ∧ isAlphabetic c = true
  · have hcode : ¬(!p.ignoreCase || !isAlphabetic c) = true := by simp [hcase.1, hcase.2]
    rw [if_neg hcode, if_pos hcase]
    match item with
    | .byte b => simp [one]
    | .any => simp [one]
    | .set ranges false => simp [one]
    | .set ranges true => simp [one]
  · have hcode : (!p.ignoreCase || !isAlphabetic c) = true := by
      cases h : p.ignoreCase <;> simp_all
    rw [if_pos hcode, if_neg hcase]
    match item with
    | .byte b => simp [one]
    | .any => simp [one]
    | .set ranges false => simp [one]
    | .set ranges true => simp [one]

/-! ### What is left to match -/

theorem fits_end (hk : p.pieces.length ≤ k) : p.Fits k line ↔ (p.atEnd = true → line = []) := by
  unfold Fits
  rw [List.drop_eq_nil_of_le hk]
  constructor
  · rintro ⟨w, b, rfl, hb, rfl⟩
    exact hb
  · exact fun h => ⟨[], line, rfl, h, rfl⟩

section

variable (hk : p.pieces[k]? = some piece)

include hk

theorem drop_eq : p.pieces.drop k = piece :: p.pieces.drop (k + 1) := by
  obtain ⟨hlt, rfl⟩ := List.getElem?_eq_some_iff.mp hk
  exact List.drop_eq_getElem_cons hlt

/-- A repeated piece may match nothing. -/
theorem Fits.skip (hr : piece.repeated = true) (h : p.Fits (k + 1) line) :
    p.Fits k line := by
  obtain ⟨w, b, hline, hb, hcuts⟩ := h
  refine ⟨w, b, hline, hb, ?_⟩
  rw [drop_eq hk]
  exact ⟨[], w, rfl, fun c hc => absurd hc List.not_mem_nil, fun hn => by simp [hr] at hn, hcuts⟩

theorem Fits.of_nil (h : p.Fits k []) : piece.repeated = true ∧ p.Fits (k + 1) [] := by
  obtain ⟨w, b, hline, hb, hcuts⟩ := h
  rw [drop_eq hk] at hcuts
  obtain ⟨u, v, rfl, -, hone, hcuts⟩ := hcuts
  obtain ⟨huv, rfl⟩ := List.append_eq_nil_iff.mp hline.symm
  obtain ⟨rfl, rfl⟩ := List.append_eq_nil_iff.mp huv
  refine ⟨?_, [], [], rfl, fun _ => rfl, hcuts⟩
  cases hr : piece.repeated with
  | false => exact absurd (hone hr) (by simp)
  | true => rfl

/-- The next byte is the piece's, or the piece is skipped. -/
theorem fits_cons : p.Fits k (c :: line) ↔
    (piece.item.Takes p.ignoreCase c ∧ p.Fits (if piece.repeated then k else k + 1) line) ∨
      (piece.repeated = true ∧ p.Fits (k + 1) (c :: line)) := by
  constructor
  · rintro ⟨w, b, hline, hb, hcuts⟩
    rw [drop_eq hk] at hcuts
    obtain ⟨u, v, rfl, htakes, hone, hcuts⟩ := hcuts
    cases u with
    | nil =>
      refine Or.inr ⟨?_, v, b, hline, hb, hcuts⟩
      cases hr : piece.repeated with
      | false => exact absurd (hone hr) (by simp)
      | true => rfl
    | cons x u =>
      obtain ⟨rfl, hrest⟩ := List.cons.inj hline
      refine Or.inl ⟨htakes c List.mem_cons_self, u ++ v, b, hrest, hb, ?_⟩
      cases hr : piece.repeated with
      | false =>
        have hu : u = [] := by simpa using hone hr
        subst hu
        exact hcuts
      | true =>
        rw [if_pos rfl, drop_eq hk]
        exact ⟨u, v, rfl, fun y hy => htakes y (List.mem_cons_of_mem _ hy),
          fun hn => by simp [hr] at hn, hcuts⟩
  · rintro (⟨htakes, w, b, rfl, hb, hcuts⟩ | ⟨hr, h⟩)
    · refine ⟨c :: w, b, rfl, hb, ?_⟩
      rw [drop_eq hk]
      cases hr : piece.repeated with
      | false =>
        rw [hr] at hcuts
        exact ⟨[c], w, rfl, by simpa using htakes, fun _ => rfl, hcuts⟩
      | true =>
        rw [hr, if_pos rfl, drop_eq hk] at hcuts
        obtain ⟨u, v, rfl, hall, -, hcuts⟩ := hcuts
        exact ⟨c :: u, v, rfl, List.forall_mem_cons.mpr ⟨htakes, hall⟩,
          fun hn => by simp [hr] at hn, hcuts⟩
    · exact h.skip hk hr

end

/-! ### The states -/

/-- State `k` is set. -/
def In (states : List Bool) (k : ℕ) : Prop := states[k]? = some true

/-- **The states as the matcher keeps them**: one for each number of pieces, and none that a
repeated piece is skipped from without the next one. -/
structure Closed (p : Pattern) (states : List Bool) : Prop where
  length_eq : states.length = p.pieces.length + 1
  skip : ∀ k piece, In states k → p.pieces[k]? = some piece → piece.repeated = true →
    In states (k + 1)

variable {now states : List Bool}

theorem in_iff : now.getD k false = true ↔ In now k := by
  rw [In, List.getD_eq_getElem?_getD]
  cases now[k]? <;> simp

theorem in_set {j : ℕ} (hj : j < states.length) :
    In (states.set j true) k ↔ k = j ∨ In states k := by
  rw [In, In, List.getElem?_set]
  by_cases h : j = k
  · subst h
    simp [hj]
  · simp [h, Ne.symm h]

theorem closed_noStates : p.Closed p.noStates where
  length_eq := List.length_replicate
  skip k piece h := by simp [In, noStates, List.getElem?_replicate] at h

theorem exists_in_set {j : ℕ} (hj : j < states.length) :
    (∃ k, In (states.set j true) k ∧ p.Fits k line) ↔
    (∃ k, In states k ∧ p.Fits k line) ∨ p.Fits j line := by
  simp only [in_set hj, or_and_right, exists_or, exists_eq_left]
  exact or_comm

/-- A state that lets nothing be skipped closes the states. -/
theorem closed_set (hlen : states.length = p.pieces.length + 1) (hk : k < states.length)
    (hskip : ∀ j piece, In states j → p.pieces[j]? = some piece → piece.repeated = true →
      j + 1 = k ∨ In states (j + 1))
    (hlast : ∀ piece, p.pieces[k]? = some piece → piece.repeated = false) :
    p.Closed (states.set k true) where
  length_eq := by rw [List.length_set, hlen]
  skip j piece hj hp hr := by
    rcases (in_set hk).mp hj with rfl | hj
    · exact absurd (hlast piece hp) (by simp [hr])
    · exact (in_set hk).mpr (hskip j piece hj hp hr)

/-- **Entering a state** keeps the states closed, and adds nothing that fits where the state does
not. -/
theorem enter_spec (hc : p.Closed states) (hk : k ≤ p.pieces.length) :
    p.Closed (p.enter states k) ∧ ∀ line, (∃ j, In (p.enter states k) j ∧ p.Fits j line) ↔
      (∃ j, In states j ∧ p.Fits j line) ∨ p.Fits k line := by
  -- all but the last state entered may be skipped from, so the invariant is closedness up to state
  -- `k`
  have hgen : ∀ n k states, p.pieces.length - k = n → k ≤ p.pieces.length →
      states.length = p.pieces.length + 1 →
      (∀ j piece, In states j → p.pieces[j]? = some piece → piece.repeated = true →
        j + 1 = k ∨ In states (j + 1)) →
      p.Closed (p.enter states k) ∧ ∀ line, (∃ j, In (p.enter states k) j ∧ p.Fits j line) ↔
        (∃ j, In states j ∧ p.Fits j line) ∨ p.Fits k line := by
    intro n
    induction n with
    | zero =>
      intro k states hn hk hlen hskip
      have hnone : p.pieces[k]? = none := List.getElem?_eq_none (by omega)
      rw [enter.eq_def]
      split
      · next piece hp => simp [hnone] at hp
      · exact ⟨closed_set hlen (by omega) hskip (by simp [hnone]),
          fun line => exists_in_set (by omega)⟩
    | succ n ih =>
      intro k states hn hk hlen hskip
      rw [enter.eq_def]
      split
      · next piece hp =>
        split
        · next hr =>
          obtain ⟨hclosed, hfits⟩ :=
            ih (k + 1) (states.set k true) (by omega) (by omega) (by simpa using hlen)
            fun j q hj hq hrq => by
              rcases (in_set (by omega)).mp hj with rfl | hj
              · exact Or.inl rfl
              · exact Or.inr ((in_set (by omega)).mpr ((hskip j q hj hq hrq).imp id id))
          refine ⟨hclosed, fun line => (hfits line).trans ?_⟩
          rw [exists_in_set (by omega), or_assoc]
          exact or_congr_right ⟨fun h => h.elim id fun h => h.skip hp hr, Or.inl⟩
        · next hr =>
          exact ⟨closed_set hlen (by omega) hskip fun q hq => by
            rw [hp] at hq; cases hq; simpa using hr,
            fun line => exists_in_set (by omega)⟩
      · next hp => exact ⟨closed_set hlen (by omega) hskip (by simp [hp]),
          fun line => exists_in_set (by omega)⟩
  exact hgen _ k states rfl hk hc.length_eq fun j piece hj hp hr =>
    Or.inr (hc.skip j piece hj hp hr)

/-! ### A byte, and a line -/

/-- A piece whose state is set takes the byte, and what follows fits the rest of the line. -/
def Steps (p : Pattern) (now : List Bool) (c : UInt8) (line : Bytes) (x : Piece × ℕ) : Prop :=
  In now x.2 ∧ x.1.item.Takes p.ignoreCase c ∧ p.Fits (if x.1.repeated then x.2 else x.2 + 1) line

theorem stepAll_spec (now : List Bool) (c : UInt8) (l : List (Piece × ℕ))
    (hl : ∀ x ∈ l, p.pieces[x.2]? = some x.1)
    (hc : p.Closed states) :
    p.Closed (p.stepAll now c states l) ∧ ∀ line,
      (∃ j, In (p.stepAll now c states l) j ∧ p.Fits j line) ↔
      (∃ j, In states j ∧ p.Fits j line) ∨ ∃ x ∈ l, p.Steps now c line x := by
  induction l generalizing states with
  | nil => exact ⟨hc, fun line => by simp [stepAll]⟩
  | cons x l ih =>
    obtain ⟨piece, k⟩ := x
    have hk : p.pieces[k]? = some piece := hl _ List.mem_cons_self
    have hlt := (List.getElem?_eq_some_iff.mp hk).1
    have hrest := fun x hx => hl x (List.mem_cons_of_mem _ hx)
    rw [stepAll]
    split
    · next htaken =>
      obtain ⟨hin, htakes⟩ := Bool.and_eq_true_iff.mp htaken
      have hto : (if piece.repeated then k else k + 1) ≤ p.pieces.length := by split <;> omega
      obtain ⟨hc', hfits⟩ := enter_spec hc hto
      obtain ⟨hclosed, hall⟩ := ih hrest hc'
      refine ⟨hclosed, fun line => ?_⟩
      rw [hall line, hfits line, List.exists_mem_cons_iff, or_assoc]
      refine or_congr_right (or_congr_left ⟨fun h => ⟨in_iff.mp hin, (accepts_iff _).mp htakes, h⟩,
        fun h => h.2.2⟩)
    · next hnot =>
      obtain ⟨hclosed, hall⟩ := ih hrest hc
      refine ⟨hclosed, fun line => (hall line).trans ?_⟩
      rw [List.exists_mem_cons_iff]
      refine or_congr_right ⟨Or.inr, fun h => h.resolve_left fun hx => hnot ?_⟩
      exact Bool.and_eq_true_iff.mpr ⟨in_iff.mpr hx.1, (accepts_iff _).mpr hx.2.1⟩

theorem advance_spec (now : List Bool) (c : UInt8) :
    p.Closed (p.advance now c) ∧ ∀ line, (∃ j, In (p.advance now c) j ∧ p.Fits j line) ↔
    (∃ k piece, p.pieces[k]? = some piece ∧ p.Steps now c line (piece, k)) ∨
      (p.atStart = false ∧ p.Fits 0 line) := by
  have hmem : ∀ x, x ∈ p.pieces.zipIdx ↔ p.pieces[x.2]? = some x.1 :=
    fun x => List.mem_zipIdx_iff_getElem?
  obtain ⟨hclosed, hall⟩ :=
    p.stepAll_spec now c p.pieces.zipIdx (fun x hx => (hmem x).mp hx) closed_noStates
  have hsteps : ∀ line, (∃ j, In (p.stepAll now c p.noStates p.pieces.zipIdx) j ∧ p.Fits j line) ↔
      ∃ k piece, p.pieces[k]? = some piece ∧ p.Steps now c line (piece, k) := by
    intro line
    rw [hall line]
    constructor
    · rintro (⟨j, hj, -⟩ | ⟨⟨piece, k⟩, hx, h⟩)
      · simp [In, noStates, List.getElem?_replicate] at hj
      · exact ⟨k, piece, (hmem _).mp hx, h⟩
    · rintro ⟨k, piece, hk, h⟩
      exact Or.inr ⟨(piece, k), (hmem _).mpr hk, h⟩
  unfold advance
  cases hstart : p.atStart with
  | true => exact ⟨hclosed, fun line => by rw [if_pos rfl, hsteps]; simp⟩
  | false =>
    obtain ⟨hc, hfits⟩ := enter_spec hclosed (Nat.zero_le _)
    exact ⟨hc, fun line => (hfits line).trans (by rw [hsteps]; simp)⟩

/-- **What the states mean before a byte**: a match that is complete, or a piece that takes it. -/
theorem fits_cons_iff (hc : p.Closed now) : (∃ k, In now k ∧ p.Fits k (c :: line)) ↔
    (In now p.pieces.length ∧ p.atEnd = false) ∨
      ∃ k piece, p.pieces[k]? = some piece ∧ p.Steps now c line (piece, k) := by
  constructor
  · rintro ⟨k, hk, hfits⟩
    -- skipping pieces leads to the one that takes the byte, or to the end
    induction hn : p.pieces.length - k generalizing k with
    | zero =>
      have hlt := (List.getElem?_eq_some_iff.mp hk).1
      have he : k = p.pieces.length := by have := hc.length_eq; omega
      subst he
      have hend := (fits_end le_rfl).mp hfits
      refine Or.inl ⟨hk, ?_⟩
      cases h : p.atEnd with
      | false => rfl
      | true => exact absurd (hend h) (List.cons_ne_nil _ _)
    | succ n ih =>
      have hp : p.pieces[k]? = some p.pieces[k] := List.getElem?_eq_getElem (by omega)
      rcases (fits_cons hp).mp hfits with ⟨htakes, hrest⟩ | ⟨hr, hrest⟩
      · exact Or.inr ⟨k, _, hp, hk, htakes, hrest⟩
      · exact ih (k + 1) (hc.skip k _ hk hp hr) hrest (by omega)
  · rintro (⟨hk, hend⟩ | ⟨k, piece, hp, hk, htakes, hrest⟩)
    · exact ⟨_, hk, (fits_end le_rfl).mpr fun h => by simp [hend] at h⟩
    · exact ⟨k, hk, (fits_cons hp).mpr (Or.inl ⟨htakes, hrest⟩)⟩

theorem fits_nil_iff (hc : p.Closed now) :
    (∃ k, In now k ∧ p.Fits k []) ↔ In now p.pieces.length := by
  constructor
  · rintro ⟨k, hk, hfits⟩
    induction hn : p.pieces.length - k generalizing k with
    | zero =>
      have hlt := (List.getElem?_eq_some_iff.mp hk).1
      have he : k = p.pieces.length := by have := hc.length_eq; omega
      exact he ▸ hk
    | succ n ih =>
      have hp : p.pieces[k]? = some p.pieces[k] := List.getElem?_eq_getElem (by omega)
      obtain ⟨hr, hrest⟩ := hfits.of_nil hp
      exact ih (k + 1) (hc.skip k _ hk hp hr) hrest (by omega)
  · exact fun h => ⟨_, h, (fits_end le_rfl).mpr fun _ => rfl⟩

/-- **The rest of a line matches** from a state that is set, or from further on if the start is
free. -/
theorem matchFrom_iff (hc : p.Closed now) :
    p.matchFrom line now = true ↔ (∃ k, In now k ∧ p.Fits k line) ∨
    (p.atStart = false ∧ ∃ a rest, a ≠ [] ∧ line = a ++ rest ∧ p.Fits 0 rest) := by
  induction line generalizing now with
  | nil =>
    rw [matchFrom, in_iff, fits_nil_iff hc]
    refine ⟨Or.inl, fun h => h.elim id ?_⟩
    rintro ⟨-, a, rest, ha, hline, -⟩
    exact absurd (List.append_eq_nil_iff.mp hline.symm).1 ha
  | cons c line ih =>
    obtain ⟨hclosed, hadvance⟩ := p.advance_spec now c
    have hlater : (∃ a rest, a ≠ [] ∧ c :: line = a ++ rest ∧ p.Fits 0 rest) ↔
        p.Fits 0 line ∨ ∃ a rest, a ≠ [] ∧ line = a ++ rest ∧ p.Fits 0 rest := by
      constructor
      · rintro ⟨a, rest, ha, hline, h⟩
        obtain ⟨x, a, rfl⟩ := List.exists_cons_of_ne_nil ha
        obtain ⟨rfl, rfl⟩ := List.cons.inj hline
        cases a with
        | nil => exact Or.inl h
        | cons y a => exact Or.inr ⟨y :: a, rest, List.cons_ne_nil _ _, rfl, h⟩
      · rintro (h | ⟨a, rest, ha, rfl, h⟩)
        · exact ⟨[c], line, List.cons_ne_nil _ _, rfl, h⟩
        · exact ⟨c :: a, rest, List.cons_ne_nil _ _, rfl, h⟩
    have hcode : (now.getD p.pieces.length false && !p.atEnd) = true ↔ In now p.pieces.length ∧
        p.atEnd = false := by
      rw [Bool.and_eq_true, in_iff, Bool.not_eq_true']
    rw [matchFrom, fits_cons_iff hc, hlater]
    by_cases hdone : In now p.pieces.length ∧ p.atEnd = false
    · rw [if_pos (hcode.mpr hdone)]
      exact iff_of_true rfl (Or.inl (Or.inl hdone))
    · rw [if_neg (mt hcode.mp hdone), ih hclosed, hadvance line, or_iff_right hdone,
        and_or_left, or_assoc]

/-- **`grep` finds what its pattern says.** For every text that is accepted as a pattern, the
pattern is what the text says, and it matches exactly the lines some part of which fits it. -/
theorem isMatch_iff_found {text : Bytes} {ignoreCase : Bool} {p : Pattern}
    (hp : parse text ignoreCase = .ok p) :
    p.Written text ignoreCase ∧ ∀ line, p.isMatch line = true ↔ p.Found line := by
  refine ⟨parse_written hp, fun line => ?_⟩
  obtain ⟨hc, hfits⟩ := enter_spec (p := p) closed_noStates (Nat.zero_le _)
  have hnone : ¬∃ j, In p.noStates j ∧ p.Fits j line := by
    rintro ⟨j, hj, -⟩
    simp [In, noStates, List.getElem?_replicate] at hj
  rw [isMatch, matchFrom_iff hc, hfits line, or_iff_right hnone]
  constructor
  · rintro (⟨w, b, rfl, hb, hcuts⟩ | ⟨hstart, a, rest, -, rfl, w, b, rfl, hb, hcuts⟩)
    · exact ⟨[], w, b, rfl, fun _ => rfl, hb, hcuts⟩
    · exact ⟨a, w, b, (List.append_assoc _ _ _).symm, fun h => by simp [hstart] at h, hb, hcuts⟩
  · rintro ⟨a, w, b, rfl, ha, hb, hcuts⟩
    by_cases hempty : a = []
    · subst hempty
      exact Or.inl ⟨w, b, rfl, hb, hcuts⟩
    · refine Or.inr ⟨?_, a, w ++ b, hempty, List.append_assoc _ _ _, w, b, rfl, hb, hcuts⟩
      cases hstart : p.atStart with
      | false => rfl
      | true => exact absurd (ha hstart) hempty

/-- The pattern `^a[^b-d]*$`, either case: `AxY` fits it, and `axC` does not. -/
theorem isMatch_iff_found_anchored :
    ∃ p, parse (['^', 'a', '[', '^', 'b', '-', 'd', ']', '*', '$'].map ascii) true = .ok p ∧
      p.atStart = true ∧ p.Found (['A', 'x', 'Y'].map ascii) ∧
      ¬p.Found (['a', 'x', 'C'].map ascii) := by
  have hp : parse (['^', 'a', '[', '^', 'b', '-', 'd', ']', '*', '$'].map ascii) true =
      .ok ⟨[⟨.byte 97, false⟩, ⟨.set [(98, 100)] true, true⟩], true, true, true⟩ := by
    decide +kernel
  obtain ⟨hwritten, hfound⟩ := isMatch_iff_found hp
  refine ⟨_, hp, hwritten.atStart.mpr (by decide), (hfound _).mp (by decide +kernel), ?_⟩
  rw [← hfound]
  decide +kernel

end Pattern

end RelayOs.Grep
