import RelayOs.Lib.Lexer
import RelayOs.Shell.Syntax

/-!
# Words and parameters, as the parser reads them

The lower half of the shell's parser: what it refuses with (`RelayOs.Sh.ParseError`), the
keywords, a word being built (`RelayOs.Sh.Building`), and the lexers for what stands inside a
word – a parameter after `$`, the text of a `${…}`, and the two kinds of quotes.
-/

namespace RelayOs.Sh

/-- Why a text does not parse. -/
inductive ParseError where
  | unsupported (t : String)
  | unterminatedQuote
  | trailingBackslash
  | missingTarget (token : String)
  | unexpected (t : String)
  | incomplete
  | tooLong
  | unclosedBrace
  deriving DecidableEq, Repr

/-- The text from place `a` to place `b`. -/
def cut (line : List Char) (a b : ℕ) : List Char :=
  (line.take b).drop a

theorem cut_append {line : List Char} {b : ℕ} (h : b ≤ line.length) (t : List Char) (a : ℕ) :
    cut (line ++ t) a b = cut line a b := by
  rw [cut, List.take_append_of_le_length h, cut]

/-! ### Keywords -/

/-- A compound command's word, where a command name would stand. -/
inductive Keyword where
  | if
  | then
  | elif
  | else
  | fi
  | while
  | until
  | do
  | done
  | for
  | in
  deriving DecidableEq, Repr

/-- What compound command is being read. -/
inductive Kind where
  | if
  | while
  | until
  | for
  deriving DecidableEq, Repr

/-- **The keywords**, as they are written. -/
def keywords : List (String × Keyword) :=
  [("if", .if), ("then", .then), ("elif", .elif), ("else", .else), ("fi", .fi), ("while", .while),
    ("until", .until), ("do", .do), ("done", .done), ("for", .for), ("in", .in)]

/-- The keyword as typed. -/
def Keyword.token (k : Keyword) : String :=
  ((keywords.find? (·.2 == k)).map (·.1)).getD ""

/-- The compound command it opens, if it opens one. -/
def Keyword.opens : Keyword → Option Kind
  | .if => some .if
  | .while => some .while
  | .until => some .until
  | .for => some .for
  | _ => none

/-- The shell's other reserved words, refused where a command name could stand. -/
def reserved : List String :=
  ["case", "esac", "select", "function", "time", "coproc", "\x7b", "\x7d", "[[", "]]", "break",
    "continue"]

/-- Characters refused outside quotes. -/
def unsupportedChars : List Char :=
  ['*', '?', '\x60', '(', ')']

/-! ### Words -/

/-- Adds `c`, quoted or not, to the word's last piece, or a new one. -/
def Word.push (w : Word) (c : Char) (quoted : Bool) : Word :=
  match w.pieces.getLast? with
  | some (.text text q) =>
    if q = quoted then { w with pieces := w.pieces.dropLast ++ [.text (text.push c) q] }
    else { w with pieces := w.pieces ++ [.text (String.singleton c) quoted] }
  | _ => { w with pieces := w.pieces ++ [.text (String.singleton c) quoted] }

/-- The word's text, if it is one unquoted piece. -/
def Word.plain (w : Word) : Option String :=
  match w.pieces with
  | [.text t false] => some t
  | _ => none

/-- The word appends to a variable, `NAME+=value`. -/
def Word.appends (w : Word) : Bool :=
  match w.pieces with
  | .text first false :: _ =>
    match splitOnce '=' first with
    | some (before, _) =>
      before.toList.getLast? == some '+' && isName (String.ofList before.toList.dropLast)
    | none => false
  | _ => false

/-- The word is `!`, unquoted. -/
def Word.isBang (w : Word) : Bool :=
  w.plain == some "!"

/-- The keyword the word is, unquoted and whole. -/
def Word.keyword (w : Word) : Option Keyword := do
  let t ← w.plain
  (keywords.find? (·.1 == t)).map (·.2)

/-- The word is one of the shell's reserved words, unquoted. -/
def Word.isReserved (w : Word) : Bool :=
  w.plain.any reserved.contains

/-- The word if it is one unquoted piece of text, all digits. -/
def Word.digits (w : Word) : Option String :=
  w.plain.filter fun t => t.toList.all Char.isDigit

/-! ### Parameters -/

mutual

/-- The text of a `${…}` up to its brace, which it takes: `text` was read before, and `opened` more
`${` are open. -/
def braceFrom (text : List Char) (opened pos : ℕ) :
    List Char → Except ParseError (List Char × Cursor)
  | [] => .error .unclosedBrace
  | c :: rest =>
    if c = '}' then
      if opened = 0 then .ok (text, ⟨pos + 1, rest⟩)
      else braceFrom (text ++ [c]) (opened - 1) (pos + 1) rest
    else if c = '$' then
      match rest with
      | '{' :: rest => braceFrom (text ++ [c, '{']) (opened + 1) (pos + 2) rest
      | rest => braceFrom (text ++ [c]) opened (pos + 1) rest
    else if c = '\\' then
      match rest with
      | [] => .error .unclosedBrace
      | d :: rest => braceFrom (text ++ [c, d]) opened (pos + 2) rest
    else if c = '\'' ∨ c = '"' then quoteFrom c (text ++ [c]) opened (pos + 1) rest
    else braceFrom (text ++ [c]) opened (pos + 1) rest

/-- As `braceFrom`, inside a quote that was opened with `q`. -/
def quoteFrom (q : Char) (text : List Char) (opened pos : ℕ) :
    List Char → Except ParseError (List Char × Cursor)
  | [] => .error .unterminatedQuote
  | c :: rest =>
    if c = q then braceFrom (text ++ [c]) opened (pos + 1) rest
    else if c = '\\' ∧ q = '"' then
      match rest with
      | [] => .error .unterminatedQuote
      | d :: rest => quoteFrom q (text ++ [c, d]) opened (pos + 2) rest
    else quoteFrom q (text ++ [c]) opened (pos + 1) rest

end

mutual

theorem steady_braceFrom (text : List Char) (opened pos : ℕ) :
    ∀ rest, Steady pos rest (braceFrom text opened pos)
  | [] => .error (by rw [braceFrom]) (by simp [braceFrom])
  | c :: rest => by
    by_cases hc : c = '}'
    · by_cases ho : opened = 0
      · refine .take (w := [c]) (g := fun r => .ok (text, ⟨pos + 1, r⟩)) (fun r => ?_)
          (.ok fun _ => rfl)
        rw [List.singleton_append, braceFrom.eq_def]
        simp [hc, ho]
      · refine .take (w := [c]) (fun r => ?_)
          (steady_braceFrom (text ++ [c]) (opened - 1) (pos + 1) rest)
        rw [List.singleton_append, braceFrom.eq_def]
        simp [hc, ho]
    by_cases hd : c = '$'
    · match rest with
      | [] =>
        -- A new line is no `{`.
        refine .read (w := [c]) ?_ ?_ (steady_braceFrom (text ++ [c]) opened (pos + 1) [])
        · simp [braceFrom, hd]
        · simp [braceFrom, hd]
      | d :: rest =>
        by_cases hbrace : d = '{'
        · subst hbrace
          refine .take (w := [c, '{']) (fun r => ?_)
            (steady_braceFrom (text ++ [c, '{']) (opened + 1) (pos + 2) rest)
          simp [braceFrom, hd]
        · refine .read (w := [c]) ?_ ?_
            (steady_braceFrom (text ++ [c]) opened (pos + 1) (d :: rest))
          · rw [List.singleton_append, braceFrom.eq_def]
            simp [hd, hbrace]
          · intro t
            rw [List.singleton_append, braceFrom.eq_def]
            simp [hd, hbrace]
    by_cases hb : c = '\\'
    · match rest with
      | [] =>
        refine .error (e := .unclosedBrace) ?_ ?_
        · rw [braceFrom.eq_def]
          simp [hb]
        · rw [List.singleton_append, braceFrom.eq_def]
          simp [hb, braceFrom]
      | d :: rest =>
        refine .take (w := [c, d]) (fun r => ?_)
          (steady_braceFrom (text ++ [c, d]) opened (pos + 2) rest)
        rw [List.cons_append, braceFrom.eq_def]
        simp [hb]
    by_cases hq : c = '\'' ∨ c = '"'
    · refine .take (w := [c]) (fun r => ?_)
        (steady_quoteFrom (q := c) (by rintro rfl; simp at hq) (text ++ [c]) opened (pos + 1) rest)
      rw [List.singleton_append, braceFrom.eq_def]
      simp [hc, hd, hb, hq]
    · refine .take (w := [c]) (fun r => ?_)
        (steady_braceFrom (text ++ [c]) opened (pos + 1) rest)
      rw [List.singleton_append, braceFrom.eq_def]
      simp [hc, hd, hb, hq]

theorem steady_quoteFrom {q : Char} (hq : q ≠ '\n') (text : List Char) (opened pos : ℕ) :
    ∀ rest, Steady pos rest (quoteFrom q text opened pos)
  | [] => .error (by rw [quoteFrom]) (by simp [quoteFrom, hq.symm])
  | c :: rest => by
    by_cases hc : c = q
    · refine .take (w := [c]) (fun r => ?_)
        (steady_braceFrom (text ++ [c]) opened (pos + 1) rest)
      rw [List.singleton_append, quoteFrom.eq_def]
      simp [hc]
    by_cases hb : c = '\\' ∧ q = '"'
    · match rest with
      | [] =>
        refine .error (e := .unterminatedQuote) ?_ ?_
        · rw [quoteFrom.eq_def]
          simp [hb]
        · rw [List.singleton_append, quoteFrom.eq_def]
          simp [hb, quoteFrom]
      | d :: rest =>
        refine .take (w := [c, d]) (fun r => ?_)
          (steady_quoteFrom hq (text ++ [c, d]) opened (pos + 2) rest)
        rw [List.cons_append, quoteFrom.eq_def]
        simp [hb]
    · refine .take (w := [c]) (fun r => ?_)
        (steady_quoteFrom hq (text ++ [c]) opened (pos + 1) rest)
      rw [List.singleton_append, quoteFrom.eq_def]
      simp [hc, hb]

end

/-- The text of a `${…}` up to its brace. -/
def braceText : Lex ParseError (List Char) where
  run cur := braceFrom [] 0 cur.pos cur.rest
  steady pos rest := steady_braceFrom [] 0 pos rest

/-- Parameters that are not supported (`$*`, `$$`, `$!`, `$-`). -/
def otherSpecials : List Char :=
  ['*', '$', '!', '-']

/-- What a `${name…` goes on with when it applies an operator to the parameter. -/
def braceOperators : List Char :=
  [':', '-', '=', '+', '?', '%', '/', '^', ',', '#', '[', '@']

/-- How many characters of a `${…}`'s text are its parameter; none if there is no text. -/
def headLength (inside : List Char) : Option ℕ :=
  match inside with
  | [] => none
  | c :: _ =>
    if startsName c then some (inside.takeWhile inName).length
    else if c.isDigit then some (inside.takeWhile Char.isDigit).length
    else some 1

/-- The number that digits spell; one too big for any argument is the greatest. -/
def argNumber (digits : List Char) : ℕ :=
  min (digits.foldl (fun n c => n * 10 + (c.toNat - '0'.toNat)) 0) (2 ^ 64 - 1)

/-- The parameter a `${…}` with the text `inside` names. -/
def bracedParam (inside : List Char) : Except ParseError Param :=
  let typed := String.ofList ('$' :: '{' :: inside ++ ['}'])
  match headLength inside with
  | none => .ok (.bad typed)
  | some head =>
    let name := inside.take head
    let rest := inside.drop head
    if rest ≠ [] then
      let operator := rest.head?.any braceOperators.contains
      if operator ∨ name = ['#'] ∨ name = ['!'] then .error (.unsupported typed)
      else .ok (.bad typed)
    else if name = ['#'] then .ok .count
    else if name = ['@'] then .ok .all
    else if name = ['?'] then .ok .status
    else if name = ['_'] then .error (.unsupported typed)
    else if isName (String.ofList name) then .ok (.name (String.ofList name))
    else if name.all Char.isDigit then .ok (.arg (argNumber name))
    else if name.all otherSpecials.contains then .error (.unsupported typed)
    else .ok (.bad typed)

/-- The parameter of a `${…}`, its opening brace taken. -/
def braced : Lex ParseError Param := do
  let inside ← braceText
  Lex.ofExcept (bracedParam inside)

/-- The parameter whose first character after the `$` is `c`, which is not taken yet. -/
def parameterAt (quoted : Bool) (c : Char) : Lex ParseError (Option Param) :=
  let one (param : Param) : Lex ParseError (Option Param) := do
    Lex.skip
    pure (some param)
  if startsName c then do
    let name ← Lex.takeWhile inName (by decide)
    if name = ['_'] then Lex.fail (.unsupported "$_")
    else pure (some (.name (String.ofList name)))
  else if c.isDigit then one (.arg (c.toNat - '0'.toNat))
  else if c = '#' then one .count
  else if c = '@' then one .all
  else if c = '?' then one .status
  else if c = '{' then do
    Lex.skip
    let param ← braced
    pure (some param)
  else if otherSpecials.contains c then Lex.fail (.unsupported (String.ofList ['$', c]))
  else if c = '(' then do
    Lex.skip
    let second ← Lex.peek
    Lex.fail (.unsupported (if second = some '(' then "$((" else "$("))
  else if c = '[' then Lex.fail (.unsupported "$[")
  else if (c = '\'' ∨ c = '"') ∧ !quoted then Lex.fail (.unsupported (String.ofList ['$', c]))
  else pure none

/-- The parameter after a `$` (inside double quotes if `quoted`), or none for a `$` that stands for
itself. -/
def parameter (quoted : Bool) : Lex ParseError (Option Param) := do
  match ← Lex.peek with
  | none => pure none
  | some c => parameterAt quoted c

/-! ### A word being built -/

/-- A word being built. -/
structure Building where
  word : Word := ⟨[], ""⟩
  started : Bool := false
  tilde : Bool := false
  start : ℕ := 0
  stop : ℕ := 0
  added : ℕ := 0

namespace Building

/-- Adds a parameter, in double quotes or not. -/
def param (b : Building) (param : Param) (quoted : Bool) : Building :=
  { b with
    started := true
    added := b.added + 1
    word := { b.word with pieces := b.word.pieces ++ [.param param quoted] } }

/-- A quote opens: the word exists. -/
def openQuote (b : Building) : Building :=
  { b with started := true }

/-- The quote opened when `before` had been added closes: with nothing in it, the word still has a
quoted piece. -/
def closeQuote (b : Building) (before : ℕ) : Building :=
  let quotedLast := match b.word.pieces.getLast? with
    | some (.text _ true) => true
    | _ => false
  if b.added = before ∧ !quotedLast then
    { b with word := { b.word with pieces := b.word.pieces ++ [.text "" true] } }
  else b

/-- Adds a character, quoted or escaped, or not. -/
def add (b : Building) (c : Char) (quoted : Bool) : Building :=
  { b with started := true, added := b.added + 1, word := b.word.push c quoted }

/-- Adds a quoted or escaped character. -/
def quoted (b : Building) (c : Char) : Building :=
  b.add c true

/-- Pieces whose first begins with the `~` of the home directory: alone, or before a `/` in the same
unquoted piece. -/
def homed : List Piece → List Piece
  | .text first false :: more =>
    if (more = [] ∧ first = "~") ∨ first.toList.take 2 = ['~', '/'] then
      let after := first.toList.drop 1
      .param .home true ::
        if after = [] then more else .text (String.ofList after) false :: more
    else .text first false :: more
  | pieces => pieces

/-- The word, if there is one, its `~` the home directory. -/
def finish (b : Building) (line : List Char) : Option Word :=
  if b.started then
    let pieces := if b.tilde then homed b.word.pieces else b.word.pieces
    some ⟨pieces, String.ofList (cut line b.start b.stop)⟩
  else none

theorem finish_append {b : Building} {line : List Char} (h : b.stop ≤ line.length)
    (t : List Char) : b.finish (line ++ t) = b.finish line := by
  rw [finish, finish, cut_append h]

/-- One character between single quotes. -/
def singleStep (b : Building) (c : Char) : Lex ParseError (Building ⊕ Building) :=
  if c = '\'' then pure (.inr b) else pure (.inl (b.quoted c))

/-- What stands between single quotes, the first of them taken. -/
def single (b : Building) : Lex ParseError Building := do
  let closed ← Lex.loop singleStep .unterminatedQuote
    (fun s => ⟨s.quoted '\n', rfl⟩) b.openQuote
  pure (closed.closeQuote b.added)

/-- One character between double quotes. -/
def doubleStep (b : Building) (c : Char) : Lex ParseError (Building ⊕ Building) :=
  if c = '"' then pure (.inr b)
  else if c = '\\' then do
    let escaped ← Lex.take (fun d => ['"', '\\', '$', '\x60'].contains d) (by decide)
    pure (.inl (b.quoted (escaped.getD c)))
  else if c = '$' then do
    let found ← parameter true
    match found with
    | some param => pure (.inl (b.param param true))
    | none => pure (.inl (b.quoted c))
  else if c = '\x60' then Lex.fail (.unsupported "\x60")
  else pure (.inl (b.quoted c))

/-- What stands between double quotes, the first of them taken. -/
def double (b : Building) : Lex ParseError Building := do
  let closed ← Lex.loop doubleStep .unterminatedQuote
    (fun s => ⟨s.quoted '\n', rfl⟩) b.openQuote
  pure (closed.closeQuote b.added)

end Building

end RelayOs.Sh
