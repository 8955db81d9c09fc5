import RelayOs.Shell.Tokens

/-!
# The shell's parser

`RelayOs.Sh.Parser` is a command's text being parsed: the words and redirections of the
command being read, the pipeline and the and-or list it stands in, and the compound commands
that are open around it. A reader gives it a command's lines one at a time
(`RelayOs.Sh.Parser.line`), which answers with the list the lines make, or that it needs
more; `RelayOs.Sh.parseLine` reads a whole text, new lines and all.
-/

namespace RelayOs.Sh

/-! ### Parts of the tree -/

/-- How deep compound commands may nest. -/
def nestingMax : ℕ := 32

/-- Items from a list of them. -/
def Items.ofList : List (Item Word) → Items Word
  | [] => .nil
  | item :: items => .cons item (Items.ofList items)

/-- The rest of an and-or list from a list. -/
def Rest.ofList : List (Connector × Pipeline Word) → Rest Word
  | [] => .nil
  | (connector, pipeline) :: rest => .cons connector pipeline (Rest.ofList rest)

/-- The commands before the last `|`, and the one after it. -/
def Run.ofCommands : List (Command Word) → Command Word → Run Word
  | [], last => .commands last []
  | first :: more, last => .commands first (more ++ [last])

/-- An `if`'s conditions and bodies in turn, and its `else` body. -/
def Branches.ofLists : List (Items Word) → Option (Items Word) → Branches Word
  | condition :: body :: lists, otherwise => .elif condition body (Branches.ofLists lists otherwise)
  | _, some body => .else body
  | _, none => .fi

/-- The word that ends the compound command. -/
def Compound.end : Compound Word → String
  | .cond _ => "fi"
  | _ => "done"

/-- How the connector is written. -/
def Connector.token : Connector → String
  | .and => "&&"
  | .or => "||"

/-- The redirection's operator, as a refusal names it: with its fd when that was typed (`explicit`)
or is not the default. -/
def Redirect.operator (r : Redirect Word) (explicit : Bool) : String :=
  let fd (default : Fin 3) : String :=
    if r.fd = default ∧ !explicit then "" else toString r.fd.val
  match r.op with
  | .read _ => fd 0 ++ "<"
  | .write _ => fd 1 ++ ">"
  | .append _ => fd 1 ++ ">>"
  | .copy copied => fd 1 ++ ">&" ++ toString copied.val

/-- The redirection sends fd 1 to a file. -/
def Redirect.isOutputFile (r : Redirect Word) : Bool :=
  r.fd == 1 && match r.op with
    | .write _ | .append _ => true
    | _ => false

/-- A command of `words` and `redirects`, the assignments before its name apart. -/
def command (words : List Word) (redirects : List (Redirect Word)) :
    Except ParseError (Command Word) :=
  let leading := words.takeWhile fun w => w.assignment.isSome || w.appends
  match leading.find? Word.appends with
  | some append => .error (.unsupported append.typed)
  | none =>
    let assigns := words.takeWhile fun w => w.assignment.isSome
    .ok ⟨assigns, words.drop assigns.length, redirects⟩

/-! ### What has been read -/

/-- Where a compound command being read is. -/
inductive OpenStage where
  | condition
  | then
  | else
  | body
  | forName
  | forAfterName
  | forWords
  | forBeforeDo
  deriving DecidableEq, Repr

/-- In a `for`'s header. -/
def OpenStage.inHeader : OpenStage → Bool
  | .forName | .forAfterName | .forWords | .forBeforeDo => true
  | _ => false

/-- The and-or list being read. -/
structure AndOrRead where
  first : Pipeline Word
  rest : List (Connector × Pipeline Word) := []

/-- The items read so far, and the and-or list being read. -/
structure ItemsRead where
  items : List (Item Word) := []
  andOr : Option AndOrRead := none
  connector : Option Connector := none

/-- A pipeline that ended: the start of an and-or list, or the one the waiting connector joins to
it. -/
def ItemsRead.pipeline (s : ItemsRead) (p : Pipeline Word) : ItemsRead :=
  match s.andOr, s.connector with
  | some andOr, some c =>
    { s with andOr := some { andOr with rest := andOr.rest ++ [(c, p)] }, connector := none }
  | _, _ => { s with andOr := some { first := p }, connector := none }

/-- The and-or list ends an item; `background` is its text if it ended with `&`. -/
def ItemsRead.end (s : ItemsRead) (background : Option String) : ItemsRead :=
  match s.andOr with
  | some andOr =>
    { s with
      items := s.items ++ [.mk (.mk andOr.first (Rest.ofList andOr.rest)) background]
      andOr := none }
  | none => s

/-- A compound command being read, and what was being read around it. -/
structure Open where
  outer : ItemsRead
  levels : ℕ
  bangs : ℕ
  kind : Kind
  stage : OpenStage
  lists : List (Items Word) := []
  name : Option Word := none
  words : Option (List Word) := none

/-- A redirection operator waiting for its word. -/
inductive Pending where
  | read (explicit : Bool)
  | file (fd : Fin 3) (append explicit : Bool)
  | copy (fd : Fin 3) (typed : String)

/-- Words and redirections collected so far. -/
structure Parts where
  words : List Word := []
  redirects : List (Redirect Word) := []
  explicit : List Bool := []
  pending : Option Pending := none
  bangs : ℕ := 0
  later : Bool := false
  compound : Option (Compound Word) := none

namespace Parts

/-- Nothing of a command has been read (a `!` may have been). -/
def isEmpty (ps : Parts) : Bool :=
  ps.words.isEmpty && ps.redirects.isEmpty && ps.compound.isNone

/-- A redirection has its word. -/
def redirect (ps : Parts) (r : Redirect Word) (explicit : Bool) : Parts :=
  { ps with
    redirects := ps.redirects ++ [r]
    explicit := ps.explicit ++ [explicit]
    pending := none }

/-- The word becomes the target of a pending redirection. -/
def target (ps : Parts) (pending : Pending) (w : Word) : Except ParseError Parts :=
  match pending with
  | .read explicit => .ok (ps.redirect ⟨0, .read w⟩ explicit)
  | .file fd append explicit =>
    .ok (ps.redirect ⟨fd, if append then .append w else .write w⟩ explicit)
  | .copy fd typed =>
    -- Only a bare `1` or `2`.
    if w.digits = some "1" then .ok (ps.redirect ⟨fd, .copy 1⟩ (typed != ">&"))
    else if w.digits = some "2" then .ok (ps.redirect ⟨fd, .copy 2⟩ (typed != ">&"))
    else .error (.unsupported (typed ++ w.typed))

/-- A word for which no redirection waits: the next word of the command, or the keyword it is where
a command name would stand. -/
def word (ps : Parts) (w : Word) : Except ParseError (Parts × Option Keyword) :=
  if ps.compound.isSome then
    -- Only a keyword that closes or goes on with what is around the compound command, and
    -- after its redirections no word at all.
    match w.keyword with
    | some k =>
      if k.opens = none ∧ ps.redirects = [] then .ok (ps, some k) else .error (.unexpected w.typed)
    | none => .error (.unexpected w.typed)
  else if ps.words = [] ∧ ps.redirects = [] then
    if w.isBang then
      if ps.later then .error (.missingTarget "!")
      else .ok ({ ps with bangs := ps.bangs + 1 }, none)
    else match w.keyword with
      | some k => .ok (ps, some k)
      | none =>
        if w.isReserved then .error (.unsupported w.typed)
        else .ok ({ ps with words := [w] }, none)
  else .ok ({ ps with words := ps.words ++ [w] }, none)

/-- Ends a word: it becomes the pending redirection's target or the next word, or it is the keyword
it gives. -/
def endWord (ps : Parts) (b : Building) (line : List Char) :
    Except ParseError (Parts × Option Keyword) :=
  match b.finish line with
  | none => .ok (ps, none)
  | some w =>
    match ps.pending with
    | some pending => (ps.target pending w).map (·, none)
    | none => ps.word w

/-- The operator, as typed, of the first redirection that `which`. -/
def typed (ps : Parts) (which : Redirect Word → Bool) : Option String :=
  match ps.redirects.findIdx? which with
  | none => none
  | some i => (ps.redirects[i]?).map fun r => r.operator ((ps.explicit[i]?).getD false)

/-- The command so far, ended by a `|`, and what is kept for the ones after it. -/
def takeBeforePipe (ps : Parts) : Except ParseError (Command Word × Parts) :=
  match ps.compound with
  | some c => .error (.unsupported ("| after " ++ c.end))
  | none =>
    if ps.pending.isSome ∨ (ps.words = [] ∧ ps.redirects = []) then .error (.missingTarget "|")
    else
      match if ps.later then ps.typed (·.fd == 0) else none with
      | some read => .error (.unsupported (read ++ " after |"))
      | none =>
        match if ps.words = [] then ps.typed fun _ => true else ps.typed Redirect.isOutputFile with
        | some op => .error (.unsupported (op ++ " before |"))
        | none => (command ps.words ps.redirects).map (·, { bangs := ps.bangs, later := true })

end Parts

/-- A command's text being parsed. -/
structure Parser where
  text : List Char := []
  items : ItemsRead := {}
  itemStart : ℕ := 0
  comments : List (ℕ × ℕ) := []
  pipeline : List (Command Word) := []
  parts : Parts := {}
  word : Building := {}
  opened : List Open := []

namespace Parser

/-! ### Ends of pipelines and lists -/

/-- The pipeline the command so far ends, at `token`; none if nothing was typed since the last item.
-/
def endPipeline (p : Parser) (token : String) :
    Except ParseError (Option (Pipeline Word) × Parser) :=
  let ps := p.parts
  if ps.pending.isSome then .error (.missingTarget token)
  else match ps.compound with
    | some c =>
      .ok (some (.mk (ps.bangs % 2 == 1) (.compound c) ps.redirects), { p with parts := {} })
    | none =>
      if ps.words = [] ∧ p.pipeline = [] ∧ ps.redirects = [] ∧ ps.bangs = 0 then .ok (none, p)
      else if ps.words = [] ∧ p.pipeline ≠ [] ∧ ps.redirects = [] then
        .error (.missingTarget token)
      else if ps.words = [] ∧ p.pipeline ≠ [] then
        .error (.unsupported ("| " ++ (ps.typed fun _ => true).getD ""))
      else
        match if p.pipeline ≠ [] then ps.typed (·.fd == 0) else none with
        | some read => .error (.unsupported (read ++ " after |"))
        | none => (command ps.words ps.redirects).map fun last =>
          (some (.mk (ps.bangs % 2 == 1) (Run.ofCommands p.pipeline last) []),
            { p with parts := {}, pipeline := [] })

/-- A pipeline joins the and-or list being read. -/
def withPipeline (p : Parser) (pipeline : Pipeline Word) : Parser :=
  { p with items := p.items.pipeline pipeline }

/-- The and-or list being read ends an item. -/
def endItem (p : Parser) (background : Option String) : Parser :=
  { p with items := p.items.end background }

/-- A `&&` or `||` ends the pipeline before it and waits for the next one. -/
def join (p : Parser) (connector : Connector) : Except ParseError Parser :=
  if p.parts.isEmpty ∧ p.pipeline = [] then .error (.missingTarget connector.token)
  else match p.endPipeline connector.token with
    | .error e => .error e
    | .ok (none, _) => .error (.missingTarget connector.token)
    | .ok (some pipeline, p) =>
      let p := p.withPipeline pipeline
      .ok { p with items := { p.items with connector := some connector } }

/-- The list a keyword (`token`) ends: it must hold something, and leave nothing open. -/
def endList (p : Parser) (token : String) : Except ParseError (Items Word × Parser) :=
  if 0 < p.parts.bangs ∧ p.parts.isEmpty then .error (.missingTarget token)
  else match p.endPipeline token with
    | .error e => .error e
    | .ok (found, p) =>
      if found.isNone ∧ p.items.connector.isSome then .error (.missingTarget token)
      else
        let p := (found.elim p p.withPipeline).endItem none
        if p.items.items = [] then .error (.missingTarget token)
        else .ok (Items.ofList p.items.items, { p with items := {} })

/-! ### Keywords -/

/-- The stage the keyword moves the innermost compound command on to, or none if it closes it;
it may not stand there otherwise. -/
def Open.next (o : Open) (k : Keyword) : Option (Option OpenStage) :=
  match o.kind, o.stage, k with
  | .if, .condition, .then => some (some .then)
  | .if, .then, .elif => some (some .condition)
  | .if, .then, .else => some (some .else)
  | .if, .then, .fi => some none
  | .if, .else, .fi => some none
  | .while, .condition, .do => some (some .body)
  | .until, .condition, .do => some (some .body)
  | .while, .body, .done => some none
  | .until, .body, .done => some none
  | .for, .body, .done => some none
  | _, _, _ => none

/-- The compound command that closes with its last list. -/
def Open.close (o : Open) (list : Items Word) : Option (Compound Word) :=
  match o.kind with
  | .if =>
    match o.stage with
    | .else => some (.cond (Branches.ofLists o.lists (some list)))
    | _ => some (.cond (Branches.ofLists (o.lists ++ [list]) none))
  | .while => o.lists.getLast?.map fun condition => .while condition list
  | .until => o.lists.getLast?.map fun condition => .until condition list
  | .for => o.name.map fun name => .for name o.words list

/-- The levels of nesting a compound command counts: one, and one more after `&&` or `||`. -/
def levels (p : Parser) : ℕ :=
  1 + p.items.connector.isSome.toNat

/-- A keyword that opens a compound command. -/
def openCompound (p : Parser) (k : Keyword) (kind : Kind) (at_ : ℕ) : Except ParseError Parser :=
  if p.pipeline ≠ [] then .error (.unsupported (k.token ++ " after |"))
  else
    if nestingMax < (p.opened.map Open.levels).sum + p.levels then
      .error (.unsupported "more than 32 levels of nesting")
    else
      let stage := if kind = .for then .forName else .condition
      .ok { p with
        opened :=
          { outer := p.items, levels := p.levels, bangs := p.parts.bangs, kind, stage } :: p.opened
        items := {}
        parts := {}
        itemStart := at_ }

/-- A keyword, ending at `at_`, where a command name would stand. -/
def keyword (p : Parser) (k : Keyword) (at_ : ℕ) : Except ParseError Parser :=
  match k.opens with
  | some kind => p.openCompound k kind at_
  | none =>
    match p.opened with
    | [] => .error (.missingTarget k.token)
    | o :: outer =>
      match Open.next o k with
      | none => .error (.missingTarget k.token)
      | some next =>
        match p.endList k.token with
        | .error e => .error e
        | .ok (list, p) =>
          match next with
          | some stage =>
            .ok { p with
              itemStart := at_
              opened := { o with lists := o.lists ++ [list], stage } :: outer }
          | none =>
            match Open.close o list with
            | none => .error (.missingTarget k.token)
            | some compound =>
              .ok { p with
                itemStart := at_
                opened := outer
                items := o.outer
                parts := { p.parts with bangs := o.bangs, compound := some compound } }

/-! ### Ends of words -/

/-- The stage of the `for` whose header is being read. -/
def forHeader (p : Parser) : Option OpenStage :=
  (p.opened.head?.map Open.stage).filter OpenStage.inHeader

/-- A word of a `for`'s header, which ends at `at_`: its name, `in`, a word of its list or `do`. -/
def forWord (p : Parser) (stage : OpenStage) (w : Word) (at_ : ℕ) : Except ParseError Parser :=
  match p.opened with
  | [] => .error (.unexpected w.typed)
  | o :: outer =>
    match stage, w.keyword with
    | .forName, _ => .ok { p with
        opened := { o with name := some w, stage := .forAfterName } :: outer }
    | .forAfterName, some .in =>
      .ok { p with opened := { o with words := some [], stage := .forWords } :: outer }
    | .forWords, _ => .ok { p with
        opened := { o with words := some (o.words.getD [] ++ [w]) } :: outer }
    | .forAfterName, some .do =>
        .ok { p with opened := { o with stage := .body } :: outer, itemStart := at_ }
    | .forBeforeDo, some .do =>
        .ok { p with opened := { o with stage := .body } :: outer, itemStart := at_ }
    | _, _ => .error (.unexpected w.typed)

/-- Ends the word being read, which ends at `at_`; a keyword where one may stand opens, goes on
with or closes a compound command. -/
def endWord (p : Parser) (line : List Char) (at_ : ℕ) : Except ParseError Parser :=
  match p.forHeader with
  | some stage =>
    match p.word.finish line with
    | some w => { p with word := {} }.forWord stage w at_
    | none => .ok { p with word := {} }
  | none =>
    match p.parts.endWord p.word line with
    | .error e => .error e
    | .ok (parts, none) => .ok { p with parts, word := {} }
    | .ok (parts, some k) => { p with parts, word := {} }.keyword k at_

/-- The word being read, if it is all unquoted digits and so the fd of the redirection operator
after it; it is taken. -/
def fdWord (p : Parser) : Except ParseError (Option String × Parser) :=
  if p.word.started then
    match p.word.word.digits, p.parts.pending with
    | none, _ => .ok (none, p)
    -- The fd a `>&` copies.
    | some _, some (.copy _ _) => .ok (none, p)
    | some digits, some _ => .error (.unexpected digits)
    | some digits, none => .ok (some digits, { p with word := {} })
  else .ok (none, p)

/-! ### One character -/

/-- An operator, `c` and what follows it, in a `for`'s header, as typed. -/
def forToken (c : Char) : Lex ParseError String :=
  let double (d : Char) (hd : ('\n' == d) = false) (one two : String) : Lex ParseError String := do
    let again ← Lex.takeEq d hd
    pure (if again then two else one)
  if c = '\n' then pure "newline"
  else if c = ';' then do
    let again ← Lex.takeEq ';' rfl
    if again then double '&' rfl ";;" ";;&" else double '&' rfl ";" ";&"
  else if c = '|' then double '|' rfl "|" "||"
  else if c = '&' then double '&' rfl "&" "&&"
  else if c = '<' then double '<' rfl "<" "<<"
  else double '>' rfl ">" ">>"

/-- The stage of a `for`'s header after an operator: a `;` or a new line ends its words. -/
def forNext (stage : OpenStage) (token : String) : Option OpenStage :=
  if token = "newline" then
    match stage with
    | .forAfterName => some .forAfterName
    | .forBeforeDo => some .forBeforeDo
    | .forWords => some .forBeforeDo
    | _ => none
  else if token = ";" then
    match stage with
    | .forAfterName => some .forBeforeDo
    | .forWords => some .forBeforeDo
    | _ => none
  else none

/-- The innermost compound command moves on to `stage`. -/
def withStage (p : Parser) (stage : OpenStage) : Parser :=
  match p.opened with
  | [] => p
  | o :: outer => { p with opened := { o with stage } :: outer }

/-- An operator in a `for`'s header. -/
def forOperator (p : Parser) (stage : OpenStage) (c : Char) : Lex ParseError Parser := do
  let token ← forToken c
  match forNext stage token with
  | some next => pure (p.withStage next)
  | none => Lex.fail (.missingTarget token)

/-- The next item starts where the lexer stands. -/
def startItem (p : Parser) : Lex ParseError Parser := do
  let here ← Lex.pos
  pure { p with itemStart := here }

/-- The fd of a `>`, as typed, and the word before it ended. -/
def outputFd (p : Parser) (line : List Char) (at_ : ℕ) :
    Except ParseError (Fin 3 × String × Parser) :=
  match p.fdWord with
  | .error e => .error e
  | .ok (digits, p) =>
    if digits = some "1" then (p.endWord line at_).map (1, "1", ·)
    else if digits = some "2" then (p.endWord line at_).map (2, "2", ·)
    else match digits with
      | some digits => .error (.unsupported (digits ++ ">"))
      | none => (p.endWord line at_).map (1, "", ·)

/-- A `>`, and what goes with it. -/
def greater (p : Parser) (line : List Char) (at_ : ℕ) : Lex ParseError Parser := do
  let (fd, typed, p) ← Lex.ofExcept (p.outputFd line at_)
  if p.parts.pending.isSome then Lex.fail (.missingTarget ">")
  else do
    let append ← Lex.takeEq '>' rfl
    let copy ← (if append then pure false else Lex.takeEq '&' rfl : Lex ParseError Bool)
    let clobber ← (if append || copy then pure false else Lex.takeEq '|' rfl : Lex ParseError Bool)
    let pending : Pending :=
      if copy then .copy fd (typed ++ ">&") else .file fd append (typed != "")
    if clobber then Lex.fail (.unsupported ">|")
    else pure { p with parts := { p.parts with pending := some pending } }

/-- The fd of a `<`, as typed, and the word before it ended. -/
def inputFd (p : Parser) (line : List Char) (at_ : ℕ) : Except ParseError (Bool × Parser) :=
  match p.fdWord with
  | .error e => .error e
  | .ok (some digits, p) =>
    if digits = "0" then (p.endWord line at_).map (true, ·)
    else .error (.unsupported (digits ++ "<"))
  | .ok (none, p) => (p.endWord line at_).map (false, ·)

/-- A `<`, and what goes with it. -/
def less (p : Parser) (line : List Char) (at_ : ℕ) : Lex ParseError Parser := do
  let (explicit, p) ← Lex.ofExcept (p.inputFd line at_)
  if p.parts.pending.isSome then Lex.fail (.missingTarget "<")
  else do
    let here ← Lex.takeEq '<' rfl
    if here then do
      let word ← Lex.takeEq '<' rfl
      Lex.fail (.unsupported (if word then "<<<" else "<<"))
    else do
      let copy ← Lex.takeEq '&' rfl
      if copy then Lex.fail (.unsupported "<&")
      else do
        let both ← Lex.takeEq '>' rfl
        if both then Lex.fail (.unsupported "<>")
        else pure { p with parts := { p.parts with pending := some (.read explicit) } }

/-- The word before an operator ends, and the operator joins pipelines. -/
def joinAt (p : Parser) (line : List Char) (at_ : ℕ) (connector : Connector) :
    Except ParseError Parser :=
  match p.endWord line at_ with
  | .error e => .error e
  | .ok p => p.join connector

/-- A `|` ends a command of a pipeline. -/
def pipe (p : Parser) (line : List Char) (at_ : ℕ) : Except ParseError Parser :=
  match p.endWord line at_ with
  | .error e => .error e
  | .ok p =>
    p.parts.takeBeforePipe.map fun (command, parts) =>
      { p with pipeline := p.pipeline ++ [command], parts }

/-- A `|`, or the first of two. -/
def bar (p : Parser) (line : List Char) (at_ : ℕ) : Lex ParseError Parser := do
  let or ← Lex.takeEq '|' rfl
  if or then Lex.ofExcept (p.joinAt line at_ .or)
  else do
    let both ← Lex.takeEq '&' rfl
    if both then Lex.fail (.unsupported "|&") else Lex.ofExcept (p.pipe line at_)

/-- A `;` ends an item, which must be there. -/
def semicolonItem (p : Parser) (line : List Char) (at_ : ℕ) : Except ParseError Parser :=
  match p.endWord line at_ with
  | .error e => .error e
  | .ok p =>
    match p.endPipeline ";" with
    | .error e => .error e
    | .ok (none, _) => .error (.missingTarget ";")
    | .ok (some pipeline, p) => .ok ((p.withPipeline pipeline).endItem none)

/-- A `;`, or the first of two. -/
def semicolon (p : Parser) (line : List Char) (at_ : ℕ) : Lex ParseError Parser := do
  let again ← Lex.takeEq ';' rfl
  if again then do
    let amp ← Lex.takeEq '&' rfl
    Lex.fail (.missingTarget (if amp then ";;&" else ";;"))
  else do
    let amp ← Lex.takeEq '&' rfl
    if amp then Lex.fail (.missingTarget ";&")
    else do
      let p ← Lex.ofExcept (p.semicolonItem line at_)
      p.startItem

end Parser

/-- A blank of the shell. -/
def isBlank (c : Char) : Bool :=
  c == ' ' || c == '\t'

/-- Without the blanks in front. -/
def trimStart (text : List Char) : List Char :=
  text.dropWhile isBlank

/-- Without the blanks around. -/
def trim (text : List Char) : List Char :=
  (trimStart (trimStart text).reverse).reverse

/-- What was typed between `from_` and `end_` without the comments that start there, given in order.
-/
def uncommented (line : List Char) (end_ : ℕ) : ℕ → List (ℕ × ℕ) → List Char
  | from_, [] => cut line from_ end_
  | from_, (c, e) :: comments => cut line from_ c ++ uncommented line end_ e comments

/-- What was typed of a background job from `start` to `end_`: one line, its lines joined by a
blank, without its comments or blank lines. -/
def jobText (line : List Char) (start end_ : ℕ) (comments : List (ℕ × ℕ)) : List Char :=
  let within := comments.filter fun c => start ≤ c.1 ∧ c.1 < end_
  let lines := (uncommented line end_ start within).splitOn '\n'
  [' '].intercalate ((lines.map trim).filter (· ≠ []))

theorem uncommented_append {line : List Char} {end_ : ℕ} (h : end_ ≤ line.length) (t : List Char)
    (from_ : ℕ) (comments : List (ℕ × ℕ)) (hc : ∀ c ∈ comments, c.1 < end_) :
    uncommented (line ++ t) end_ from_ comments = uncommented line end_ from_ comments := by
  induction comments generalizing from_ with
  | nil => exact cut_append h t from_
  | cons c comments ih =>
    have hlt : c.1 ≤ line.length := (hc c List.mem_cons_self).le.trans h
    rw [uncommented, uncommented, cut_append hlt,
      ih c.2 fun d hd => hc d (List.mem_cons_of_mem _ hd)]

theorem jobText_append {line : List Char} {end_ : ℕ} (h : end_ ≤ line.length) (t : List Char)
    (start : ℕ) (comments : List (ℕ × ℕ)) :
    jobText (line ++ t) start end_ comments = jobText line start end_ comments := by
  rw [jobText, jobText, uncommented_append h t]
  intro c hc
  have := (List.mem_filter.mp hc).2
  simp only [decide_eq_true_eq] at this
  exact this.2

/-- The text without its `n` leading `!`s and the blanks after each. -/
def withoutBangs : ℕ → List Char → List Char
  | 0, text => text
  | n + 1, text => withoutBangs n (trimStart (if text.head? = some '!' then text.tail else text))

namespace Parser

/-- A `&` ends an item that runs in the background. -/
def background (p : Parser) (line : List Char) (at_ : ℕ) : Except ParseError Parser :=
  match p.endWord line at_ with
  | .error e => .error e
  | .ok p =>
    match p.parts.compound with
    | some c => .error (.unsupported ("& after " ++ c.end))
    | none =>
      if p.parts.pending.isSome ∨ (p.parts.words = [] ∧ p.parts.redirects = []) then
        .error (.missingTarget "&")
      else if p.parts.words = [] then
        .error (.unsupported ((p.parts.typed fun _ => true).getD "" ++ " &"))
      else
        match p.items.connector with
        | some c => .error (.unsupported ("& after " ++ c.token))
        | none =>
          let typed := jobText line p.itemStart at_ p.comments
          let text := String.ofList (withoutBangs p.parts.bangs typed)
          match p.endPipeline "&" with
          | .error e => .error e
          | .ok (found, p) => .ok ((found.elim p p.withPipeline).endItem (some text))

/-- A `&`, or the first of two. -/
def ampersand (p : Parser) (line : List Char) (at_ : ℕ) : Lex ParseError Parser := do
  let and ← Lex.takeEq '&' rfl
  if and then Lex.ofExcept (p.joinAt line at_ .and)
  else do
    let second ← Lex.peek
    if second = some '>' then Lex.fail (.unsupported "&>")
    else do
      let p ← Lex.ofExcept (p.background line at_)
      p.startItem

/-- A new line ends the pipeline, if anything of one was typed, and the item; false if the command
goes on instead, after `|`, `&&` or `||`. -/
def endLine (p : Parser) : Except ParseError (Bool × Parser) :=
  if p.parts.pending.isSome then .error (.missingTarget "newline")
  else
    -- A `!` counts only before a pipeline's first command.
    let nothing := p.parts.isEmpty ∧ (p.parts.bangs = 0 ∨ p.pipeline ≠ [])
    if nothing ∧ (p.pipeline ≠ [] ∨ p.items.connector.isSome) then .ok (false, p)
    else match p.endPipeline "newline" with
      | .error e => .error e
      | .ok (found, p) => .ok (true, (found.elim p p.withPipeline).endItem none)

/-- A new line. -/
def newline (p : Parser) (line : List Char) (at_ : ℕ) : Lex ParseError Parser := do
  let p ← Lex.ofExcept (p.endWord line at_)
  let (ended, p) ← Lex.ofExcept p.endLine
  if ended then p.startItem else pure p

/-- The word being read becomes `word`. -/
def withWord (p : Parser) (word : Building) : Parser :=
  { p with word }

/-- A `$` outside quotes. -/
def dollar (p : Parser) : Lex ParseError Parser := do
  let found ← parameter false
  match found with
  | some param => pure (p.withWord (p.word.param param false))
  | none => pure (p.withWord (p.word.add '$' false))

/-- A backslash outside quotes: the next character is literal; a new line is none. -/
def backslash (p : Parser) : Lex ParseError Parser := do
  let escaped ← Lex.take (· != '\n') Lex.newline_stops
  match escaped with
  | some c => pure (p.withWord (p.word.quoted c))
  | none => Lex.fail .trailingBackslash

/-- A comment runs to the end of the line. -/
def comment (p : Parser) (at_ : ℕ) : Lex ParseError Parser := do
  let _ ← Lex.takeWhile (· != '\n') Lex.newline_stops
  let here ← Lex.pos
  pure { p with comments := p.comments ++ [(at_, here)] }

/-- A character of a word. -/
def plain (p : Parser) (c : Char) : Parser :=
  let tilde := p.word.tilde || (!p.word.started && c == '~')
  p.withWord ({ p.word with tilde }.add c false)

/-- What a character that is no operator of a `for`'s header does. -/
def arm (p : Parser) (line : List Char) (at_ : ℕ) (c : Char) : Lex ParseError Parser :=
  if c = ' ' ∨ c = '\t' then Lex.ofExcept (p.endWord line at_)
  else if c = '>' then p.greater line at_
  else if c = '|' then p.bar line at_
  else if c = ';' then p.semicolon line at_
  else if c = '<' then p.less line at_
  else if c = '&' then p.ampersand line at_
  else if c = '\'' then do
    let word ← p.word.single
    pure (p.withWord word)
  else if c = '"' then do
    let word ← p.word.double
    pure (p.withWord word)
  else if c = '\\' then p.backslash
  else if c = '$' then p.dollar
  else if c = '#' ∧ !p.word.started then p.comment at_
  else if c = '\n' then p.newline line at_
  else if unsupportedChars.contains c then Lex.fail (.unsupported (String.singleton c))
  else pure (p.plain c)

/-- The character starts a redirection. -/
def isRedirection (c : Char) : Bool :=
  c == '>' || c == '<'

/-- The character ends a word. -/
def isOperator (c : Char) : Bool :=
  isRedirection c || c == '|' || c == ';' || c == '&' || c == '\n'

/-- The word being read is all digits. -/
def onDigits (p : Parser) : Bool :=
  p.word.started && p.word.word.digits.isSome

/-- The word before an operator ends at it, unless it may be a redirection's fd. -/
def endBefore (p : Parser) (line : List Char) (at_ : ℕ) (c : Char) : Except ParseError Parser :=
  if isRedirection c ∧ p.onDigits then .ok p else p.endWord line at_

/-- An operator: in a `for`'s header, which the word before it may open or end, it is the header's.
-/
def operator (p : Parser) (line : List Char) (at_ : ℕ) (c : Char) : Lex ParseError Parser := do
  let p ← Lex.ofExcept (p.endBefore line at_ c)
  match p.forHeader with
  | some stage =>
    if isRedirection c ∧ p.onDigits then
      Lex.fail (.unexpected (p.word.word.digits.getD ""))
    else do
      let p ← p.forOperator stage c
      p.startItem
  | none => p.arm line at_ c

/-- One character, `c` at `at_`, and what is read on behind it. -/
def step (p : Parser) (line : List Char) (at_ : ℕ) (c : Char) : Lex ParseError Parser :=
  if isOperator c then p.operator line at_ c else p.arm line at_ c

/-- The word being read, if there is one, reaches from the first character that went into it to
`here`. -/
def mark (p : Parser) (at_ here : ℕ) : Parser :=
  if p.word.started then
    p.withWord { p.word with
      start := if p.word.stop = 0 then at_ else p.word.start
      stop := here }
  else p

/-! ### Texts -/

/-- Reads `line` from `pos` on, where `rest` follows. -/
def readFrom (line : List Char) (p : Parser) (pos : ℕ) : List Char → Except ParseError Parser
  | [] => .ok p
  | c :: rest =>
    match _h : (p.step line pos c).run ⟨pos + 1, rest⟩ with
    | .error e => .error e
    | .ok (p', cur) => readFrom line (p'.mark pos cur.pos) cur.pos cur.rest
termination_by rest => rest.length
decreasing_by
  have := (Lex.moves _h).length_le
  simp only [List.length_cons] at this ⊢
  omega

/-- Reads the parser's text from `from_` on; the text is taken out of the parser meanwhile. -/
def read (p : Parser) (from_ : ℕ) : Except ParseError Parser :=
  (readFrom p.text { p with text := [] } from_ (p.text.drop from_)).map ({ · with text := p.text })

/-- A command needs more lines. -/
def needsMore (p : Parser) : Bool :=
  !p.pipeline.isEmpty || p.items.connector.isSome || !p.opened.isEmpty

/-- Reads `line` and its new line: the list the text makes if the line finishes it, none while it
needs more lines. -/
def line (p : Parser) (line : String) : Except ParseError (Option (Items Word) × Parser) :=
  match { p with text := p.text ++ line.toList ++ ['\n'] }.read p.text.length with
  | .error e => .error e
  | .ok p =>
    if p.needsMore then .ok (none, p) else .ok (some (Items.ofList p.items.items), {})

end Parser

/-- The list of a text that ends with nothing open. -/
def Parser.lastItem (p : Parser) : Except ParseError (Items Word) :=
  if p.parts.pending.isSome then .error (.missingTarget "newline")
  else if p.pipeline ≠ [] ∧ p.parts.words = [] ∧ p.parts.redirects = [] then .error .incomplete
  else match p.endPipeline "newline" with
    | .error e => .error e
    | .ok (found, p) =>
      if found.isNone ∧ p.items.connector.isSome then .error .incomplete
      else .ok (Items.ofList ((found.elim p p.withPipeline).endItem none).items.items)

/-- The text ends: its list, or why it does not parse. -/
def Parser.end (p : Parser) : Except ParseError (Items Word) :=
  match { p with text := [] }.endWord p.text p.text.length with
  | .error e => .error e
  | .ok p => if p.opened ≠ [] then .error .incomplete else p.lastItem

/-- The list of a whole text. -/
def parseLine (line : String) : Except ParseError (Items Word) :=
  match ({ text := line.toList } : Parser).read 0 with
  | .error e => .error e
  | .ok p => p.end

end RelayOs.Sh
