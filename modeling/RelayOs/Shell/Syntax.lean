import Mathlib

/-!
# What the shell's parser gives

The tree of a command line: a **list** of items, each an and-or list of pipelines; a pipeline
runs simple commands joined by `|`, or one compound command – `if`, `while`, `until`, `for` –
whose conditions and bodies are lists again. The types are generic in their words, as in the
source: the parser gives them as typed (`RelayOs.Sh.Word`), expansion as the strings a
command gets.
-/

namespace RelayOs.Sh

/-- The fds 0, 1 and 2 are literals of `Fin 3`. -/
instance threeNeZero : NeZero 3 := ⟨by decide⟩

/-! ### Words -/

/-- A parameter expansion replaces. -/
inductive Param where
  | name (name : String)
  | arg (n : ℕ)
  | count
  | all
  | status
  | bad (typed : String)
  | home
  deriving DecidableEq, Repr

/-- A piece of a word: text or a parameter, quoted or not. -/
inductive Piece where
  | text (text : String) (quoted : Bool)
  | param (param : Param) (quoted : Bool)
  deriving DecidableEq, Repr

/-- A word as typed. -/
structure Word where
  pieces : List Piece
  typed : String
  deriving DecidableEq, Repr

/-- A letter or `_`. -/
def startsName (c : Char) : Bool :=
  c.isAlpha || c == '_'

/-- A letter, a digit or `_`. -/
def inName (c : Char) : Bool :=
  c.isAlphanum || c == '_'

/-- A name: letters, digits and `_`, no digit first. -/
def isName (s : String) : Bool :=
  s.toList.head?.any startsName && s.toList.all inName

/-- The text before the first `c`, and the text after it. -/
def splitOnce (c : Char) (s : String) : Option (String × String) :=
  let before := s.toList.takeWhile (· != c)
  match s.toList.drop before.length with
  | [] => none
  | _ :: after => some (String.ofList before, String.ofList after)

/-- The loop of `valueTildes`: `run` is the text since the last piece, `out` the pieces so far. -/
def valueTildesFrom (last : Bool) : List Char → Bool → String → List Piece → List Piece
  | [], _, run, out => if !run.isEmpty || out.isEmpty then out ++ [.text run false] else out
  | c :: rest, afterColon, run, out =>
    let ends := match rest.head? with
      | some n => n == '/' || n == ':'
      | none => last
    if c == '~' && afterColon && ends then
      let out := if run.isEmpty then out else out ++ [.text run false]
      valueTildesFrom last rest (c == ':') "" (out ++ [.param .home true])
    else valueTildesFrom last rest (c == ':') (run.push c) out

/-- An unquoted piece of an assignment's value, each `~` that stands for the home directory a piece
of its own. -/
def valueTildes (text : String) (first last : Bool) : List Piece :=
  valueTildesFrom last text.toList first "" []

/-- The word as an assignment, `NAME=value`, if its name and `=` are unquoted. -/
def Word.assignment (w : Word) : Option (String × Word) :=
  match w.pieces with
  | .text first false :: more => do
    let (name, rest) ← splitOnce '=' first
    if isName name then
      let pieces := if rest.isEmpty then more else .text rest false :: more
      let tildes := fun p : Piece × ℕ => match p with
        | (.text text false, i) => valueTildes text (i == 0) (i + 1 == pieces.length)
        | (piece, _) => [piece]
      let typed := String.ofList (w.typed.toList.drop (name.length + 1))
      some (name, ⟨pieces.zipIdx.flatMap tildes, typed⟩)
    else none
  | _ => none

/-! ### Commands -/

/-- What a redirection makes of its fd. -/
inductive RedirectOp (W : Type) where
  | read (path : W)
  | write (path : W)
  | append (path : W)
  | copy (fd : Fin 3)
  deriving DecidableEq, Repr

/-- A redirection: what fd `fd` becomes. Only fds 0 to 2 can be redirected. -/
structure Redirect (W : Type) where
  fd : Fin 3
  op : RedirectOp W
  deriving DecidableEq, Repr

/-- One command: the assignments before its name, its words and its redirections. -/
structure Command (W : Type) where
  assigns : List W
  words : List W
  redirects : List (Redirect W)
  deriving DecidableEq, Repr

/-- What joins a pipeline to the ones before it. -/
inductive Connector where
  | and
  | or
  deriving DecidableEq, Repr

/-- What it joins runs after this status. -/
def Connector.allows : Connector → ℤ → Bool
  | .and, status => status == 0
  | .or, status => status != 0

/-! ### The tree -/

mutual

/-- A list: its items, one after another. -/
inductive Items (W : Type) where
  | nil
  | cons (item : Item W) (rest : Items W)

/-- An and-or list and, if it ends with `&`, what was typed of it. -/
inductive Item (W : Type) where
  | mk (andOr : AndOr W) (background : Option String)

/-- Pipelines joined by `&&` and `||`. -/
inductive AndOr (W : Type) where
  | mk (first : Pipeline W) (rest : Rest W)

/-- The pipelines after the first, each with what joins it to the ones before. -/
inductive Rest (W : Type) where
  | nil
  | cons (connector : Connector) (pipeline : Pipeline W) (rest : Rest W)

/-- What a pipeline runs, whether its status is negated, and a compound command's redirections. -/
inductive Pipeline (W : Type) where
  | mk (negated : Bool) (run : Run W) (redirects : List (Redirect W))

/-- Simple commands joined by `|`, at least one, or one compound command. -/
inductive Run (W : Type) where
  | commands (first : Command W) (more : List (Command W))
  | compound (compound : Compound W)

/-- A compound command. A `for` without words takes the arguments. -/
inductive Compound (W : Type) where
  | cond (branches : Branches W)
  | while (condition body : Items W)
  | until (condition body : Items W)
  | for (name : W) (words : Option (List W)) (body : Items W)

/-- The rest of an `if`: conditions with the bodies they run, up to the `else` body or `fi`. -/
inductive Branches (W : Type) where
  | fi
  | else (body : Items W)
  | elif (condition body : Items W) (rest : Branches W)

end

variable {W : Type}

mutual

/-- Whether a background job stands anywhere in the list, in a compound command too. -/
def Items.hasJob : Items W → Bool
  | .nil => false
  | .cons item rest => item.hasJob || rest.hasJob

/-- As `Items.hasJob`, for an item. -/
def Item.hasJob : Item W → Bool
  | .mk andOr background => background.isSome || andOr.hasJob

/-- As `Items.hasJob`, for an and-or list. -/
def AndOr.hasJob : AndOr W → Bool
  | .mk first rest => first.hasJob || rest.hasJob

/-- As `Items.hasJob`, for the rest of one. -/
def Rest.hasJob : Rest W → Bool
  | .nil => false
  | .cons _ pipeline rest => pipeline.hasJob || rest.hasJob

/-- As `Items.hasJob`, for a pipeline. -/
def Pipeline.hasJob : Pipeline W → Bool
  | .mk _ run _ => run.hasJob

/-- As `Items.hasJob`, for what a pipeline runs. -/
def Run.hasJob : Run W → Bool
  | .commands _ _ => false
  | .compound c => c.hasJob

/-- As `Items.hasJob`, for a compound command. -/
def Compound.hasJob : Compound W → Bool
  | .cond branches => branches.hasJob
  | .while condition body => condition.hasJob || body.hasJob
  | .until condition body => condition.hasJob || body.hasJob
  | .for _ _ body => body.hasJob

/-- As `Items.hasJob`, for the branches of an `if`. -/
def Branches.hasJob : Branches W → Bool
  | .fi => false
  | .else body => body.hasJob
  | .elif condition body rest => condition.hasJob || body.hasJob || rest.hasJob

end

/-- The list is one pipeline of simple commands, and nothing else. -/
def lonePipeline : Items W → Bool
  | .cons (.mk (.mk (.mk _ (.commands _ _) _) .nil) _) .nil => true
  | _ => false

end RelayOs.Sh
