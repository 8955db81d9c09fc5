import RelayOs.Lib.Program
import RelayOs.Shell.Syntax
import RelayOs.Shell.Files

/-!
# The shell's walker

How the shell runs the tree of a command line. The walker is a program
(`RelayOs.Sh.Walk`) over two kinds of requests: those that read and change the shell's own
state (`RelayOs.Sh.Shell`), and those to everything around it – the console, the variables
and their expansion, the files, the runner that starts commands. Nothing is said here of what
the latter answer: a command may end in any way, an expansion or an opening may fail, Ctrl-C
may have been typed.
-/

namespace RelayOs.Sh

/-- The shell's name, in its messages. -/
def shellName : String := "relay-sh"

/-- The status of a line that does not parse. -/
def syntaxStatus : ℤ := 2

/-- The status after Ctrl-C. -/
def cancelledStatus : ℤ := 130

/-- The longest message that goes into a pipe. -/
def pipedMessageMax : ℕ := 8 * 1024

/-- The commands the shell runs itself. -/
def builtins : List String :=
  ["cd", "exit", "export", "help", "jobs", "kill", "unset", "wait"]

/-- Why a line could not be expanded. -/
inductive ExpandError where
  | badSubstitution (typed : String)
  | ambiguousRedirect (typed : String)
  | tooLong
  | full (name : String)
  deriving DecidableEq, Repr

/-- What the shell says of it. -/
def ExpandError.text : ExpandError → String
  | .badSubstitution typed => typed ++ ": bad substitution"
  | .ambiguousRedirect typed => typed ++ ": ambiguous redirect"
  | .tooLong => "the line would expand to more than 64 KiB"
  | .full name => name ++ ": the variables would hold more than 64 KiB"

/-- It abandons the rest of the line, not only its command. -/
def ExpandError.abandons : ExpandError → Bool
  | .badSubstitution _ | .tooLong => true
  | .ambiguousRedirect _ | .full _ => false

/-- A script `sh` has read, for the shell to run. -/
structure Script where
  text : String
  name : String
  args : List String
  environment : List ℕ

/-- How a command went. -/
structure Ran where
  status : ℤ
  message : String
  own : Bool
  stop : Bool
  exited : Bool
  script : Option Script
  cancelled : Bool
  of_script : script.isSome = true → stop = false ∧ cancelled = false

/-- A command that only says something. -/
def Ran.said (status : ℤ) (message : String) : Ran :=
  ⟨status, message, false, false, false, none, false, nofun⟩

/-- A pipeline's command for the runner. -/
structure Stage where
  words : List String
  fds : Option Fds
  assigns : List String
  intoPipe : Option String

/-- How a background job's start went. -/
structure Started where
  pgid : Option ℕ
  pids : List ℕ
  ran : Ran

/-- The shell's own state. -/
structure Shell where
  spawning : Bool
  prompting : Bool
  status : ℤ
  stopped : Bool
  exited : Bool
  inScript : Bool
  abandoned : Bool
  cancelled : Bool
  fds : Fds
  files : Files

/-- The command that ran last ends the rest of the line. -/
def Shell.endsLine (s : Shell) : Bool :=
  s.stopped || s.cancelled || s.abandoned

/-- The shell at the start of a line. -/
def Shell.newLine (s : Shell) : Shell :=
  { s with abandoned := false, cancelled := false }

/-- The shell when a script starts, with `$?` 0. -/
def Shell.enterScript (s : Shell) : Shell :=
  { s with status := 0 }

/-- The shell when a script is over: its `exit` ended only the script. -/
def Shell.leaveScript (s : Shell) : Shell :=
  { s with stopped := if s.exited then false else s.stopped, abandoned := false }

/-! ### What the walker asks -/

/-- **The walker's requests.** -/
inductive Call where
  -- its own state
  | look
  | change (f : Shell → Shell)
  | newLine
  | enterScript (script : Script)
  | leaveScript
  -- the console and the jobs
  | interrupted
  | collectJobs
  | takeBack
  | addJob (pgid : ℕ) (pids : List ℕ) (text : String)
  -- the variables, and expansion
  | expandWords (words : List Word) (status : ℤ)
  | expandParts (command : Command Word) (status : ℤ)
  | expandAll (commands : List (Command Word)) (status : ℤ)
  | expandValue (value : Word) (status : ℤ)
  | expandTarget (redirect : Redirect Word) (status : ℤ)
  | positional
  | setVar (name value : String)
  | holdVars (assigns : List String)
  | releaseVars
  -- the files of redirections
  | openFile (op : RedirectOp String)
  | closeFile (i : ℕ) (entry : Entry)
  -- the runner
  | run (builtin : Bool) (name : String) (args assigns : List String) (fds : Fds)
  | pipeline (stages : List Stage)
  | background (stages : List Stage)
  -- output
  | writeFd (fd : ℕ) (text : String)
  | writeNode (node offset : ℕ) (text : String)
  | say (text : String)
  | writeTranscript
  | sync
  -- a script's lines
  | blank (line : String)
  | readLine (line : String)
  | readerEnd
  | hang

/-- What each is answered with. -/
abbrev Call.Reply : Call → Type
  | .look => Shell
  | .enterScript _ => Except ExpandError Unit
  | .interrupted | .blank _ => Bool
  | .addJob _ _ _ | .writeNode _ _ _ => ℕ
  | .expandWords _ _ => Except ExpandError (List String)
  | .expandParts _ _ => Except ExpandError (List String × List String)
  | .expandAll _ _ => Except ExpandError (List (Command String))
  | .expandValue _ _ => Except ExpandError String
  | .expandTarget _ _ => Except ExpandError (Redirect String)
  | .positional => List String
  | .setVar _ _ | .holdVars _ => Except ExpandError Unit
  | .openFile _ => Except String (ℕ × Handle)
  | .run _ _ _ _ _ | .pipeline _ => Ran × List (ℕ × ℕ)
  | .background _ => Started
  | .sync | .readerEnd => Option String
  | .readLine _ => Except String (Option (Items Word))
  | .hang => Empty
  | .change _ | .newLine | .leaveScript | .collectJobs | .takeBack | .releaseVars
  | .closeFile _ _ | .writeFd _ _ | .say _ | .writeTranscript => Unit

/-- The walker's requests, with their replies. -/
abbrev calls : Signature :=
  ⟨Call, Call.Reply⟩

/-- A part of the walker. -/
abbrev Walk := Prog calls

/-- One request of the walker. -/
def call (c : Call) : Walk c.Reply :=
  Prog.request (S := calls) c

/-- Looks at the shell's state. -/
def look : Walk Shell := call .look

/-- Changes the shell's state. -/
def change (f : Shell → Shell) : Walk Unit := call (.change f)

/-! ### Messages -/

/-- Writes where fd 2 of `fds` goes: the screen, or a file. -/
def sayOn (fds : Fds) (text : String) : Walk Unit :=
  match fds 2 with
  | .file i => do
    let s ← look
    match ← Prog.ofOption (s.files.handle i) with
    | .fd n => if s.spawning then call (.writeFd n text) else pure ()
    | .node node offset => do
      let at_ ← call (.writeNode node offset text)
      change fun s => { s with files := s.files.setOffset i at_ }
  | _ => call (.say text)

/-- Writes everything to the disks, and says so if that fails. -/
def sync : Walk Unit := do
  match ← call .sync with
  | some error => call (.say (shellName ++ ": sync failed: " ++ error ++ "\n"))
  | none => pure ()

/-- The text without the suffix, if it ends with it. -/
def stripSuffix (text suffix : String) : Option String :=
  if text.endsWith suffix then
    some (String.ofList (text.toList.take (text.length - suffix.length)))
  else none

/-- A message on fd 2 of `fds`, its `^C` at the end, the key's echo, on the screen. -/
def report (fds : Fds) (message : String) : Walk Unit :=
  match stripSuffix message "^C\n" with
  | some report => do
    sayOn fds report
    call (.say "^C\n")
  | none => sayOn fds message

/-- Prints `message` and records `status`. -/
def finish (status : ℤ) (message : String) : Walk ℤ := do
  let s ← look
  report s.fds message
  call .writeTranscript
  sync
  change fun s => { s with status := status }
  pure status

/-- An expansion that failed, in a command the shell runs itself (`alone`) or not. -/
def notExpanded (e : ExpandError) (alone : Bool) : Walk ℤ := do
  change fun s => { s with abandoned := alone && e.abandons }
  finish 1 (shellName ++ ": " ++ e.text ++ "\n")

/-! ### Contexts -/

/-- An fd that held `slot` holds it no more: the file is closed if that was the last one. -/
def dropSlot (slot : Slot) : Walk Unit := do
  let s ← look
  change fun s => { s with files := (s.files.dropSlot slot).1 }
  match (s.files.dropSlot slot).2 with
  | some (i, entry) => call (.closeFile i entry)
  | none => pure ()

/-- A context ends: the files it held last are closed. -/
def release (fds : Fds) : Walk Unit := do
  change fun s => { s with files := s.files.forget fds }
  dropSlot (fds 0)
  dropSlot (fds 1)
  dropSlot (fds 2)

/-- Fd `k` of the context `fds` becomes `slot`; what it was is dropped. -/
def replace (fds : Fds) (k : Fin 3) (slot : Slot) : Walk Unit := do
  change fun s => { s with files := s.files.turn fds (fds.set k slot) }
  dropSlot (fds k)

/-- A file just opened: its place. -/
def addFile (key : ℕ) (handle : Handle) : Walk ℕ := do
  let s ← look
  change fun s => { s with files := (s.files.add key handle).1 }
  pure (s.files.add key handle).2

/-- A redirection that could not be made: the context as it stood, the file and why. -/
structure Failed where
  fds : Fds
  path : String
  error : String

/-- The file a redirection names. -/
def RedirectOp.path : RedirectOp String → String
  | .read path | .write path | .append path => path
  | .copy _ => ""

/-- Fd `k` of the context `fds` becomes a file just opened. -/
def openOn (op : RedirectOp String) (k : Fin 3) (fds : Fds) : Walk (Except Failed Fds) := do
  match ← call (.openFile op) with
  | .error error => pure (.error ⟨fds, op.path, error⟩)
  | .ok (key, handle) => do
    let i ← addFile key handle
    replace fds k (.file i)
    pure (.ok (fds.set k (.file i)))

/-- Fd `k` of the context `fds` becomes a copy of another one, as it is now. -/
def copyOn (k' k : Fin 3) (fds : Fds) : Walk (Except Failed Fds) := do
  change fun s => { s with files := s.files.holdSlot (fds k') }
  replace fds k (fds k')
  pure (.ok (fds.set k (fds k')))

/-- One redirection over the context `fds`. -/
def redirectOne (r : Redirect String) (fds : Fds) : Walk (Except Failed Fds) :=
  match r.op with
  | .copy k => copyOn k r.fd fds
  | op => openOn op r.fd fds

/-- One redirection after another, over the context `fds`. -/
def redirectFrom : List (Redirect String) → Fds → Walk (Except Failed Fds)
  | [], fds => pure (.ok fds)
  | r :: rest, fds => do
    match ← redirectOne r fds with
    | .ok fds => redirectFrom rest fds
    | .error failed => pure (.error failed)

/-- The context `redirects` make over `base`, or what was made of it and the message. -/
def made (base : Fds) (redirects : List (Redirect String)) : Walk (Except (Fds × String) Fds) := do
  change fun s => { s with files := s.files.hold base }
  match ← redirectFrom redirects base with
  | .ok fds => pure (.ok fds)
  | .error failed =>
    pure (.error (failed.fds, shellName ++ ": " ++ failed.path ++ ": " ++ failed.error ++ "\n"))

/-- The context `redirects` make over `base`; one that cannot be made is told on its fd 2, and what
was made of it is closed. -/
def redirect (base : Fds) (redirects : List (Redirect String)) : Walk (Option Fds) := do
  match ← made base redirects with
  | .ok fds => pure (some fds)
  | .error (fds, message) => do
    sayOn fds message
    release fds
    pure none

/-- The targets expanded, up to the first that does not expand. -/
def expandTargets : List (Redirect Word) → Walk (List (Redirect String) × Option ExpandError)
  | [] => pure ([], none)
  | r :: rest => do
    let s ← look
    match ← call (.expandTarget r s.status) with
    | .ok r' => do
      let (more, failed) ← expandTargets rest
      pure (r' :: more, failed)
    | .error e => pure ([], some e)

/-- The context the typed `redirects` make over `base`. -/
def make (base : Fds) (redirects : List (Redirect Word)) : Walk (Option Fds) := do
  let (expanded, failed) ← expandTargets redirects
  match ← redirect base expanded with
  | none => pure none
  | some fds =>
    match failed with
    | none => pure (some fds)
    | some e => do
      change fun s => { s with abandoned := e.abandons }
      sayOn fds (shellName ++ ": " ++ e.text ++ "\n")
      release fds
      pure none

/-- Runs `body` where fds 0, 1 and 2 are `fds`. -/
def within (fds : Fds) (body : Walk ℤ) : Walk ℤ := do
  let outer ← look
  change fun s => { s with fds := fds }
  let status ← body
  change fun s => { s with fds := outer.fds }
  pure status

/-- What a stage's redirections start from: the pipe from the one before, the pipe to the one after,
the context's for the rest. -/
def stageBase (fds : Fds) (first last : Bool) : Fds :=
  fun k => match k with
    | 0 => if first then fds 0 else .pipeIn
    | 1 => if last then fds 1 else .pipeOut
    | 2 => fds 2

/-- A stage's fds; none if its redirections could not be made, whose message is told on its fd 2 or
left for the pipe. -/
def stageContext (base : Fds) (redirects : List (Redirect String)) :
    Walk (Option Fds × Option String) := do
  match ← made base redirects with
  | .ok fds => pure (some fds, none)
  | .error (fds, message) => do
    let piped := fds 2 == .pipeOut && message.utf8ByteSize ≤ pipedMessageMax
    (if piped then pure () else sayOn fds message : Walk Unit)
    release fds
    pure (none, if piped then some message else none)

/-- Each stage's fds. -/
def stageFds (first : Bool) : List (Command String) → Walk (List (Option Fds × Option String))
  | [] => pure []
  | stage :: rest => do
    let s ← look
    let one ← stageContext (stageBase s.fds first rest.isEmpty) stage.redirects
    let more ← stageFds false rest
    pure (one :: more)

/-- The contexts that were made for stages, released in turn. -/
def releaseAll : List Fds → Walk Unit
  | [] => pure ()
  | fds :: rest => do
    release fds
    releaseAll rest

/-- A pipeline's stages for the runner. -/
def runnerStages (stages : List (Command String)) (all : List (Option Fds × Option String)) :
    List Stage :=
  (stages.zip all).map fun p => ⟨p.1.words, p.2.1, p.1.assigns, p.2.2⟩

/-- The runner's files where its commands left them. -/
def putOffsets : List (ℕ × ℕ) → Walk Unit
  | [] => pure ()
  | (i, at_) :: rest => do
    change fun s => { s with files := s.files.setOffset i at_ }
    putOffsets rest

/-! ### Pipelines -/

/-- The first of `stages` that is one of the shell's own commands. -/
def builtinIn (stages : List (Command String)) : Option String :=
  (stages.filterMap fun c => c.words.head?).find? (builtins.contains ·)

/-- A command's own message is told on its fd 2; the message that is left. -/
def ownMessage (ran : Ran) (fds : Option Fds) : Walk String :=
  match ran.own, fds with
  | true, some fds => do
    sayOn fds ran.message
    pure ""
  | _, _ => pure ran.message

/-- Runs a pipeline: its status is the last command's. -/
def pipeline (stages : List (Command String)) : Walk ℤ := do
  match builtinIn stages with
  | some name => finish 1 (shellName ++ ": " ++ name ++ ": cannot be used in a pipeline\n")
  | none => do
    let all ← stageFds true stages
    let (ran, moved) ← call (.pipeline (runnerStages stages all))
    putOffsets moved
    let message ← ownMessage ran (all.getLast?.bind (·.1))
    releaseAll (all.filterMap (·.1))
    call .takeBack
    change fun s => { s with cancelled := s.cancelled || ran.cancelled }
    finish ran.status message

/-- A job that started gets its number, and at the prompt the shell says so. -/
def announce (started : Started) (text : String) : Walk Unit :=
  match started.pgid with
  | some pgid => do
    let number : ℕ ← call (.addJob pgid started.pids text)
    let s ← look
    if s.prompting && !s.inScript then
      sayOn s.fds ("[" ++ toString number ++ "] " ++
        toString (started.pids.getLast?.getD pgid) ++ "\n")
    else pure ()
  | none => pure ()

/-- Starts `stages` as a background job whose text is `text`. -/
def background (stages : List (Command String)) (text : String) : Walk ℤ := do
  match builtinIn stages with
  | some name => finish 1 (shellName ++ ": " ++ name ++ ": cannot be used in the background\n")
  | none => do
    let all ← stageFds true stages
    let started ← call (.background (runnerStages stages all))
    releaseAll (all.filterMap (·.1))
    announce started text
    finish started.ran.status started.ran.message

/-- Variables set one after another, up to one that cannot be held. -/
def setAll : List (String × String) → Walk (Except ExpandError Unit)
  | [] => pure (.ok ())
  | (name, value) :: rest => do
    match ← call (.setVar name value) with
    | .ok _ => setAll rest
    | .error e => pure (.error e)

/-- Assignments expanded and set one after another, so that a later one reads an earlier one. -/
def assignAll : List (String × Word) → Walk (Except ExpandError Unit)
  | [] => pure (.ok ())
  | (name, value) :: rest => do
    let s ← look
    match ← call (.expandValue value s.status) with
    | .error e => pure (.error e)
    | .ok v =>
      match ← call (.setVar name v) with
      | .error e => pure (.error e)
      | .ok _ => assignAll rest

/-- A line of assignments. -/
def assign (command : Command Word) : Walk ℤ := do
  match ← assignAll (command.assigns.filterMap Word.assignment) with
  | .error e => notExpanded e true
  | .ok _ => do
    let s ← look
    match ← make s.fds command.redirects with
    | some fds => do
      release fds
      finish 0 ""
    | none => finish 1 ""

/-- Starts a command on `fds`; a bare redirection only makes its files. -/
def start (builtin : Bool) (words assigns : List String) (fds : Fds) : Walk Ran :=
  match words with
  | [] => pure (.said 0 "")
  | name :: args => do
    let (ran, moved) ← call (.run builtin name args assigns fds)
    putOffsets moved
    if builtin then pure ran
    else do
      call .takeBack
      pure ran

/-- The script a command leaves to run, with its fds, or its status. -/
def scriptOr (script : Script → Walk ℤ) (fds : Fds) (ran : Ran) : Walk ℤ :=
  match ran.script with
  | some sc => within fds (script sc)
  | none => pure ran.status

/-- After a command: its message, what it means for the line, and the script `sh` read, which runs
with its fds. -/
def settle (script : Script → Walk ℤ) (fds : Fds) (ran : Ran) : Walk ℤ := do
  let message ← ownMessage ran (some fds)
  change fun s => { s with
    stopped := ran.stop, exited := ran.exited, cancelled := s.cancelled || ran.cancelled }
  let status ← scriptOr script fds ran
  release fds
  finish status message

/-- Runs a command's expanded words on `fds`; before a built-in its assignments are set while it
runs. -/
def runOn (script : Script → Walk ℤ) (words assigns : List String) (fds : Fds) : Walk ℤ := do
  let builtin := words.head?.any (builtins.contains ·)
  match ← (if builtin then call (.holdVars assigns) else pure (.ok ())) with
  | .error e => do
    release fds
    notExpanded e true
  | .ok _ => do
    let ran ← start builtin words assigns fds
    call .releaseVars
    settle script fds ran

/-- Runs a single command: its words are expanded first, then each redirection's target. -/
def runCommand (script : Script → Walk ℤ) (typed : Command Word) : Walk ℤ := do
  let s ← look
  match ← call (.expandParts typed s.status) with
  | .error e => notExpanded e true
  | .ok (words, assigns) => do
    -- Before words that expanded to nothing the assignments stay set.
    match ← (if words.isEmpty then setAll (assigns.filterMap (splitOnce '='))
        else pure (.ok ())) with
    | .error e => notExpanded e true
    | .ok _ =>
      if words.isEmpty && typed.redirects.isEmpty then finish 0 ""
      else do
        let s ← look
        match ← make s.fds typed.redirects with
        | none => finish 1 ""
        | some fds => runOn script words assigns fds

/-- A pipeline or a job, expanded whole before it starts. -/
def runStages (commands : List (Command Word)) (job : Option String) : Walk ℤ := do
  let s ← look
  match ← call (.expandAll commands s.status) with
  | .error e => notExpanded e false
  | .ok stages =>
    match job with
    | some text => background stages text
    | none => pipeline stages

/-- Runs a pipeline's commands, or starts them in the background. -/
def runCommands (script : Script → Walk ℤ) (first : Command Word) (more : List (Command Word))
    (job : Option String) : Walk ℤ := do
  call .collectJobs
  match ((first :: more).filter (·.words.isEmpty)).findSome? (·.assigns.head?) with
  | some word =>
    match job, more with
    | some _, _ =>
      finish 1 (shellName ++ ": " ++ word.typed ++ ": cannot be used in the background\n")
    | none, [] => assign first
    | none, _ :: _ =>
      finish 1 (shellName ++ ": " ++ word.typed ++ ": cannot be used in a pipeline\n")
  | none =>
    if !more.isEmpty || job.isSome then runStages (first :: more) job
    else runCommand script first

/-! ### The walk over the tree -/

/-- The walk of a list, from the last status. -/
def fromStatus (items : ℤ → Walk ℤ) : Walk ℤ := do
  let s ← look
  items s.status

/-- A `while` or `until` loop, of at most `turns` turns. -/
def runLoop (condition body : Walk ℤ) (until_ : Bool) : ℕ → ℤ → Walk ℤ
  | 0, _ => do
    let never ← call .hang
    nomatch never
  | turns + 1, status => do
    let c ← condition
    let s ← look
    if s.endsLine then pure c
    else if (c == 0) == until_ then pure status
    else do
      let status ← body
      let s ← look
      if s.endsLine then pure status else runLoop condition body until_ turns status

/-- A `for`'s body, once for each word. -/
def runEach (name : String) (body : Walk ℤ) : List String → ℤ → Walk ℤ
  | [], status => pure status
  | word :: rest, _ => do
    match ← call (.setVar name word) with
    | .error e => notExpanded e false
    | .ok _ => do
      let status ← body
      let s ← look
      if s.endsLine then pure status else runEach name body rest status

/-- A `for`: its words expanded, or the arguments. -/
def runFor (name : Word) (words : Option (List Word)) (body : Walk ℤ) : Walk ℤ :=
  if isName name.typed then
    match words with
    | some words => do
      let s ← look
      match ← call (.expandWords words s.status) with
      | .ok words => runEach name.typed body words 0
      | .error e => notExpanded e true
    | none => do
      let args ← call .positional
      runEach name.typed body args 0
  else finish 1 (shellName ++ ": `" ++ name.typed ++ "': not a valid identifier\n")

/-- A compound command with its redirections, made once before it starts. -/
def runRedirected (compound : Walk ℤ) (redirects : List (Redirect Word)) : Walk ℤ := do
  let s ← look
  match ← make s.fds redirects with
  | none => finish 1 ""
  | some fds => do
    let status ← within fds compound
    release fds
    pure status

/-- A compound command in a pipeline of its own. -/
def runWhole (compound : Walk ℤ) (redirects : List (Redirect Word)) : Walk ℤ := do
  let status ← (if redirects.isEmpty then compound else runRedirected compound redirects : Walk ℤ)
  change fun s => { s with status := status }
  pure status

/-- A pipeline: Ctrl-C is asked for first, and a `!` negates the status. -/
def runPipelineOf (negated : Bool) (job : Option String) (body : Walk ℤ) : Walk ℤ := do
  let interrupted : Bool ← call .interrupted
  if interrupted then do
    change fun s => { s with cancelled := true }
    finish cancelledStatus "^C\n"
  else do
    let status ← body
    let s ← look
    if !negated || job.isSome || s.stopped || s.abandoned then pure status
    else do
      let status := if status = 0 then 1 else 0
      change fun s => { s with status := status }
      pure status

section Walk

variable (script : Script → Walk ℤ) (turns : ℕ)

mutual

/-- Runs a list's items one after another; its status is the last one's. -/
def itemsFrom : Items Word → ℤ → Walk ℤ
  | .nil, status => pure status
  | .cons item rest, _ => do
    let status ← itemFrom item
    let s ← look
    if s.endsLine then pure status else itemsFrom rest status

/-- An item: an and-or list, or a pipeline as a job. -/
def itemFrom : Item Word → Walk ℤ
  | .mk andOr none => andOrFrom andOr
  | .mk (.mk first _) (some text) => pipelineFrom first (some text)

/-- An and-or list: its first pipeline, then each one that the status so far allows. -/
def andOrFrom : AndOr Word → Walk ℤ
  | .mk first rest => do
    let status ← pipelineFrom first none
    restFrom rest status

/-- The rest of an and-or list, after a pipeline gave `status`. -/
def restFrom : Rest Word → ℤ → Walk ℤ
  | .nil, status => pure status
  | .cons connector pipeline rest, status => do
    let s ← look
    if s.endsLine then pure status
    else if connector.allows status then do
      let status ← pipelineFrom pipeline none
      restFrom rest status
    else restFrom rest status

/-- A pipeline, whose status may be inverted. -/
def pipelineFrom : Pipeline Word → Option String → Walk ℤ
  | .mk negated run redirects, job => runPipelineOf negated job (runFrom run redirects job)

/-- What a pipeline runs: commands, or a compound command with its redirections. -/
def runFrom : Run Word → List (Redirect Word) → Option String → Walk ℤ
  | .commands first more, _, job => runCommands script first more job
  | .compound c, redirects, _ => runWhole (compoundFrom c) redirects

/-- **A compound command.** -/
def compoundFrom : Compound Word → Walk ℤ
  | .cond branches => branchesFrom branches
  | .while condition body =>
    runLoop (fromStatus (itemsFrom condition)) (fromStatus (itemsFrom body)) false turns 0
  | .until condition body =>
    runLoop (fromStatus (itemsFrom condition)) (fromStatus (itemsFrom body)) true turns 0
  | .for name words body => runFor name words (fromStatus (itemsFrom body))

/-- An `if`: each condition in turn, up to one whose status is 0, then its body. -/
def branchesFrom : Branches Word → Walk ℤ
  | .fi => pure 0
  | .else body => fromStatus (itemsFrom body)
  | .elif condition body rest => do
    let status ← fromStatus (itemsFrom condition)
    let s ← look
    if s.endsLine then pure status
    else if status = 0 then fromStatus (itemsFrom body)
    else branchesFrom rest

end

/-- **Runs a command line's list.** -/
def runList (list : Items Word) : Walk ℤ := do
  call .newLine
  let s ← look
  -- A background job needs programs: the in-process runner refuses a line that holds one.
  if !s.spawning && list.hasJob then
    finish syntaxStatus (shellName ++ ": unsupported syntax: &\n")
  else do
    let status ← fromStatus (itemsFrom script turns list)
    let s ← look
    if s.cancelled && !lonePipeline list then do
      change fun s => { s with status := cancelledStatus }
      pure cancelledStatus
    else pure status

end Walk

/-! ### Scripts -/

/-- The lines of a text, without their `\n` or `\r\n`; what follows the last is a line if there
is anything. -/
def lines (text : String) : List String :=
  let parts := text.splitOn "\n"
  let ended := parts.dropLast.map fun line => (stripSuffix line "\r").getD line
  match parts.getLast? with
  | none | some "" => ended
  | some rest => ended ++ [rest]

/-- What Unicode calls white space. -/
def isWhite (c : Char) : Bool :=
  let n := c.toNat
  (9 ≤ n && n ≤ 13) || (0x2000 ≤ n && n ≤ 0x200A) ||
    [0x20, 0x85, 0xA0, 0x1680, 0x2028, 0x2029, 0x202F, 0x205F, 0x3000].contains n

/-- A text without the white space around it. -/
def trimmed (text : String) : String :=
  String.ofList ((text.toList.dropWhile isWhite).reverse.dropWhile isWhite).reverse

/-- A line of a script is shown, before it is read. -/
def traced (line : String) : Walk (Except String (Option (Items Word))) := do
  call .collectJobs
  call (.say ("+ " ++ trimmed line ++ "\n"))
  call .writeTranscript
  sync
  call (.readLine line)

/-- A script's lines: each one shown, and run once it finishes a command; Ctrl-C and what
stops the shell end the script. -/
def linesFrom (runLine : Items Word → Walk ℤ) : List String → ℤ → Walk ℤ
  | [], status => pure status
  | line :: rest, status => do
    let blank : Bool ← call (.blank line)
    if blank then linesFrom runLine rest status
    else do
      let interrupted : Bool ← call .interrupted
      if interrupted then do
        call (.say "^C\n")
        change fun s => { s with cancelled := true }
        pure cancelledStatus
      else do
        match ← traced line with
        | .ok none => linesFrom runLine rest status
        | .ok (some list) => do
          let status ← runLine list
          let s ← look
          if s.cancelled || s.stopped then pure status else linesFrom runLine rest status
        | .error error => do
          let status ← finish syntaxStatus (shellName ++ ": " ++ error ++ "\n")
          let s ← look
          if s.cancelled || s.stopped then pure status else linesFrom runLine rest status

/-- A script that ran to its end inside a command. -/
def readerEnd (status : ℤ) : Walk ℤ := do
  let s ← look
  if s.cancelled || s.stopped then pure status
  else do
    match ← call .readerEnd with
    | some error => finish syntaxStatus (shellName ++ ": " ++ error ++ "\n")
    | none => pure status

/-- Runs a script's lines; one that ends inside a command is an error. -/
def runLines (runLine : Items Word → Walk ℤ) (text : String) : Walk ℤ := do
  change fun s => { s with inScript := true }
  let status ← linesFrom runLine (lines text) 0
  let status ← readerEnd status
  change fun s => { s with inScript := false }
  pure status

/-- A script starts, with variables and arguments of its own. -/
def enter (script : Script) : Walk Unit := do
  match ← call (.enterScript script) with
  | .error e => call (.say (shellName ++ ": " ++ e.text ++ "\n"))
  | .ok _ => pure ()

/-- Runs a script `sh` read, in this shell, with variables of its own. -/
def runScriptOf (runLine : Items Word → Walk ℤ) (script : Script) : Walk ℤ := do
  enter script
  let status ← runLines runLine script.text
  call .leaveScript
  call .writeTranscript
  pure status

/-- A script, with at most `depth` scripts inside one another. -/
def runScript (turns : ℕ) : ℕ → Script → Walk ℤ
  | 0, _ => do
    let never ← call .hang
    nomatch never
  | depth + 1, script => runScriptOf (runList (runScript turns depth) turns) script

end RelayOs.Sh
