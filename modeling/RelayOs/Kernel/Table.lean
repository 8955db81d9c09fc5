import RelayOs.Lib.Ring
import RelayOs.Kernel.Holders

/-!
# The process table and the run queue

Who exists, who is whose child and in which group, who is ready, running, blocked or a
zombie, and whose turn is next. What a process owns besides that is the payload `R`.
-/

namespace RelayOs.Kernel

open Vfs

/-- The process group a new process goes into. -/
inductive Group
  | parent
  | new
  | join (g : ℕ)
  deriving DecidableEq, Repr

/-- Timer ticks in a time slice. -/
def timeSlice : ℕ := 10

/-- What a blocked process waits for. -/
inductive Blocked
  | wait
  | waitCtrlC
  | console
  | sleep (tick : ℕ)
  | pipe (id : ℕ)
  deriving DecidableEq, Repr

/-- How a process ended. -/
structure WaitStatus where
  how : ℕ
  code : ℕ
  fault : ℕ
  detail : ℕ
  address : ℕ
  ip : ℕ
  deriving DecidableEq, Repr

/-- **What a process does.** -/
inductive State
  | ready
  | running
  | blocked (why : Blocked)
  | zombie (status : WaitStatus)
  deriving DecidableEq, Repr

/-- It has ended and was not collected. -/
def State.isZombie : State → Bool
  | .zombie _ => true
  | _ => false

/-- It waits for something. -/
def State.isBlocked : State → Bool
  | .blocked _ => true
  | _ => false

/-- Blocked until a child ends. -/
def State.isWaiting : State → Bool
  | .blocked .wait => true
  | .blocked .waitCtrlC => true
  | _ => false

/-- **A process**, with what the kernel keeps for it in `res`. -/
structure Process (R : Type) where
  pid : ℕ
  ppid : ℕ
  pgid : ℕ
  name : String
  state : State
  killed : Option ℕ
  ticks : ℕ
  res : R

/-- Which child `wait` waits for. -/
inductive Want
  | any
  | pid (n : ℕ)
  deriving DecidableEq, Repr

/-- Whether the child `pid` is one that is waited for. -/
def Want.covers : Want → ℕ → Bool
  | .any, _ => true
  | .pid n, child => n == child

/-- **The process table.** -/
structure Table (R : Type) where
  procs : List (Process R)
  nextPid : ℕ
  ready : Ring ℕ maxProcs
  current : ℕ
  sliceLeft : ℕ
  console : Holders

/-- The list with `f` applied to the first process called `pid`. -/
def alter {R : Type} (pid : ℕ) (f : Process R → Process R) : List (Process R) → List (Process R)
  | [] => []
  | p :: ps => if p.pid = pid then f p :: ps else p :: alter pid f ps

namespace Table

variable {R : Type}

/-- No process yet. -/
def new : Table R := ⟨[], 1, .empty 0, 0, timeSlice, .new⟩

/-- The process with this pid. -/
def get (t : Table R) (pid : ℕ) : Option (Process R) := t.procs.find? fun p => p.pid == pid

/-- Changes the process `pid`, if there is one. -/
def modify (t : Table R) (pid : ℕ) (f : Process R → Process R) : Table R :=
  { t with procs := alter pid f t.procs }

/-- Sets what a process does. -/
def setState (t : Table R) (pid : ℕ) (s : State) : Table R :=
  t.modify pid fun p => { p with state := s }

/-- Puts `pid` at the end of the run queue. -/
def enqueue (t : Table R) (pid : ℕ) : Option (Table R) :=
  (t.ready.push pid).map fun q => { t with ready := q }

/-! ### The console -/

/-- The group that has the console, as the processes handed it on. -/
def consoleGroup (t : Table R) : ℕ := t.console.foreground

/-- Whether the process `pid` may change the console. -/
def mayChangeConsole (t : Table R) (pid : ℕ) : Bool :=
  (t.get pid).any fun p => t.console.holds p.pgid

/-- Whether the group `g` has a member, ended or not. -/
def hasMember (t : Table R) (g : ℕ) : Bool := t.procs.any fun p => p.pgid == g

/-- **The process `pid`'s group gives the console to the group `dst`.** -/
def giveConsole (t : Table R) (pid dst : ℕ) : Except Errno Unit × Table R :=
  match t.get pid with
  | none => (.error .EPERM, t)
  | some p =>
    let r := t.console.give p.pgid dst t.hasMember
    (r.1, { t with console := r.2 })

/-- Process 1 takes the console back. -/
def takeConsole (t : Table R) : Table R := { t with console := t.console.reset }

/-! ### Starting -/

/-- Whether another process can start. -/
def hasRoom (t : Table R) : Bool := decide (t.procs.length < maxProcs) && t.nextPid != 0

/-- Whether `pgid` is the group of a child of `parent`'s, ended or not. -/
def mayJoin (t : Table R) (parent pgid : ℕ) : Bool :=
  t.procs.any fun p => p.ppid == parent && p.pgid == pgid

/-- Whether a new child of `ppid` may go into the group `group` says. -/
def groupAllowed (t : Table R) (ppid : ℕ) : Group → Bool
  | .join g => t.mayJoin ppid g
  | _ => true

/-- The group of the new process `pid`. -/
def groupOf (t : Table R) (pid ppid : ℕ) : Group → ℕ
  | .join g => g
  | .parent => ((t.get ppid).map Process.pgid).getD pid
  | .new => pid

/-- The pid after `pid`; 0 if there is none. -/
def pidAfter (pid : ℕ) : ℕ := if pid + 1 < 2 ^ 32 then pid + 1 else 0

/-- **Adds a ready process**, a child of `ppid`, in the group `group` says. -/
def insert (t : Table R) (ppid : ℕ) (group : Group) (name : String) (res : R) :
    Option (Except Errno ℕ × Table R) :=
  if t.hasRoom = false then some (.error .EAGAIN, t)
  else if t.groupAllowed ppid group = false then some (.error .EPERM, t)
  else
    let pid := t.nextPid
    let p : Process R := ⟨pid, ppid, t.groupOf pid ppid group, name, .ready, none, 0, res⟩
    (enqueue { t with procs := t.procs ++ [p], nextPid := pidAfter pid } pid).map
      fun t => (.ok pid, t)

/-! ### Scheduling -/

/-- The running process stays ready. -/
def requeue (t : Table R) : Option (Table R) :=
  match t.get t.current with
  | some p => if p.state = .running then (t.setState t.current .ready).enqueue t.current else some t
  | none => some t

/-- The first ready process runs, or the idle task. -/
def runNext (t : Table R) : ℕ × Table R :=
  let next := t.ready.pop.getD (0, t.ready)
  (next.1, { t.setState next.1 .running with
    ready := next.2, current := next.1, sliceLeft := timeSlice })

/-- **Gives up the CPU** for the running process and picks the next ready one. -/
def schedule (t : Table R) : Option (ℕ × Table R) := t.requeue.map runNext

/-- The running process blocks on `why`. -/
def block (t : Table R) (why : Blocked) : Table R := t.setState t.current (.blocked why)

/-- Makes `pid` ready if it is blocked; whether it was. -/
def wake (t : Table R) (pid : ℕ) : Option (Bool × Table R) :=
  match t.get pid with
  | some p =>
    if p.state.isBlocked then ((t.setState pid .ready).enqueue pid).map fun t => (true, t)
    else some (false, t)
  | none => some (false, t)

/-- Wakes the processes listed. -/
def wakeEach : List ℕ → Table R → Option (Table R)
  | [], t => some t
  | pid :: pids, t => (t.wake pid).bind fun r => wakeEach pids r.2

/-- The pids of the processes `c` holds of. -/
def pidsOf (t : Table R) (c : Process R → Bool) : List ℕ := (t.procs.filter c).map Process.pid

/-- Wakes every process blocked on `why`. -/
def wakeAll (t : Table R) (why : Blocked) : Option (Table R) :=
  wakeEach (t.pidsOf fun p => p.state = .blocked why) t

/-- Wakes the processes of group `pgid` that wait for a child or a Ctrl-C. -/
def wakeWaiting (t : Table R) (pgid : ℕ) : Option (Table R) :=
  wakeEach (t.pidsOf fun p => p.pgid = pgid ∧ p.state = .blocked .waitCtrlC) t

/-- Wakes the processes listed, gathered in an array of `maxProcs`. -/
def wakeGathered (pids : List ℕ) (t : Table R) : Option (Table R) :=
  if pids.length ≤ maxProcs then wakeEach pids t else none

/-- Whether the state is that of a sleeper whose time has come. -/
def isDue (now : ℕ) : State → Bool
  | .blocked (.sleep tick) => decide (tick ≤ now)
  | _ => false

/-- Wakes the sleepers whose time has come at tick `now`. -/
def wakeSleepers (t : Table R) (now : ℕ) : Option (Table R) :=
  wakeGathered (t.pidsOf fun p => isDue now p.state) t

/-- Whether anything but the running process is ready. -/
def othersReady (t : Table R) : Bool := decide (0 < t.ready.len)

/-- A timer tick while the running process ran. -/
def tick (t : Table R) : Bool × Table R :=
  let t := t.modify t.current fun p => { p with ticks := p.ticks + 1 }
  let left := t.sliceLeft - 1
  if 0 < left then (false, { t with sliceLeft := left })
  else (t.othersReady, { t with sliceLeft := timeSlice })

/-! ### Ending -/

/-- Takes `pid` out of the run queue if it was ready. -/
def dequeueIf (t : Table R) (pid : ℕ) (wasReady : Bool) : Option (Table R) :=
  if wasReady then (t.ready.remove 0 pid).map fun q => { t with ready := q } else some t

/-- The children of `pid` pass to process 1. -/
def orphan (t : Table R) (pid : ℕ) : Table R :=
  { t with procs := t.procs.map fun c => if c.ppid = pid then { c with ppid := init } else c }

/-- Wakes `pid` if it waits for a child. -/
def wakeWaiter (t : Table R) (pid : ℕ) : Option (Table R) :=
  if (t.get pid).any fun p => p.state.isWaiting then (t.wake pid).map Prod.snd else some t

/-- **`pid` has ended with `status`**: it is a zombie until its parent waits for it, its
children pass to process 1, and a parent blocked in `wait` is woken. -/
def endProc (t : Table R) (pid : ℕ) (status : WaitStatus) : Option (Table R) :=
  match t.get pid with
  | none => some t
  | some p => do
    let t ← (t.setState pid (.zombie status)).dequeueIf pid (decide (p.state = .ready))
    let orphaned := t.procs.any fun c => decide (c.ppid = pid) && c.state.isZombie
    let t ← (t.orphan pid).wakeWaiter p.ppid
    if orphaned then t.wakeWaiter init else some t

/-- Whether `p` is a child of `parent` that is waited for. -/
def isWanted (parent : ℕ) (want : Want) (p : Process R) : Bool :=
  p.ppid == parent && want.covers p.pid

/-- **Takes a zombie child of `parent` out of the table.** -/
def reap (t : Table R) (parent : ℕ) (want : Want) :
    Except Errno (Option (Process R)) × Table R :=
  let ended := fun p : Process R => isWanted parent want p && p.state.isZombie
  if t.procs.any (isWanted parent want) then
    match t.procs.find? ended with
    | some p => (.ok (some p), { t with procs := t.procs.eraseP ended })
    | none => (.ok none, t)
  else (.error .ECHILD, t)

/-- Notes why `p` must end, if `hit` names it and it has not ended; the first reason stays. -/
def noteKilled (hit : Process R → Bool) (reason : ℕ) (p : Process R) : Process R :=
  if hit p && !p.state.isZombie then { p with killed := some (p.killed.getD reason) } else p

/-- Marks the processes `hit` names, but the ones that have ended, as killed for `reason`, and wakes
the blocked ones so that they end. -/
def mark (t : Table R) (hit : Process R → Bool) (reason : ℕ) : Option (Table R) :=
  wakeGathered (t.pidsOf fun p => hit p && p.state.isBlocked)
    { t with procs := t.procs.map (noteKilled hit reason) }

/-- Whether `kill` of `target`, a pid or a negated group number, hits `p`. -/
def isHit (target : ℤ) (p : Process R) : Bool :=
  if 0 < target then (p.pid : ℤ) == target
  else if target < 0 then target != -2 ^ 63 && -target == (p.pgid : ℤ)
  else false

/-- **Marks the process `target`** to end for `reason`. -/
def kill (t : Table R) (target : ℤ) (reason : ℕ) : Option (Except Errno Unit × Table R) :=
  if t.procs.any (isHit target) = false then some (.error .ESRCH, t)
  else if t.procs.any fun p => isHit target p && p.pid == init then some (.error .EPERM, t)
  else (t.mark (isHit target) reason).map fun t => (.ok (), t)

/-- Kills every process but process 1 for `reason`. -/
def killAllButInit (t : Table R) (reason : ℕ) : Option (Table R) :=
  t.mark (fun p => p.pid != init) reason

end Table

/-! ### Runs -/

/-- A call on the table. -/
inductive Op (R : Type)
  | insert (ppid : ℕ) (group : Group) (name : String) (res : R)
  | schedule
  | block (why : Blocked)
  | wake (pid : ℕ)
  | wakeAll (why : Blocked)
  | wakeWaiting (pgid : ℕ)
  | wakeSleepers (now : ℕ)
  | tick
  | endProc (pid : ℕ) (status : WaitStatus)
  | reap (parent : ℕ) (want : Want)
  | kill (target : ℤ) (reason : ℕ)
  | killAllButInit (reason : ℕ)
  | giveConsole (pid dst : ℕ)
  | takeConsole

/-- What a call answers. -/
inductive Reply (R : Type)
  | unit
  | pid (n : ℕ)
  | flag (b : Bool)
  | reaped (p : Option (Process R))
  | refused (e : Errno)

variable {R : Type}

/-- The reply to a call that may be refused. -/
def Reply.ofExcept {α : Type} (f : α → Reply R) : Except Errno α → Reply R
  | .ok a => f a
  | .error e => .refused e

/-- Makes a call. -/
def Table.step (t : Table R) : Op R → Option (Reply R × Table R)
  | .insert ppid group name res => (t.insert ppid group name res).map fun r =>
      (.ofExcept .pid r.1, r.2)
  | .schedule => t.schedule.map fun r => (.pid r.1, r.2)
  | .block why => some (.unit, t.block why)
  | .wake pid => (t.wake pid).map fun r => (.flag r.1, r.2)
  | .wakeAll why => (t.wakeAll why).map fun t => (.unit, t)
  | .wakeWaiting pgid => (t.wakeWaiting pgid).map fun t => (.unit, t)
  | .wakeSleepers now => (t.wakeSleepers now).map fun t => (.unit, t)
  | .tick => some (.flag t.tick.1, t.tick.2)
  | .endProc pid status => (t.endProc pid status).map fun t => (.unit, t)
  | .reap parent want => some (.ofExcept .reaped (t.reap parent want).1, (t.reap parent want).2)
  | .kill target reason => (t.kill target reason).map fun r => (.ofExcept (fun _ => .unit) r.1, r.2)
  | .killAllButInit reason => (t.killAllButInit reason).map fun t => (.unit, t)
  | .giveConsole pid dst =>
    some (.ofExcept (fun _ => .unit) (t.giveConsole pid dst).1, (t.giveConsole pid dst).2)
  | .takeConsole => some (.unit, t.takeConsole)

/-- Makes the calls of a run one after the other, and lists what they answer. -/
def Table.run : List (Op R) → Table R → Option (List (Reply R) × Table R)
  | [], t => some ([], t)
  | op :: ops, t => do
    let (r, t) ← t.step op
    let (rs, t) ← Table.run ops t
    some (r :: rs, t)

end RelayOs.Kernel
