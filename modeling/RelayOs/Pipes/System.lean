import RelayOs.Kernel.Fds
import RelayOs.Kernel.Sleepers
import RelayOs.Pipes.Calls

/-!
# Processes and their pipes

The kernel's processes, each with its fds and its memory, and the pipes whose ends they
share. The running process makes a call; a call on a pipe runs without another process in
between until it answers or waits, and one that waits goes on when it is woken and its turn
comes. Meanwhile the rest of the kernel may call on the process table as it likes: kill, wake,
collect, hand on the console.
-/

namespace RelayOs.Pipes

open Vfs Mm Kernel

/-- What an fd refers to: an end of a pipe, or anything else. -/
inductive FileRef
  | other (n : ℕ)
  | pipe (k : ℕ) (side : Side)
  deriving DecidableEq, Repr

/-- Where a process is: in its program or another call, or in a read or a write of a pipe that has
to wait. -/
inductive Phase
  | user
  | reading (k : ℕ) (u : UserSlice)
  | writing (k : ℕ) (u : UserSlice) (chunk : Bytes)

/-- What a process has. -/
structure Res where
  fds : FdTable FileRef
  mem : UserMemory
  phase : Phase

/-- A pipe, with the number those who wait for it are known by. -/
structure Channel where
  id : ℕ
  pipe : Pipe

/-- **The system.** -/
structure Sys where
  table : Table Res
  pipes : List Channel

/-- The answer of a read or a write: which pipe it was made on and with which buffer, what it
answered, and the program's memory when it did. -/
structure Event where
  call : Side
  pipe : ℕ
  slice : UserSlice
  result : Except Errno ℕ
  mem : UserMemory

/-- What the running process or the rest of the kernel does next. -/
inductive Action
  | pipe (addr id : ℕ) (memory : Option (Block size))
  | close (fd : ℕ)
  | read (fd addr len : ℕ)
  | write (fd addr len : ℕ)
  | resume
  | spawn (maps : List FdMap) (group : Group) (name : String) (image : Option UserMemory)
  | openFile (n : ℕ)
  | compute (mem : UserMemory)
  | exit (status : WaitStatus)
  | table (op : Op Res)

/-- How many ends of `side` are open. -/
def Pipe.count (p : Pipe) : Side → ℕ
  | .read => p.readers
  | .write => p.writers

/-- An end of `side` closes. -/
def Pipe.close (p : Pipe) : Side → Pipe
  | .read => { p with readers := p.readers - 1 }
  | .write => { p with writers := p.writers - 1 }

namespace Sys

/-- The process that runs. -/
def running (s : Sys) : Option (Process Res) :=
  (s.table.get s.table.current).filter fun p => p.state = .running

/-- Sets what the current process holds. -/
def setRes (s : Sys) (r : Res) : Sys :=
  { s with table := s.table.modify s.table.current fun p => { p with res := r } }

/-- Sets the pipe at `k`. -/
def setPipe (s : Sys) (k : ℕ) (c : Channel) : Sys := { s with pipes := s.pipes.set k c }

/-- Wakes every process waiting on the pipe at `id`. -/
def wakePipe (s : Sys) (id : ℕ) : Option Sys :=
  (s.table.wakeAll (.pipe id)).map fun t => { s with table := t }

/-! ### Closing -/

/-- Whether some process has `f` open. -/
def held (s : Sys) (f : FileRef) : Bool := s.table.procs.any fun p => decide (f ∈ p.res.fds.files)

/-- The last reference to an end goes: the end closes, and those who wait on the pipe are woken. -/
def closeEnd (s : Sys) (k : ℕ) (side : Side) : Option Sys :=
  match s.pipes[k]? with
  | none => some s
  | some c => (s.setPipe k { c with pipe := c.pipe.close side }).wakePipe c.id

/-- Drops a reference, the ones in `rest` being still there. -/
def dropFile (s : Sys) (rest : List FileRef) : FileRef → Option Sys
  | .other _ => some s
  | .pipe k side => if .pipe k side ∈ rest ∨ s.held (.pipe k side) = true then some s
      else s.closeEnd k side

/-- Drops references, one after the other. -/
def dropAll : List FileRef → Sys → Option Sys
  | [], s => some s
  | f :: rest, s => (s.dropFile rest f).bind (dropAll rest)

/-- Closes an fd. -/
def close (s : Sys) (p : Process Res) (fd : ℕ) : Option Sys :=
  match p.res.fds.remove fd with
  | .error _ => some s
  | .ok (file, fds) => dropAll [file] (s.setRes { p.res with fds := fds })

/-! ### Making a pipe -/

/-- Puts both ends of a new pipe in `t`, or neither. -/
def insertEnds (t : FdTable FileRef) (read write : FileRef) :
    Except Errno (ℕ × ℕ) × FdTable FileRef :=
  match t.insert read with
  | .error e => (.error e, t)
  | .ok (r, t₁) =>
    match t₁.insert write with
    | .ok (w, t₂) => (.ok (r, w), t₂)
    | .error e =>
      match t₁.remove r with
      | .ok (_, t₂) => (.error e, t₂)
      | .error _ => (.error e, t₁)

/-- Tells the program the fds of its new pipe. -/
def tellFds (s : Sys) (r : Res) (u : UserSlice) : Except Errno (ℕ × ℕ) → Sys
  | .error _ => s
  | .ok (a, b) =>
    match r.mem.write u 0 (u32Bytes a ++ u32Bytes b) with
    | .error _ => s
    | .ok mem => s.setRes { r with mem := mem }

/-- The pipe is made, and its ends go into the fds or are dropped. -/
def placePipe (s : Sys) (p : Process Res) (u : UserSlice) (id : ℕ)
    (memory : Block size) : Option Sys :=
  let k := s.pipes.length
  let ends := insertEnds p.res.fds (.pipe k .read) (.pipe k .write)
  let r := { p.res with fds := ends.2 }
  let made : Sys := { s with pipes := s.pipes ++ [⟨id, .new memory⟩] }
  (dropAll [.pipe k .read, .pipe k .write] (made.setRes r)).map fun s => s.tellFds r u ends.1

/-- **Makes a pipe** and tells the program its two fds. -/
def newPipe (s : Sys) (p : Process Res) (addr id : ℕ) (memory : Option (Block size)) : Option Sys :=
  match UserSlice.new addr 8 with
  | .error _ => some s
  | .ok u =>
    match p.res.mem.checkWritable u, memory with
    | .ok (), some memory =>
      if fdSlots - p.res.fds.openCount < 2 then some s else s.placePipe p u id memory
    | _, _ => some s

/-! ### Reading and writing -/

/-- Where a process is that waits in `call`. -/
def waiting (call : Side) (k : ℕ) (u : UserSlice) (chunk : Bytes) : Phase :=
  match call with
  | .read => .reading k u
  | .write => .writing k u chunk

/-- Writes back what a stretch did to the pipe and to the process, and wakes those who wait on the
pipe if the stretch did. -/
def writeBack (s : Sys) (k : ℕ) (c : Channel) (w : Work) (r : Res) : Option Sys :=
  let s := (s.setPipe k { c with pipe := w.pipe }).setRes r
  if w.woke then s.wakePipe c.id else some s

/-- The running process blocks on the pipe at `id`, and another one runs. -/
def sleepOn (s : Sys) (id : ℕ) : Option Sys :=
  (s.table.block (.pipe id)).schedule.map fun r => { s with table := r.2 }

/-- **A stretch of a call** on the pipe `k`, of the running process `p`. A process that is
killed does not wait: its call answers `EINTR`. -/
def stretch (s : Sys) (p : Process Res) (call : Side) (k : ℕ) (u : UserSlice)
    (f : Work → Stop × Work) :
    Option (Sys × Option Event) :=
  match s.pipes[k]? with
  | none => some (s, none)
  | some c =>
    let (stop, w) := f ⟨c.pipe, p.res.mem, false⟩
    let answer (r : Except Errno ℕ) : Option (Sys × Option Event) :=
      (s.writeBack k c w ⟨p.res.fds, w.mem, .user⟩).map fun s => (s, some ⟨call, k, u, r, w.mem⟩)
    match stop with
    | .returns r => answer r
    | .waits chunk =>
      if p.killed.isSome then answer (.error .EINTR)
      else
        (s.writeBack k c w ⟨p.res.fds, w.mem, waiting call k u chunk⟩).bind fun s =>
          (s.sleepOn c.id).map fun s => (s, none)

/-- **Reads** from a pipe. -/
def readCall (s : Sys) (p : Process Res) (fd addr len : ℕ) : Option (Sys × Option Event) :=
  match p.res.fds.get fd with
  | .ok (.pipe k side) => s.stretch p .read k ⟨addr, min len size⟩ (Pipes.read side addr len)
  | _ => some (s, none)

/-- **Writes** to a pipe. -/
def writeCall (s : Sys) (p : Process Res) (fd addr len : ℕ) : Option (Sys × Option Event) :=
  match p.res.fds.get fd with
  | .ok (.pipe k side) => s.stretch p .write k ⟨addr, len⟩ (Pipes.write side addr len)
  | _ => some (s, none)

/-- A process that was woken goes on where it waited. -/
def resume (s : Sys) (p : Process Res) : Option (Sys × Option Event) :=
  match p.res.phase with
  | .user => some (s, none)
  | .reading k u => s.stretch p .read k u (readFrom u u.len 0)
  | .writing k u chunk => s.stretch p .write k u (writeAgain u chunk)

/-! ### Starting and ending -/

/-- **Starts a child**; what was made of its fds is dropped if it does not start. -/
def spawn (s : Sys) (p : Process Res) (maps : List FdMap) (group : Group) (name : String)
    (image : Option UserMemory) :
    Option Sys :=
  match p.res.fds.forChild maps with
  | .error _ => some s
  | .ok fds =>
    match image with
    | none => dropAll fds.files s
    | some mem =>
      (s.table.insert p.pid group name ⟨fds, mem, .user⟩).bind fun r =>
        match r.1 with
        | .ok _ => some { s with table := r.2 }
        | .error _ => dropAll fds.files { s with table := r.2 }

/-- No memory at all. -/
def noMemory : UserMemory := ⟨fun _ => none, fun _ => 0⟩

/-- **The running process ends**: its fds are taken, it is a zombie, then they are dropped, and
another process runs. -/
def exit (s : Sys) (p : Process Res) (status : WaitStatus) : Option Sys := do
  let taken := s.setRes ⟨.new, noMemory, .user⟩
  let t ← taken.table.endProc p.pid status
  let s ← dropAll p.res.fds.files { taken with table := t }
  let r ← s.table.schedule
  some { s with table := r.2 }

/-! ### Steps -/

/-- What the running process does in its program. -/
def act (s : Sys) (p : Process Res) : Action → Option (Sys × Option Event)
  | .pipe addr id memory => (s.newPipe p addr id memory).map fun s => (s, none)
  | .close fd => (s.close p fd).map fun s => (s, none)
  | .read fd addr len => s.readCall p fd addr len
  | .write fd addr len => s.writeCall p fd addr len
  | .spawn maps group name image => (s.spawn p maps group name image).map fun s => (s, none)
  | .openFile n =>
    match p.res.fds.insert (.other n) with
    | .ok (_, fds) => some (s.setRes { p.res with fds := fds }, none)
    | .error _ => some (s, none)
  | .compute mem => some (s.setRes { p.res with mem := mem }, none)
  | .exit status => (s.exit p status).map fun s => (s, none)
  | .resume => some (s, none)
  | .table _ => some (s, none)

/-- A process blocks only itself, and only outside the calls on a pipe. -/
def mayBlock (s : Sys) : Op Res → Bool
  | .block _ => s.running.any fun p => match p.res.phase with
    | .user => true
    | _ => false
  | _ => true

/-- A call on the table of the rest of the kernel, if it can be made. -/
def tableCall (s : Sys) (op : Op Res) : Option Sys :=
  if Table.elsewhere op && s.mayBlock op then (s.table.step op).map fun r =>
    { s with table := r.2 } else some s

/-- **One step.** A process that waited in a call on a pipe goes on with it, whatever it would
do next, and what cannot happen now does nothing. -/
def step (s : Sys) : Action → Option (Sys × Option Event)
  | .table op => (s.tableCall op).map fun s => (s, none)
  | a =>
    match s.running with
    | none => some (s, none)
    | some p =>
      match p.res.phase with
      | .user => s.act p a
      | _ => s.resume p

/-- The steps of a run one after the other, and the answers there were. -/
def run : List Action → Sys → Option (Sys × List Event)
  | [], s => some (s, [])
  | a :: as, s => do
    let (s, e) ← s.step a
    let (s, es) ← run as s
    some (s, e.toList ++ es)

/-- **The system at the start**: process 1, with the console as its fds 0, 1 and 2. -/
def boot (mem : UserMemory) : Option Sys :=
  (Table.new.insert 0 .new "init" ⟨.console (.other 0), mem, .user⟩).map fun r => ⟨r.2, []⟩

end Sys

end RelayOs.Pipes
