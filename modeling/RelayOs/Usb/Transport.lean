import RelayOs.Usb.Bus

/-!
# Bulk-only transport

One SCSI command over the bulk pipes: the command block wrapper, the data phase, the status
wrapper, and the recovery when one of them goes wrong. The model follows the source function
by function, with the log lines left out. The transport's own state is the tag of the next
wrapper, which every exchange takes one of.
-/

namespace RelayOs.Usb

open Prog

/-! ### Sense data -/

/-- How much sense data is asked for. -/
def senseLen : ℕ := 18

/-- The sense key of a command the device does not know. -/
def illegalRequest : UInt8 := 0x05

/-- REQUEST SENSE, fixed format. -/
def requestSenseCdb : Bytes := [0x03, 0, 0, 0, UInt8.ofNat senseLen, 0]

/-- Sense data in fixed or in descriptor format. -/
def Sense.parse (b : Bytes) : Except UsbError Sense :=
  match b.head?.map (· &&& 0x7F) with
  | none => .error (.protocol "sense data too short")
  | some code =>
    if code = 0x70 ∨ code = 0x71 then
      if b.length < 3 then .error (.protocol "sense data too short")
      else
        -- byte 7 counts the bytes after it
        let valid := min b.length (8 + (b.getD 7 0).toNat)
        let byte := fun i => if i < valid then b.getD i 0 else 0
        .ok ⟨b.getD 2 0 &&& 0x0F, byte 12, byte 13⟩
    else if code = 0x72 ∨ code = 0x73 then
      if b.length < 4 then .error (.protocol "sense data too short")
      else .ok ⟨b.getD 1 0 &&& 0x0F, b.getD 2 0, b.getD 3 0⟩
    else .error (.protocol "unknown sense data format")

/-! ### The transport -/

/-- A command's data phase. -/
inductive Data
  | none
  | input (len : ℕ)
  | output (bytes : Bytes)

/-- How many bytes are to move. -/
def Data.len : Data → ℕ
  | .none => 0
  | .input len => len
  | .output bytes => bytes.length

/-- The data come from the device. -/
def Data.isInput : Data → Bool
  | .input _ => true
  | _ => false

/-- How much of its data phase a command needs. -/
inductive Need
  | upTo
  | all
  deriving DecidableEq

/-- How often a command is tried. -/
def maxTries : ℕ := 3

/-- The bulk pipes of one mass-storage interface and the next tag. -/
structure Transport where
  slot : ℕ
  interface : ℕ
  bulkIn : ℕ
  bulkOut : ℕ
  nextTag : ℕ

/-- The transport of a device that has just been found. -/
def Transport.new (slot interface bulkIn bulkOut : ℕ) : Transport :=
  ⟨slot, interface, bulkIn, bulkOut, 1⟩

/-- A step that asks the bus. -/
abbrev Step := ExceptT UsbError (Prog bus)

/-- A call of the bus whose error is the caller's. -/
def call {α : Type} (p : Prog bus (Except UsbError α)) : Step α := ExceptT.mk p

namespace Transport

variable (t : Transport)

/-- The transport once the next tag is taken. -/
def advance : Transport := { t with nextTag := (t.nextTag + 1) % 2 ^ 32 }

/-- The wrapper of a command, with the next tag. -/
def cbw (cdb : Bytes) (data : Data) : Cbw := ⟨t.nextTag, data.len, data.isInput, cdb⟩

/-- Clears a halted endpoint. -/
def clearHalt (endpoint : ℕ) : Step Unit := call (request (S := bus) (.clearHalt t.slot endpoint))

/-- The bytes a data phase moved; a stall ends it early and is cleared. -/
def moved (endpoint : ℕ) : Except UsbError ℕ → Step ℕ
  | .ok n => return n
  | .error .stall => do
    t.clearHalt endpoint
    return 0
  | .error e => throw e

/-- The bytes moved, and what is in the buffer then. -/
def dataPhase : Data → Step (ℕ × Bytes)
  | .none => return (0, [])
  | .input len => do
    let r ← liftM (request (S := bus) (.bulkIn t.slot t.bulkIn (.data len)))
    let n ← t.moved t.bulkIn r.1
    return (n, r.2.1)
  | .output bytes => do
    let r ← liftM (request (S := bus) (.bulkOut t.slot t.bulkOut (.data bytes)))
    let n ← t.moved t.bulkOut r
    return (n, [])

/-- Asks for the status wrapper. -/
def statusIn : Prog bus (Except UsbError ℕ × Block cswLen) :=
  request (S := bus) (.bulkIn t.slot t.bulkIn .status)

/-- Checks a status wrapper of `n` bytes. -/
def parseCsw (tag length n : ℕ) (raw : Bytes) : Step Csw :=
  match Csw.parse (raw.take (min n cswLen)) tag length with
  | .ok csw => return csw
  | .error e => throw e

/-- The second read of the status wrapper, after a stall. -/
def rereadCsw (tag length : ℕ) : Step Csw := do
  t.clearHalt t.bulkIn
  let r ← liftM t.statusIn
  match r.1 with
  | .error e => throw e
  | .ok n => parseCsw tag length n r.2.1

/-- Reads and checks the status wrapper. A stall is cleared and the wrapper read once more. -/
def readCsw (tag length : ℕ) : Step Csw := do
  let r ← liftM t.statusIn
  match r.1 with
  | .error .stall => t.rereadCsw tag length
  | .error e => throw e
  | .ok n => parseCsw tag length n r.2.1

/-- Sends the wrapper, which the device has to take whole. -/
def sendCbw (cbw : Cbw) : Step Unit := do
  let n ← call (request (S := bus) (.bulkOut t.slot t.bulkOut (.wrapper cbw)))
  if n = cbwLen then return () else throw (.protocol "CBW not taken whole")

/-- **The exchange**: command wrapper, data phase, status wrapper. It takes a tag, also if it
fails. -/
def exchange (cdb : Bytes) (data : Data) : Step ((ℕ × Bytes) × Csw) := do
  t.sendCbw (t.cbw cdb data)
  let moved ← t.dataPhase data
  let csw ← t.readCsw t.nextTag data.len
  return (moved, csw)

/-- Bulk-only mass storage reset. -/
def resetSetup : Setup := ⟨typeClass ||| recipientInterface, 0xFF, 0, t.interface, 0⟩

/-- One step of a recovery: the reset, or the halt of an endpoint. -/
def recoverStep : Option ℕ → Prog bus (Except UsbError Unit)
  | none => (request (S := bus) (.control t.slot t.resetSetup)).bind fun r =>
      ret (r.map fun _ => ())
  | some endpoint => request (S := bus) (.clearHalt t.slot endpoint)

/-- The steps of a recovery, unless the device is gone. -/
def recoverFrom (cause : UsbError) : List (Option ℕ) → Prog bus UsbError
  | [] => ret cause
  | step :: steps => (t.recoverStep step).bind fun
    | .ok () => recoverFrom cause steps
    | .error e => if isFatal e then ret e else recoverFrom cause steps

/-- **Reset recovery** after `cause`, unless the device is gone. -/
def recover (cause : UsbError) : Prog bus UsbError :=
  if isFatal cause then ret cause else t.recoverFrom cause [none, some t.bulkIn, some t.bulkOut]

/-- REQUEST SENSE after a failed command: the error the command fails with. -/
def requestSense : Prog bus UsbError :=
  (t.exchange requestSenseCdb (.input senseLen)).run.bind fun
    | .error e => t.recover e
    | .ok (moved, csw) => match csw.status with
      | .passed => match Sense.parse (moved.2.take (min moved.1 senseLen)) with
        | .ok sense => ret (.sense sense)
        | .error e => ret e
      | .failed => ret (.protocol "REQUEST SENSE failed")
      | .phaseError => t.recover (.protocol "phase error")

/-- What a command comes to, with the transport it leaves. -/
abbrev Outcome := Except UsbError (ℕ × Bytes) × Transport

/-- What an exchange comes to. -/
def finish (length : ℕ) (need : Need) : Except UsbError ((ℕ × Bytes) × Csw) → Prog bus Outcome
  | .error e => (t.advance.recover e).bind fun e => ret (.error e, t.advance)
  | .ok (moved, csw) => match csw.status with
    | .passed =>
      if need = .all ∧ moved.1 ≠ length then ret (.error (.protocol "short data phase"), t.advance)
      else if need = .all ∧ csw.residue ≠ 0 then ret (.error (.protocol "data residue"), t.advance)
      else ret (.ok moved, t.advance)
    | .failed => t.advance.requestSense.bind fun e => ret (.error e, t.advance.advance)
    | .phaseError => (t.advance.recover (.protocol "phase error")).bind fun e =>
        ret (.error e, t.advance)

/-- **Runs a command once.** -/
def execute (cdb : Bytes) (data : Data) (need : Need) : Prog bus Outcome :=
  if data.len > maxBulk then ret (.error (.unsupported "data phase over 64 KiB"), t)
  else (t.exchange cdb data).run.bind (t.finish data.len need)

/-- The command itself is wrong: trying again does not help. -/
def isIllegal : UsbError → Bool
  | .sense s => s.key = illegalRequest
  | _ => false

end Transport

/-- The tries of a command from the one with number `tries` on. -/
def Transport.commandFrom (cdb : Bytes) (data : Data) (need : Need) (tries : ℕ) (t : Transport) :
    Prog bus Transport.Outcome :=
  (t.execute cdb data need).bind fun
    | (.ok moved, t') => ret (.ok moved, t')
    | (.error e, t') =>
      if isFatal e then ret (.error e, t')
      else if h : Transport.isIllegal e ∨ tries ≥ maxTries then ret (.error e, t')
      else commandFrom cdb data need (tries + 1) t'
termination_by maxTries - tries
decreasing_by omega

/-- **Runs a command until it succeeds**, `maxTries` times at most. -/
def Transport.command (t : Transport) (cdb : Bytes) (data : Data) (need : Need) :
    Prog bus Transport.Outcome :=
  t.commandFrom cdb data need 1

end RelayOs.Usb
