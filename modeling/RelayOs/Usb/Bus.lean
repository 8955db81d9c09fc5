import RelayOs.Lib.Fields
import RelayOs.Lib.Trace

/-!
# The bus as a storage driver sees it

A class driver reaches its device through a host controller: control requests, bulk
transfers that are waited for, and halt recovery. A mass-storage driver sends two kinds of
things on bulk OUT – command block wrappers and data – and wants two kinds of things from
bulk IN – data and status wrappers. On the wire they are byte strings like any others; the
requests here keep apart which is which, so that "the next wrapper" means something even if
the data of a write look like one.
-/

namespace RelayOs.Usb

/-- Why a command failed: the sense key and additional sense code and qualifier. -/
structure Sense where
  key : UInt8
  asc : UInt8
  ascq : UInt8
  deriving DecidableEq

/-- **What can go wrong** with a device or its controller. -/
inductive UsbError
  | timeout
  | stall
  | transfer (code : UInt8)
  | command (code : UInt8)
  | noMemory
  | notResponding
  | unsupported (what : String)
  | badDescriptor (what : String)
  | disconnected
  | unstable
  | controllerDead
  | protocol (what : String)
  | sense (s : Sense)
  deriving DecidableEq

/-- The device or the controller is gone: nothing more is tried. -/
def isFatal : UsbError → Bool
  | .disconnected => true
  | .controllerDead => true
  | _ => false

/-- The setup packet of a control transfer. -/
structure Setup where
  requestType : ℕ
  request : ℕ
  value : ℕ
  index : ℕ
  length : ℕ
  deriving DecidableEq

/-- The bit of a class request. -/
def typeClass : ℕ := 0x20

/-- The bit of a request to an interface. -/
def recipientInterface : ℕ := 0x01

/-- The largest bulk transfer. -/
def maxBulk : ℕ := 64 * 1024

/-! ### Wrappers -/

/-- The length of a command wrapper. -/
def cbwLen : ℕ := 31

/-- The length of a status wrapper. -/
def cswLen : ℕ := 13

/-- What a status wrapper starts with. -/
def cswSignature : ℕ := 0x53425355

/-- **A command block wrapper** for LUN 0. -/
structure Cbw where
  tag : ℕ
  dataLength : ℕ
  dirIn : Bool
  cdb : Bytes
  deriving DecidableEq

/-- How a command ended. -/
inductive CswStatus
  | passed
  | failed
  | phaseError
  deriving DecidableEq

/-- **A command status wrapper** that passed every check. -/
structure Csw where
  tag : ℕ
  residue : ℕ
  status : CswStatus
  deriving DecidableEq

/-- The status a wrapper's last byte stands for. -/
def CswStatus.ofByte (b : UInt8) : Option CswStatus :=
  if b = 0 then some .passed
  else if b = 1 then some .failed
  else if b = 2 then some .phaseError
  else none

/-- Checks what the device sent for the wrapper with `expectedTag` and `dataLength`. -/
def Csw.parse (b : Bytes) (expectedTag dataLength : ℕ) : Except UsbError Csw :=
  if b.length ≠ cswLen then .error (.protocol "CSW not 13 bytes")
  else if u32At b 0 ≠ cswSignature then .error (.protocol "bad CSW signature")
  else if u32At b 4 ≠ expectedTag then .error (.protocol "CSW tag does not match its CBW")
  else match CswStatus.ofByte (b.getD 12 0) with
    | none => .error (.protocol "bad CSW status")
    | some status =>
      if status ≠ .phaseError ∧ u32At b 8 > dataLength then
        .error (.protocol "CSW residue over the data length")
      else .ok ⟨u32At b 4, u32At b 8, status⟩

/-! ### Requests -/

/-- What is sent on bulk OUT. -/
inductive Sent
  | wrapper (cbw : Cbw)
  | data (bytes : Bytes)

/-- What is wanted from bulk IN. -/
inductive Wanted
  | data (len : ℕ)
  | status

/-- The length of the buffer. -/
def Wanted.len : Wanted → ℕ
  | .data len => len
  | .status => cswLen

/-- **What a driver asks of the bus.** -/
inductive BusRequest
  | control (slot : ℕ) (setup : Setup)
  | bulkIn (slot endpoint : ℕ) (wanted : Wanted)
  | bulkOut (slot endpoint : ℕ) (sent : Sent)
  | clearHalt (slot endpoint : ℕ)

/-- A transfer gives the number of bytes it moved; one into a buffer, what the buffer holds
then too. -/
def BusRequest.Reply : BusRequest → Type
  | .control _ _ => Except UsbError ℕ
  | .bulkIn _ _ wanted => Except UsbError ℕ × Block wanted.len
  | .bulkOut _ _ _ => Except UsbError ℕ
  | .clearHalt _ _ => Except UsbError Unit

/-- Requests of the bus. -/
def bus : Signature := ⟨BusRequest, BusRequest.Reply⟩

/-- The error of a result. -/
def errorOf {α : Type} : Except UsbError α → Option UsbError
  | .ok _ => none
  | .error e => some e

/-- The error a request was answered with. -/
def BusRequest.failure : (r : BusRequest) → r.Reply → Option UsbError
  | .control _ _, x => errorOf x
  | .bulkIn _ _ _, x => errorOf x.1
  | .bulkOut _ _ _, x => errorOf x
  | .clearHalt _ _, x => errorOf x

end RelayOs.Usb
