import FlipperZero.Lib.Machine

/-! # The virtual COM port

A writer cuts its string into batches and takes a binary semaphore before each. The
USB interrupts call back when the interface is initialised and deinitialised, when the
control line changes and when a transmission is complete, and release the semaphore.
-/

namespace FlipperZero.Firmware.Vcp

open Lib

inductive UsbdStatus where
  | ok
  | busy
  | fail
  deriving DecidableEq, Repr

/-- The CDC class of the USB library, as far as the port uses it. `H` is the class data. -/
structure UsbdCdc (H : Type) where
  /-- The class data of an interface that was just initialised. -/
  init : H
  txState : H → ℕ
  txLength : H → ℕ
  setTxBuffer : H → ℕ → H
  transmitPacket : H → UsbdStatus × H
  /-- The class data after the last packet of a transmission. -/
  dataIn : H → H
  txState_init : txState init = 0
  txState_setTxBuffer : ∀ h n, txState (setTxBuffer h n) = txState h
  txLength_setTxBuffer : ∀ h n, txLength (setTxBuffer h n) = n
  transmitPacket_idle : ∀ h, txState h = 0 →
    (transmitPacket h).1 = .ok ∧ txState (transmitPacket h).2 ≠ 0

/-- `CDC_DATA_HS_MAX_PACKET_SIZE` of the USB library. -/
def appTxDataSize : ℕ := 512

def apiHalVcpRxBufferSize : ℕ := 600

def asciiSoh : UInt8 := 0x01
def asciiEot : UInt8 := 0x04

/-- Where the writer is in `api_hal_vcp_tx`, with what is left of its string. -/
inductive WriterPc where
  | returned (buffer : List UInt8)
  | check (buffer : List UInt8)
  | acquire (buffer : List UInt8)
  /-- At the start of `CDC_Transmit_FS`; the next three are inside it. -/
  | transmit (buffer : List UInt8)
  | memcpy (buffer : List UInt8)
  | setTxBuffer (buffer : List UInt8)
  | transmitPacket (buffer : List UInt8)
  | delay (buffer : List UInt8)
  deriving DecidableEq, Repr

def WriterPc.buffer : WriterPc → List UInt8
  | .returned buffer | .check buffer | .acquire buffer | .transmit buffer | .memcpy buffer
  | .setTxBuffer buffer | .transmitPacket buffer | .delay buffer => buffer

/-- The writer is inside `CDC_Transmit_FS`. -/
def WriterPc.Transmits : WriterPc → Prop
  | .transmit _ | .memcpy _ | .setTxBuffer _ | .transmitPacket _ => True
  | _ => False

/-- The writer has found the port alive and has not yet returned from `CDC_Transmit_FS`. -/
def WriterPc.Sends : WriterPc → Prop
  | .acquire _ => True
  | pc => pc.Transmits

instance : (pc : WriterPc) → Decidable pc.Transmits
  | .transmit _ | .memcpy _ | .setTxBuffer _ | .transmitPacket _ => .isTrue trivial
  | .returned _ | .check _ | .acquire _ | .delay _ => .isFalse id

instance : (pc : WriterPc) → Decidable pc.Sends
  | .acquire _ | .transmit _ | .memcpy _ | .setTxBuffer _ | .transmitPacket _ => .isTrue trivial
  | .returned _ | .check _ | .delay _ => .isFalse id

structure State (H : Type) where
  rxStream : List UInt8
  txSemaphore : Bool
  alive : Bool
  underrun : Bool
  /-- `hUsbDeviceFS.pClassData`. -/
  classData : Option H
  userTxBuffer : List UInt8
  writer : WriterPc
  /-- The string of the call. -/
  string : List UInt8
  /-- The packets of the call that were accepted. -/
  accepted : List (List UInt8)
  /-- The port has been alive since the call. -/
  stayedAlive : Bool

inductive Label where
  | tx (buffer : List UInt8)
  | writer
  | init
  | deInit
  | controlLine (state : BitVec 8)
  | transmitCplt

variable {H : Type}

/-- After `api_hal_vcp_init`, before the host has configured the device. -/
def State.init : State H where
  rxStream := []
  txSemaphore := true
  alive := false
  underrun := false
  classData := none
  userTxBuffer := []
  writer := .returned []
  string := []
  accepted := []
  stayedAlive := false

def rxCallback (s : State H) (byte : UInt8) : State H :=
  if s.rxStream.length < apiHalVcpRxBufferSize then { s with rxStream := s.rxStream ++ [byte] }
  else { s with underrun := true }

def setAlive (s : State H) (alive : Bool) : State H :=
  { s with alive := alive, stayedAlive := s.stayedAlive && alive }

def osSemaphoreRelease (s : State H) : State H := { s with txSemaphore := true }

def vcpControlLine (s : State H) (state : BitVec 8) : State H :=
  osSemaphoreRelease <|
    if state &&& 0b10#8 ≠ 0 then
      if s.alive then s else rxCallback (setAlive s true) asciiSoh
    else
      if s.alive then setAlive (rxCallback s asciiEot) false else s

def batchSize (buffer : List UInt8) : ℕ := min buffer.length appTxDataSize

/-- A step of `api_hal_vcp_tx` and of `CDC_Transmit_FS` in it. -/
def writerStep (cdc : UsbdCdc H) (s : State H) : Option (State H) :=
  match s.writer with
  | .returned _ => none
  | .check buffer => some
    { s with writer := if 0 < buffer.length ∧ s.alive then .acquire buffer else .returned buffer }
  | .acquire buffer =>
    if s.txSemaphore then some { s with txSemaphore := false, writer := .transmit buffer }
    else none
  | .transmit buffer => s.classData.map fun hcdc =>
    { s with writer := if cdc.txState hcdc ≠ 0 then .delay buffer else .memcpy buffer }
  | .memcpy buffer => some
    { s with
      userTxBuffer := buffer.take (batchSize buffer) ++ s.userTxBuffer.drop (batchSize buffer)
      writer := .setTxBuffer buffer }
  | .setTxBuffer buffer => s.classData.map fun hcdc =>
    { s with
      classData := some (cdc.setTxBuffer hcdc (batchSize buffer))
      writer := .transmitPacket buffer }
  | .transmitPacket buffer => s.classData.map fun hcdc =>
    let packet := s.userTxBuffer.take (cdc.txLength hcdc)
    match cdc.transmitPacket hcdc with
    | (.ok, hcdc) =>
      { s with
        classData := some hcdc
        accepted := s.accepted ++ [packet]
        writer := .check (buffer.drop (batchSize buffer)) }
    | (_, hcdc) => { s with classData := some hcdc, writer := .delay buffer }
  | .delay buffer => some { s with writer := .check buffer }

def next (cdc : UsbdCdc H) (s : State H) : Label → Option (State H)
  | .tx buffer =>
    match s.writer with
    | .returned _ => some
      { s with writer := .check buffer, string := buffer, accepted := [], stayedAlive := s.alive }
    | _ => none
  | .writer => writerStep cdc s
  | .init =>
    match s.classData with
    | none => some (osSemaphoreRelease { s with classData := some cdc.init })
    | some _ => none
  | .deInit => s.classData.map fun _ =>
    { osSemaphoreRelease (setAlive s false) with classData := none }
  | .controlLine state => some (vcpControlLine s state)
  | .transmitCplt => s.classData.bind fun hcdc =>
    if cdc.txState hcdc ≠ 0 then
      some (osSemaphoreRelease { s with classData := some (cdc.dataIn hcdc) })
    else none

def machine (cdc : UsbdCdc H) : Machine (State H) Label where
  init := .init
  next := next cdc

def InFlight (cdc : UsbdCdc H) (s : State H) : Prop :=
  ∃ hcdc, s.classData = some hcdc ∧ cdc.txState hcdc ≠ 0

/-- What the port promises about a call of `api_hal_vcp_tx`. -/
structure Served (cdc : UsbdCdc H) (s : State H) : Prop where
  initialised : s.writer.Transmits → s.classData ≠ none
  consecutive : s.accepted.flatten <+: s.string
  covered : ∀ buffer, s.writer = .returned buffer → s.stayedAlive = true →
    s.accepted.flatten = s.string
  waits : ∀ buffer, s.writer = .acquire buffer → s.txSemaphore = false → InFlight cdc s

/-- The interface is not deinitialised between the check that the port is alive and the end of
`CDC_Transmit_FS`, and the control line is not raised before the interface is initialised. -/
def Orderly (s : State H) : Label → Prop
  | .deInit => ¬ s.writer.Sends
  | .controlLine state => state &&& 0b10#8 ≠ 0 → s.classData ≠ none
  | _ => True

end FlipperZero.Firmware.Vcp
