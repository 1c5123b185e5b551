import FlipperZero.Firmware.KeyWriter
import FlipperZero.OneWire.Slave

/-! # The OneWire slave and its critical section

The interrupt of the rising edge that ends a reset pulse answers the master in one critical
section. The slave switches its pin by `hal_gpio_init` after it has disabled interrupts, and that
call enables them again, so the whole answer runs with interrupts enabled.
-/

namespace FlipperZero.Firmware

open Lib

open OneWire (Rom)

inductive OneWireSlaveError where
  | noError
  | veryLongReset
  | veryShortReset
  | presenceLowOnLine
  | awaitTimeslotTimeoutHigh
  | incorrectOneWireCmd
  | firstBitOfByteTimeout
  | resetInProgress
deriving DecidableEq, Repr

/-- A slave with a device of this identifier attached, with the pulse start of its interrupt and
the results that its callback was given, where it has one. -/
structure OneWireSlave where
  device : Option Rom
  error : OneWireSlaveError
  pulseStart : UInt32
  hasResultCb : Bool
  results : List Bool

section Slave

open OneWire

def resetMin : UInt32 := 270
def resetMax : UInt32 := 960
def instructionsPerUs : UInt32 := 64

def pinSetFloat : Hal Unit := halGpioWrite .oneWire true

def pinSetLow : Hal Unit := halGpioWrite .oneWire false

def pinInitInterruptInIsrCtx : Hal Unit := halGpioInit .oneWire .interruptRiseFall

def pinInitOpendrainInIsrCtx : Hal Unit := halGpioInit .oneWire .outputOpenDrain

/-- The loop of `wait_while_gpio_is`, with time for so many turns. -/
def awaitChange (pinValue : Bool) (start timeTicks : UInt32) : (turns : ℕ) → Hal UInt32
  | 0 => pure 0
  | turns + 1 => do
    let timeCaptured ← cyccnt
    let level ← halGpioRead
    if level ≠ pinValue then pure ((timeTicks - (timeCaptured - start)) / instructionsPerUs)
    else
      if timeCaptured - start < timeTicks then awaitChange pinValue start timeTicks turns
      else pure 0

def waitWhileGpioIs (time : ℕ) (pinValue : Bool) : Hal UInt32 := do
  let start ← cyccnt
  let turns ← waitTurns
  awaitChange pinValue start (UInt32.ofNat time * instructionsPerUs) turns

def showPresence (error : OneWireSlaveError) : Hal (Bool × OneWireSlaveError) := do
  let _ ← waitWhileGpioIs OneWireEmulateTiming.presenceTimeout true
  pinSetLow
  delayUs OneWireEmulateTiming.presenceMin
  pinSetFloat
  let waitLowTime := OneWireEmulateTiming.presenceMax - OneWireEmulateTiming.presenceMin
  let left ← waitWhileGpioIs waitLowTime false
  pure (if left = 0 then (false, .presenceLowOnLine) else (true, error))

def receiveBit (error : OneWireSlaveError) : Hal (Bool × OneWireSlaveError) := do
  let low ← waitWhileGpioIs OneWireEmulateTiming.slotMax false
  if low = 0 then pure (false, .resetInProgress)
  else
    let high ← waitWhileGpioIs OneWireEmulateTiming.msgHighTimeout true
    if high = 0 then pure (false, .awaitTimeslotTimeoutHigh)
    else
      let time ← waitWhileGpioIs OneWireEmulateTiming.readMin false
      pure (decide (time > 0), error)

/-- The pulse of `send_bit`. -/
def holdLine (value : Bool) : Hal Unit := do
  if value then delayUs OneWireEmulateTiming.readMax
  else
    pinSetLow
    delayUs OneWireEmulateTiming.writeZero

def sendBit (value : Bool) (error : OneWireSlaveError) : Hal (Bool × OneWireSlaveError) := do
  let low ← waitWhileGpioIs OneWireEmulateTiming.slotMax false
  if low = 0 then pure (false, .resetInProgress)
  else
    let high ← waitWhileGpioIs OneWireEmulateTiming.msgHighTimeout true
    if high = 0 then pure (false, .awaitTimeslotTimeoutHigh)
    else
      holdLine value
      pinSetFloat
      pure (true, error)

/-- The bit loop of `send` for one byte, with `left` bits to come. -/
def sendBits (dataByte : BitVec 8) : (left : ℕ) → OneWireSlaveError → Hal (Bool × OneWireSlaveError)
  | 0, error => pure (true, error)
  | left + 1, error => do
    let sent ← sendBit (decide ((1#8 <<< (7 - left)) &&& dataByte ≠ 0)) error
    if sent.1 then sendBits dataByte left sent.2
    else
      pure (false, if left = 7 ∧ sent.2 = .awaitTimeslotTimeoutHigh then .firstBitOfByteTimeout
        else sent.2)

/-- The byte loop of `send`. -/
def sendBytes : List (BitVec 8) → OneWireSlaveError → Hal (Bool × OneWireSlaveError)
  | [], error => pure (true, error)
  | dataByte :: data, error => do
    let sent ← sendBits dataByte 8 error
    if sent.1 then sendBytes data sent.2 else pure sent

def send (data : List (BitVec 8)) (error : OneWireSlaveError) : Hal (Bool × OneWireSlaveError) := do
  pinSetFloat
  sendBytes data error

/-- The bit loop of `receive`, with `left` bits to come; no error stops it. -/
def receiveBits : (left : ℕ) → (value : BitVec 8) → OneWireSlaveError →
    Hal (BitVec 8 × OneWireSlaveError)
  | 0, value, error => pure (value, error)
  | left + 1, value, error => do
    let bit ← receiveBit error
    receiveBits left (if bit.1 then value ||| (1#8 <<< (7 - left)) else value) bit.2

def receive (error : OneWireSlaveError) : Hal (BitVec 8 × OneWireSlaveError) := do
  pinSetFloat
  receiveBits 8 0 error

/-- The loops of `cmd_search_rom` over the bits of the key. -/
def cmdSearchRom : List Bool → OneWireSlaveError → Hal OneWireSlaveError
  | [], error => pure error
  | bit :: key, error => do
    let sent ← sendBit bit error
    if sent.1 then
      let inverse ← sendBit (!bit) sent.2
      if inverse.1 then
        let received ← receiveBit inverse.2
        if received.2 ≠ .noError then pure received.2 else cmdSearchRom key received.2
      else pure inverse.2
    else pure sent.2

/-- The command switch of `receive_and_process_cmd`. -/
def processCmd (device : Rom) (cmd : BitVec 8) (error : OneWireSlaveError) :
    Hal (Bool × OneWireSlaveError) :=
  if cmd = 0xF0 then do
    let error ← cmdSearchRom device.key error
    pure (true, error)
  else if cmd = 0x0F ∨ cmd = 0x33 then do
    let sent ← send device.bytes.toList error
    pure (true, sent.2)
  else pure (false, .incorrectOneWireCmd)

def receiveAndProcessCmd (device : Rom) (error : OneWireSlaveError) :
    Hal (Bool × OneWireSlaveError) := do
  let cmd ← receive error
  if cmd.2 = .resetInProgress then pure (true, cmd.2)
  else
    if cmd.2 ≠ .noError then pure (false, cmd.2) else processCmd device cmd.1 cmd.2

/-- The part of `bus_start` between its switches of the pin. -/
def answerMaster (device : Rom) : Hal (Bool × OneWireSlaveError) := do
  let shown ← showPresence .noError
  if shown.1 then
    let processed ← receiveAndProcessCmd device shown.2
    pure (decide (processed.2 = .noError ∨ processed.2 = .incorrectOneWireCmd), processed.2)
  else pure (false, shown.2)

def busStart (s : OneWireSlave) : Hal (Bool × OneWireSlave) :=
  match s.device with
  | none => pure (false, s)
  | some device => do
    disableIrq .busStart
    pinInitOpendrainInIsrCtx
    let answer ← answerMaster device
    pinInitInterruptInIsrCtx
    enableIrq .busStart
    pure (answer.1, { s with error := answer.2 })

/-- The end of the interrupt of a reset pulse: the callback is given a result that is true. -/
def OneWireSlave.report (s : OneWireSlave) (result : Bool) : OneWireSlave :=
  if result = true ∧ s.hasResultCb = true then { s with results := s.results ++ [result] } else s

/-- The rising edge of `exti_callback`. -/
def endPulse (pulseLength : UInt32) (s : OneWireSlave) : Hal OneWireSlave :=
  if resetMin ≤ pulseLength then
    if pulseLength ≤ resetMax then do
      let answer ← busStart s
      pure (answer.2.report answer.1)
    else pure { s with error := .veryLongReset }
  else pure { s with error := .veryShortReset }

def extiCallback (s : OneWireSlave) : Hal OneWireSlave := do
  let inputState ← halGpioRead
  let now ← cyccnt
  if inputState then endPulse ((now - s.pulseStart) / instructionsPerUs) s
  else pure { s with pulseStart := now }

end Slave

section Calls

variable {error : OneWireSlaveError} {value : Bool} {device : Rom} {s : OneWireSlave}

theorem silent_waitWhileGpioIs {time : ℕ} : Emits (waitWhileGpioIs time value) [] := by
  have hturns (start timeTicks : UInt32) (turns : ℕ) :
      Emits (awaitChange value start timeTicks turns) [] := by
    induction turns with
    | zero => exact emits_pure _
    | succ turns ih =>
      refine emits_cyccnt.silent_bind fun _ => emits_halGpioRead.silent_bind fun _ => ?_
      exact (emits_pure _).ite (ih.ite (emits_pure _))
  exact emits_cyccnt.silent_bind fun _ => emits_waitTurns.silent_bind fun _ => hturns _ _ _

theorem silent_showPresence : Emits (showPresence error) [] := by
  apply Emits.silent_bind silent_waitWhileGpioIs
  intro _
  refine emits_halGpioWrite.silent_bind fun _ => emits_delayUs.silent_bind fun _ => ?_
  refine emits_halGpioWrite.silent_bind fun _ => Emits.silent_bind silent_waitWhileGpioIs fun _ => ?_
  exact emits_pure _

theorem silent_receiveBit : Emits (receiveBit error) [] := by
  apply Emits.silent_bind silent_waitWhileGpioIs
  intro _
  apply (emits_pure _).ite
  apply Emits.silent_bind silent_waitWhileGpioIs
  intro _
  apply (emits_pure _).ite
  exact Emits.silent_bind silent_waitWhileGpioIs fun _ => emits_pure _

theorem silent_holdLine : Emits (holdLine value) [] :=
  emits_delayUs.ite (emits_halGpioWrite.silent_bind fun _ => emits_delayUs)

theorem silent_sendBit : Emits (sendBit value error) [] := by
  apply Emits.silent_bind silent_waitWhileGpioIs
  intro _
  apply (emits_pure _).ite
  apply Emits.silent_bind silent_waitWhileGpioIs
  intro _
  apply (emits_pure _).ite
  refine Emits.silent_bind silent_holdLine fun _ => emits_halGpioWrite.silent_bind fun _ => ?_
  exact emits_pure _

theorem silent_sendBits {dataByte : BitVec 8} {left : ℕ} : Emits (sendBits dataByte left error) [] := by
  induction left generalizing error with
  | zero => exact emits_pure _
  | succ left ih => exact Emits.silent_bind silent_sendBit fun _ => ih.ite (emits_pure _)

theorem silent_send {data : List (BitVec 8)} : Emits (send data error) [] := by
  apply emits_halGpioWrite.silent_bind
  intro _
  induction data generalizing error with
  | nil => exact emits_pure _
  | cons dataByte data ih => exact Emits.silent_bind silent_sendBits fun _ => ih.ite (emits_pure _)

theorem silent_receive : Emits (receive error) [] := by
  have hbits (left : ℕ) : ∀ value error, Emits (receiveBits left value error) [] := by
    induction left with
    | zero => exact fun _ _ => emits_pure _
    | succ left ih => exact fun _ _ => Emits.silent_bind silent_receiveBit fun _ => ih _ _
  exact emits_halGpioWrite.silent_bind fun _ => hbits _ _ _

theorem silent_cmdSearchRom {key : List Bool} : Emits (cmdSearchRom key error) [] := by
  induction key generalizing error with
  | nil => exact emits_pure _
  | cons bit key ih =>
    refine Emits.silent_bind silent_sendBit fun _ => Emits.ite ?_ (emits_pure _)
    refine Emits.silent_bind silent_sendBit fun _ => Emits.ite ?_ (emits_pure _)
    exact Emits.silent_bind silent_receiveBit fun _ => (emits_pure _).ite ih

theorem silent_processCmd {cmd : BitVec 8} : Emits (processCmd device cmd error) [] := by
  apply Emits.ite
  · exact Emits.silent_bind silent_cmdSearchRom fun _ => emits_pure _
  · apply Emits.ite
    · exact Emits.silent_bind silent_send fun _ => emits_pure _
    · exact emits_pure _

theorem silent_answerMaster : Emits (answerMaster device) [] := by
  refine Emits.silent_bind silent_showPresence fun _ => Emits.ite ?_ (emits_pure _)
  refine Emits.silent_bind ?_ fun _ => emits_pure _
  apply Emits.silent_bind silent_receive
  intro _
  exact (emits_pure _).ite ((emits_pure _).ite silent_processCmd)

/-- The calls of `bus_start` with a device: those of both switches of the pin are in its section. -/
def busStartCalls : List (Irq IrqUser) :=
  Irq.disable .busStart :: (initCalls ++ (initCalls ++ [Irq.enable .busStart]))

theorem emits_busStart {device : Rom} (h : s.device = some device) :
    Emits (busStart s) busStartCalls := by
  simp only [busStart, h]
  refine (emits_disableIrq _).bind fun _ => emits_halGpioInit.bind fun _ => ?_
  refine Emits.silent_bind silent_answerMaster fun _ => emits_halGpioInit.bind fun _ => ?_
  exact (emits_enableIrq _).bind_silent fun _ => emits_pure _

theorem emits_busStart_none (h : s.device = none) : Emits (busStart s) [] := by
  simp only [busStart, h]
  exact emits_pure _

theorem logs_busStart : Logs (busStart s) := by
  cases h : s.device with
  | none => exact (emits_busStart_none h).logs
  | some device => exact (emits_busStart h).logs

end Calls

section Guards

variable {s : OneWireSlave} {c : Cpu IrqUser Pins}

theorem guards_busStart : Guards (busStart s) c ↔ s.device = none := by
  cases h : s.device with
  | none => exact iff_of_true (closed_nil.guards (emits_busStart_none h c)) rfl
  | some device =>
    rw [(emits_busStart h c).guards_iff]
    refine iff_of_false ?_ (Option.some_ne_none _)
    intro hkept
    exact absurd (hkept .busStart) (by decide)

theorem logs_endPulse {pulseLength : UInt32} : Logs (endPulse pulseLength s) := by
  apply Logs.ite
  · exact (Logs.bind logs_busStart fun _ => (emits_pure _).logs).ite (emits_pure _).logs
  · exact (emits_pure _).logs

theorem guards_endPulse {pulseLength : UInt32} :
    Guards (endPulse pulseLength s) c ↔
      (resetMin ≤ pulseLength → pulseLength ≤ resetMax → s.device = none) := by
  unfold endPulse
  split
  · next hmin =>
    split
    · next hmax =>
      rw [Logs.guards_bind_pure logs_busStart, guards_busStart, forall_prop_of_true hmin,
        forall_prop_of_true hmax]
    · next hmax => exact iff_of_true (closed_nil.guards (calls_pure _)) fun _ h => absurd h hmax
  · next hmin => exact iff_of_true (closed_nil.guards (calls_pure _)) fun h => absurd h hmin

/-- The length of the low pulse that a rising edge ends. -/
def OneWireSlave.pulseLength (s : OneWireSlave) (c : Cpu IrqUser Pins) : UInt32 :=
  (c.env.cycles 0 - s.pulseStart) / instructionsPerUs

/-- The interrupt finds the end of a low pulse of the length of a reset. -/
def OneWireSlave.EndsReset (s : OneWireSlave) (c : Cpu IrqUser Pins) : Prop :=
  c.env.levels 0 = true ∧ resetMin ≤ s.pulseLength c ∧ s.pulseLength c ≤ resetMax

theorem guards_extiCallback :
    Guards (extiCallback s) c ↔ (s.EndsReset c → s.device = none) := by
  have hedge (inputState : Bool) (now : UInt32) :
      Logs (if inputState then endPulse ((now - s.pulseStart) / instructionsPerUs) s
        else pure { s with pulseStart := now }) :=
    Logs.ite logs_endPulse (emits_pure _).logs
  unfold extiCallback OneWireSlave.EndsReset
  rw [closed_nil.guards_bind emits_halGpioRead fun _ =>
    emits_cyccnt.logs.bind fun _ => hedge _ _, closed_nil.guards_bind emits_cyccnt (hedge _)]
  change Guards (if c.env.levels 0 = true then endPulse (s.pulseLength c) s
    else pure { s with pulseStart := c.env.cycles 0 }) _ ↔ _
  split
  · next hlevel =>
    rw [guards_endPulse]
    constructor
    · rintro h ⟨_, hmin, hmax⟩
      exact h hmin hmax
    · rintro h hmin hmax
      exact h ⟨hlevel, hmin, hmax⟩
  · next hlevel => exact iff_of_true (closed_nil.guards (calls_pure _)) fun h => absurd h.1 hlevel

end Guards

/-- Interrupts stay disabled in the section of every comparison and of the first two attempts to
write, whatever the bus answers. They do not in that of `write_TM2004` for a Dallas key, so not in
a write that comes to it, nor in that of a slave with a device, so not in an interrupt that ends a
reset pulse. -/
theorem sections_guarded (key : IButtonKey) (s : OneWireSlave) (c : Cpu IrqUser Pins) :
    (Guards (compareKeyDs1990 key) c ∧ Guards (write1990_1 key) c ∧ Guards (write1990_2 key) c) ∧
    (Guards (writeTM2004 key) c ↔ key.type ≠ .keyDallas) ∧
    (Guards (KeyWriter.write key) c ↔ ¬KeyWriter.ReachesTM2004 key c) ∧
    (Guards (busStart s) c ↔ s.device = none) ∧
    (Guards (extiCallback s) c ↔ (s.EndsReset c → s.device = none)) :=
  ⟨⟨guards_compareKeyDs1990, guards_write1990_1, guards_write1990_2⟩, guards_writeTM2004,
    guards_write, guards_busStart, guards_extiCallback⟩

/-- A line on which only the first reset is answered, 300 microseconds after the counter began. -/
def shyPins : Pins where
  levels n := n ≠ 1
  waits _ := 0
  ticks _ := 0
  cycles _ := 300 * instructionsPerUs
  output _ := true
  mode _ := .outputOpenDrain

def attachedSlave : OneWireSlave := ⟨some ⟨Vector.replicate 8 0⟩, .noError, 0, false, []⟩

/-- A slave with a device answers a reset, and a Dallas key is written by `write_TM2004`, with
interrupts enabled inside the section. -/
theorem not_sections_guarded :
    (¬Guards (busStart attachedSlave) ⟨false, [], shyPins⟩ ∧
      ¬Guards (extiCallback attachedSlave) ⟨false, [], shyPins⟩) ∧
    ¬Guards (writeTM2004 someKey) ⟨false, [], shyPins⟩ ∧
    ¬Guards (KeyWriter.write someKey) ⟨false, [], shyPins⟩ := by
  rw [guards_busStart, guards_extiCallback, guards_writeTM2004, guards_write]
  unfold KeyWriter.ReachesTM2004 Unwritten OneWireSlave.EndsReset
  decide +kernel

end FlipperZero.Firmware
