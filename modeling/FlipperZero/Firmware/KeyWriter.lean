import FlipperZero.Firmware.KeyReader

/-! # The iButton key writer and its critical sections

Every attempt to write a key disables interrupts for its programming pulses, and compares the key
in a section of its own. `write_TM2004` compares before it has ended its own section, so the
comparison enables interrupts inside it; the other attempts end theirs first.
-/

namespace FlipperZero.Firmware

open Lib

namespace RW1990_1

def cmdWriteRecordFlag : BitVec 8 := 0xD1
def cmdWriteRom : BitVec 8 := 0xD5

end RW1990_1

namespace RW1990_2

def cmdWriteRecordFlag : BitVec 8 := 0x1D
def cmdWriteRom : BitVec 8 := 0xD5

end RW1990_2

namespace TM2004

def cmdWriteRom : BitVec 8 := 0x3C

end TM2004

inductive WriteError where
  | ok
  | sameKey
  | noDetect
  | cannotWrite
deriving DecidableEq, Repr

/-- What the key writer calls: the OneWire master, and functions that no device sees. -/
class WriterBus (E : Type) where
  quiet {α : Type} (f : Hal α) : Program IrqUser E α
  reset : Program IrqUser E Bool
  write (value : BitVec 8) : Program IrqUser E Unit
  writeBit (value : Bool) : Program IrqUser E Unit
  read : Program IrqUser E (BitVec 8)

instance : WriterBus Pins where
  quiet f := f
  reset := reset
  write := write
  writeBit := writeBit
  read := read

section Writer

variable {E : Type} [WriterBus E]

def onewireWriteOneBit (value : Bool) (delay : ℕ) : Program IrqUser E Unit := do
  WriterBus.writeBit value
  WriterBus.quiet (delayUs delay)

/-- The bit loop of `write_byte_ds1990`, with `left` bits to come. -/
def writeBitsDs1990 : (left : ℕ) → (data : BitVec 8) → Program IrqUser E Unit
  | 0, _ => pure ()
  | left + 1, data => do
    WriterBus.writeBit (decide (data &&& 1 ≠ 0))
    WriterBus.quiet (delayUs 5000)
    writeBitsDs1990 left (data >>> 1)

def writeByteDs1990 (data : BitVec 8) : Program IrqUser E Unit := writeBitsDs1990 8 data

/-- The loop of `compare_key_ds1990`, which stops at the first byte that differs. -/
def compareBytes : List (BitVec 8) → Program IrqUser E Bool
  | [] => pure true
  | byte :: data => do
    let answer ← WriterBus.read
    if byte ≠ answer then pure false else compareBytes data

/-- The body of `compare_key_ds1990` once the reset was answered or not. -/
def compareRom (presence : Bool) (data : List (BitVec 8)) : Program IrqUser E Bool :=
  if presence then do
    WriterBus.write DS1990.cmdReadRom
    compareBytes data
  else pure false

def compareKeyDs1990 (key : IButtonKey) : Program IrqUser E Bool :=
  if key.type = .keyDallas then do
    WriterBus.quiet (disableIrq .compareKeyDs1990)
    let presence ← WriterBus.reset
    let result ← compareRom presence key.typeData
    WriterBus.quiet (enableIrq .compareKeyDs1990)
    pure result
  else pure false

/-- The key loop of `write_1990_1` and `write_1990_2`. -/
def writeBytes1990 : List (BitVec 8) → Program IrqUser E Unit
  | [] => pure ()
  | byte :: data => do
    writeByteDs1990 byte
    WriterBus.quiet (delayUs 30000)
    writeBytes1990 data

/-- What `write_1990_1` and `write_1990_2` share: their user, their commands, the bit that unlocks
and the bytes they write for a key. -/
def write1990 (user : IrqUser) (cmdWriteRecordFlag cmdWriteRom : BitVec 8) (unlock : Bool)
    (bytes : List (BitVec 8)) (key : IButtonKey) : Program IrqUser E Bool :=
  if key.type = .keyDallas then do
    WriterBus.quiet (disableIrq user)
    let _ ← WriterBus.reset
    WriterBus.write cmdWriteRecordFlag
    WriterBus.quiet (delayUs 10)
    onewireWriteOneBit unlock 5000
    let _ ← WriterBus.reset
    WriterBus.write cmdWriteRom
    writeBytes1990 bytes
    WriterBus.write cmdWriteRecordFlag
    onewireWriteOneBit (!unlock) 10000
    WriterBus.quiet (enableIrq user)
    compareKeyDs1990 key
  else pure false

def write1990_1 (key : IButtonKey) : Program IrqUser E Bool :=
  write1990 .write1990_1 RW1990_1.cmdWriteRecordFlag RW1990_1.cmdWriteRom false
    (key.typeData.map fun byte => ~~~byte) key

def write1990_2 (key : IButtonKey) : Program IrqUser E Bool :=
  write1990 .write1990_2 RW1990_2.cmdWriteRecordFlag RW1990_2.cmdWriteRom true key.typeData key

/-- The key loop of `write_TM2004`, which stops at the first byte that is read back differently. -/
def writeBytesTM2004 : List (BitVec 8) → Program IrqUser E Bool
  | [] => pure true
  | byte :: data => do
    WriterBus.write byte
    let _ ← WriterBus.read
    WriterBus.quiet (delayUs 600)
    onewireWriteOneBit true 50000
    let answer ← WriterBus.read
    if byte ≠ answer then pure false else writeBytesTM2004 data

def writeTM2004 (key : IButtonKey) : Program IrqUser E Bool :=
  if key.type = .keyDallas then do
    WriterBus.quiet (disableIrq .writeTM2004)
    let _ ← WriterBus.reset
    WriterBus.write TM2004.cmdWriteRom
    WriterBus.write 0x00
    WriterBus.write 0x00
    let written ← writeBytesTM2004 key.typeData
    let same ← compareKeyDs1990 key
    let _ ← WriterBus.reset
    WriterBus.quiet (enableIrq .writeTM2004)
    pure (written && same)
  else pure false

/-- The attempts of `write_internal` for a key that differs. -/
def tryWrites (key : IButtonKey) : Program IrqUser E Bool := do
  if ← write1990_1 key then pure true
  else
    if ← write1990_2 key then pure true else writeTM2004 key

/-- The body of `write_internal` for a device that is present. -/
def writePresent (key : IButtonKey) : Program IrqUser E WriteError :=
  match key.type with
  | .keyDallas => do
    if ← compareKeyDs1990 key then pure .sameKey
    else
      let writeResult ← tryWrites key
      pure (if writeResult then .ok else .cannotWrite)
  | _ => pure .noDetect

def writeInternal (key : IButtonKey) : Program IrqUser E WriteError := do
  WriterBus.quiet osKernelLock
  let presence ← WriterBus.reset
  WriterBus.quiet osKernelUnlock
  if presence then writePresent key else pure .noDetect

def KeyWriter.write (key : IButtonKey) : Program IrqUser E WriteError := writeInternal key

end Writer

section Calls

variable {key : IButtonKey} {user : IrqUser} {flag rom : BitVec 8} {unlock : Bool}
  {bytes : List (BitVec 8)}

theorem silent_onewireWriteOneBit {value : Bool} {delay : ℕ} :
    Emits (onewireWriteOneBit value delay : Hal Unit) [] :=
  silent_writeBit.silent_bind fun _ => emits_delayUs

theorem silent_writeByteDs1990 {data : BitVec 8} : Emits (writeByteDs1990 data : Hal Unit) [] := by
  have hbits (left : ℕ) : ∀ data, Emits (writeBitsDs1990 left data : Hal Unit) [] := by
    induction left with
    | zero => exact fun _ => emits_pure _
    | succ left ih =>
      intro data
      exact silent_writeBit.silent_bind fun _ => emits_delayUs.silent_bind fun _ => ih _
  exact hbits 8 data

theorem silent_compareBytes : Emits (compareBytes bytes : Hal Bool) [] := by
  induction bytes with
  | nil => exact emits_pure _
  | cons byte data ih => exact silent_read.silent_bind fun _ => (emits_pure _).ite ih

theorem silent_compareRom {presence : Bool} : Emits (compareRom presence bytes : Hal Bool) [] := by
  apply Emits.ite
  · exact silent_write.silent_bind fun _ => silent_compareBytes
  · exact emits_pure _

theorem silent_writeBytes1990 : Emits (writeBytes1990 bytes : Hal Unit) [] := by
  induction bytes with
  | nil => exact emits_pure _
  | cons byte data ih =>
    exact silent_writeByteDs1990.silent_bind fun _ => emits_delayUs.silent_bind fun _ => ih

theorem silent_writeBytesTM2004 : Emits (writeBytesTM2004 bytes : Hal Bool) [] := by
  induction bytes with
  | nil => exact emits_pure _
  | cons byte data ih =>
    apply silent_write.silent_bind
    intro _
    refine silent_read.silent_bind fun _ => emits_delayUs.silent_bind fun _ => ?_
    refine silent_onewireWriteOneBit.silent_bind fun _ => silent_read.silent_bind fun _ => ?_
    exact (emits_pure _).ite ih

/-- The calls of a comparison: its own section, for a Dallas key. -/
def compareCalls (key : IButtonKey) : List (Irq IrqUser) :=
  if key.type = .keyDallas then [.disable .compareKeyDs1990, .enable .compareKeyDs1990] else []

theorem closed_compareCalls : Closed (compareCalls key) := by
  unfold compareCalls
  split
  · exact closed_section _
  · exact closed_nil

theorem emits_compareKeyDs1990 : Emits (compareKeyDs1990 key : Hal Bool) (compareCalls key) := by
  unfold compareKeyDs1990 compareCalls
  split
  · apply (emits_disableIrq _).bind
    intro _
    refine silent_reset.silent_bind fun _ => silent_compareRom.silent_bind fun _ => ?_
    exact (emits_enableIrq _).bind_silent fun _ => emits_pure _
  · exact emits_pure _

/-- The calls of `write_1990_1` and `write_1990_2`: the section of the attempt, then that of the
comparison. -/
def write1990Calls (user : IrqUser) (key : IButtonKey) : List (Irq IrqUser) :=
  if key.type = .keyDallas then [Irq.disable user, .enable user] ++ compareCalls key else []

theorem closed_write1990Calls : Closed (write1990Calls user key) := by
  unfold write1990Calls
  split
  · exact (closed_section _).append closed_compareCalls
  · exact closed_nil

theorem emits_write1990 :
    Emits (write1990 user flag rom unlock bytes key : Hal Bool) (write1990Calls user key) := by
  unfold write1990 write1990Calls
  split
  · apply (emits_disableIrq _).bind
    intro _
    refine silent_reset.silent_bind fun _ => silent_write.silent_bind fun _ => ?_
    refine emits_delayUs.silent_bind fun _ => silent_onewireWriteOneBit.silent_bind fun _ => ?_
    refine silent_reset.silent_bind fun _ => silent_write.silent_bind fun _ => ?_
    refine silent_writeBytes1990.silent_bind fun _ => silent_write.silent_bind fun _ => ?_
    apply silent_onewireWriteOneBit.silent_bind
    intro _
    exact (emits_enableIrq _).bind fun _ => emits_compareKeyDs1990
  · exact emits_pure _

theorem emits_write1990_1 : Emits (write1990_1 key : Hal Bool) (write1990Calls .write1990_1 key) :=
  emits_write1990

theorem emits_write1990_2 : Emits (write1990_2 key : Hal Bool) (write1990Calls .write1990_2 key) :=
  emits_write1990

/-- The calls of `write_TM2004`: the comparison is inside the section of the attempt. -/
def writeTM2004Calls (key : IButtonKey) : List (Irq IrqUser) :=
  if key.type = .keyDallas then
    .disable .writeTM2004 :: (compareCalls key ++ [Irq.enable .writeTM2004])
  else []

theorem emits_writeTM2004 : Emits (writeTM2004 key : Hal Bool) (writeTM2004Calls key) := by
  unfold writeTM2004 writeTM2004Calls
  split
  · apply (emits_disableIrq _).bind
    intro _
    refine silent_reset.silent_bind fun _ => silent_write.silent_bind fun _ => ?_
    refine silent_write.silent_bind fun _ => silent_write.silent_bind fun _ => ?_
    apply silent_writeBytesTM2004.silent_bind
    intro _
    refine emits_compareKeyDs1990.bind fun _ => silent_reset.silent_bind fun _ => ?_
    exact (emits_enableIrq _).bind_silent fun _ => emits_pure _
  · exact emits_pure _

theorem kept_writeTM2004Calls :
    (∀ user, Kept user false (writeTM2004Calls key)) ↔ key.type ≠ .keyDallas := by
  unfold writeTM2004Calls compareCalls
  by_cases hkey : key.type = .keyDallas
  · rw [if_pos hkey, if_pos hkey]
    refine iff_of_false ?_ (not_not.mpr hkey)
    intro h
    exact absurd (h .writeTM2004) (by decide)
  · rw [if_neg hkey]
    exact iff_of_true (fun _ => trivial) hkey

end Calls

section Guards

variable {key : IButtonKey} {c : Cpu IrqUser Pins}

theorem guards_compareKeyDs1990 : Guards (compareKeyDs1990 key) c :=
  closed_compareCalls.guards (emits_compareKeyDs1990 c)

theorem guards_write1990_1 : Guards (write1990_1 key) c :=
  closed_write1990Calls.guards (emits_write1990_1 c)

theorem guards_write1990_2 : Guards (write1990_2 key) c :=
  closed_write1990Calls.guards (emits_write1990_2 c)

theorem guards_writeTM2004 : Guards (writeTM2004 key) c ↔ key.type ≠ .keyDallas :=
  (emits_writeTM2004 c).guards_iff.trans kept_writeTM2004Calls

/-- Neither of the first two attempts writes the key. -/
def Unwritten (key : IButtonKey) (c : Cpu IrqUser Pins) : Prop :=
  (write1990_1 key c).1 = false ∧ (write1990_2 key (write1990_1 key c).2).1 = false

theorem logs_secondWrite (a : Bool) : Logs (if a then pure true else writeTM2004 key : Hal Bool) :=
  (emits_pure _).logs.ite emits_writeTM2004.logs

theorem logs_firstWrite (a : Bool) :
    Logs (if a then pure true else do
      if ← write1990_2 key then pure true else writeTM2004 key : Hal Bool) := by
  apply (emits_pure _).logs.ite
  exact emits_write1990_2.logs.bind logs_secondWrite

theorem guards_secondWrite :
    Guards (do if ← write1990_2 key then pure true else writeTM2004 key) c ↔
      (key.type = .keyDallas → (write1990_2 key c).1 = true) := by
  refine (closed_write1990Calls.guards_bind emits_write1990_2 logs_secondWrite).trans ?_
  cases hwritten : (write1990_2 key c).1 with
  | true => exact iff_of_true (closed_nil.guards (calls_pure _)) fun _ => rfl
  | false =>
    rw [if_neg Bool.false_ne_true, guards_writeTM2004]
    simp

theorem guards_tryWrites :
    Guards (tryWrites key) c ↔ (key.type = .keyDallas → ¬Unwritten key c) := by
  refine (closed_write1990Calls.guards_bind emits_write1990_1 logs_firstWrite).trans ?_
  unfold Unwritten
  cases hwritten : (write1990_1 key c).1 with
  | true =>
    refine iff_of_true (closed_nil.guards (calls_pure _)) ?_
    rintro _ ⟨hfalse, _⟩
    cases hfalse
  | false =>
    rw [if_neg Bool.false_ne_true, guards_secondWrite]
    simp

/-- The answers of the bus lead `write` to `write_TM2004`. -/
def KeyWriter.ReachesTM2004 (key : IButtonKey) (c : Cpu IrqUser Pins) : Prop :=
  (reset c).1 = true ∧ key.type = .keyDallas ∧ (compareKeyDs1990 key (reset c).2).1 = false ∧
    Unwritten key (compareKeyDs1990 key (reset c).2).2

theorem logs_writeDifferent (same : Bool) :
    Logs (if same then pure .sameKey else do
      let writeResult ← tryWrites key
      pure (if writeResult then .ok else .cannotWrite) : Hal WriteError) := by
  apply (emits_pure _).logs.ite
  apply (emits_write1990_1.logs.bind logs_firstWrite).bind
  exact fun _ => (emits_pure _).logs

theorem guards_writePresent :
    Guards (writePresent key) c ↔
      (key.type = .keyDallas → (compareKeyDs1990 key c).1 = false →
        ¬Unwritten key (compareKeyDs1990 key c).2) := by
  unfold writePresent
  split
  · next hkey =>
    refine (closed_compareCalls.guards_bind emits_compareKeyDs1990 logs_writeDifferent).trans ?_
    rw [forall_prop_of_true hkey]
    cases hsame : (compareKeyDs1990 key c).1 with
    | true => exact iff_of_true (closed_nil.guards (calls_pure _)) fun h => absurd h.symm Bool.false_ne_true
    | false =>
      rw [if_neg Bool.false_ne_true, forall_prop_of_true rfl]
      have hlogs : Logs (tryWrites key) := emits_write1990_1.logs.bind logs_firstWrite
      rw [hlogs.guards_bind_pure, guards_tryWrites, forall_prop_of_true hkey]
  · next hkey =>
    refine iff_of_true (closed_nil.guards (calls_pure _)) ?_
    rintro h
    exact absurd h hkey

theorem write_eq : (KeyWriter.write key : Hal WriteError) = (do
    osKernelLock
    let presence ← reset
    osKernelUnlock
    if presence then writePresent key else pure .noDetect) := rfl

theorem guards_write : Guards (KeyWriter.write key) c ↔ ¬KeyWriter.ReachesTM2004 key c := by
  have hpresent (presence : Bool) :
      Logs (if presence then writePresent key else pure .noDetect : Hal WriteError) := by
    apply Logs.ite ?_ (emits_pure _).logs
    unfold writePresent
    split
    · exact emits_compareKeyDs1990.logs.bind logs_writeDifferent
    · exact (emits_pure _).logs
  have hunlocked (presence : Bool) : Logs (do
      osKernelUnlock
      if presence then writePresent key else pure .noDetect : Hal WriteError) :=
    emits_osKernelUnlock.logs.bind fun _ => hpresent presence
  unfold KeyWriter.ReachesTM2004
  rw [write_eq, closed_nil.guards_bind emits_osKernelLock fun _ => silent_reset.logs.bind hunlocked,
    closed_nil.guards_bind silent_reset hunlocked,
    closed_nil.guards_bind emits_osKernelUnlock fun _ => hpresent _]
  change Guards (if (reset c).1 = true then writePresent key else pure .noDetect) (reset c).2 ↔ _
  cases hpresence : (reset c).1 with
  | true =>
    rw [if_pos rfl, guards_writePresent]
    simp
  | false =>
    refine iff_of_true (closed_nil.guards (calls_pure _)) ?_
    rintro ⟨h, _⟩
    cases h

end Guards

end FlipperZero.Firmware
