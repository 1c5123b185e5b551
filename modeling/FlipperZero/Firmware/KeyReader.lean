import FlipperZero.Firmware.OneWireMaster
import FlipperZero.IButton.Cyfral
import FlipperZero.IButton.Metakom

/-! # The iButton key reader and the interrupts

A read disables interrupts around its OneWire transactions. The reset of `verify_key` that finds
no device leaves them disabled, until `hal_gpio_init` of the next switch of the mode enables
them; and a reader that is entered with interrupts disabled comes back with them enabled.
-/

namespace FlipperZero.Firmware

open Lib OneWire IButton

inductive IButtonKeyType where
  | keyDallas
  | keyCyfral
  | keyMetakom
deriving DecidableEq, Repr

abbrev KeyData := Vector (BitVec 8) 8

structure IButtonKey where
  type : IButtonKeyType
  data : KeyData

def IButtonKeyType.dataSize : IButtonKeyType → ℕ
  | .keyCyfral => 2
  | .keyMetakom => 4
  | .keyDallas => 8

def IButtonKey.typeData (key : IButtonKey) : List (BitVec 8) :=
  key.data.toList.take key.type.dataSize

/-- The eight bytes of the reader with the bytes of a decoder copied in. -/
def keyData (bytes : List (BitVec 8)) : KeyData := Vector.ofFn fun i => bytes.getD i 0

def crcBits (crc inputByte : BitVec 8) : (left : ℕ) → BitVec 8
  | 0 => crc
  | left + 1 =>
    let mix := (crc ^^^ inputByte) &&& 1#8
    crcBits (if mix ≠ 0 then (crc >>> 1) ^^^ 0x8C#8 else crc >>> 1) (inputByte >>> 1) left

def maximCrc8 (data : List (BitVec 8)) : BitVec 8 :=
  data.foldl (fun crc inputByte => crcBits crc inputByte 8) 0

namespace DS1990

def cmdReadRom : BitVec 8 := 0x33

end DS1990

/-- The driver of the comparator, which neither enables nor disables interrupts. -/
structure Comparator where
  start : Pins → Pins
  stop : Pins → Pins

inductive ReadMode where
  | cyfralMetakom
  | dallas
deriving DecidableEq, Repr

inductive ReadError where
  | empty
  | crcError
  | notAreKey
  | ok
deriving DecidableEq, Repr

structure KeyReader where
  readMode : ReadMode
  readModeSwitchTime : UInt32
  onewireMaster : OneWireMaster
  cyfralDecoder : CyfralDecoder
  metakomDecoder : MetakomDecoder

def KeyReader.init (onewireMaster : OneWireMaster) : KeyReader where
  readMode := .dallas
  readModeSwitchTime := 0
  onewireMaster
  cyfralDecoder := .initial 0
  metakomDecoder := .initial 0

def osKernelGetTickFreq : UInt32 := 1024

section Reader

variable (comp : Comparator)

def startComparator : Hal Unit := do
  halGpioInit .rfidPull .outputOpenDrain
  halGpioWrite .rfidPull false
  halGpioInit .rfidOut .outputOpenDrain
  halGpioWrite .rfidOut false
  sense fun p => ((), comp.start p)

def stopComparator : Hal Unit := sense fun p => ((), comp.stop p)

def switchTo (mode : ReadMode) (r : KeyReader) : Hal KeyReader :=
  match mode with
  | .dallas => do
    start
    stopComparator comp
    pure { r with readMode := mode }
  | .cyfralMetakom => do
    stop
    startComparator comp
    pure { r with readMode := mode }

def switchModeIfNeeded (r : KeyReader) : Hal KeyReader := do
  let tick ← osKernelGetTickCount
  if tick - r.readModeSwitchTime > osKernelGetTickFreq / 5 then
    let switchTime ← osKernelGetTickCount
    match r.readMode with
    | .dallas => switchTo comp .cyfralMetakom { r with readModeSwitchTime := switchTime }
    | .cyfralMetakom => switchTo comp .dallas { r with readModeSwitchTime := switchTime }
  else pure r

def readKey (r : KeyReader) : Hal (Option (IButtonKeyType × KeyData) × KeyReader) :=
  match r.readMode with
  | .dallas => do
    disableIrq .readKey
    let found ← search r.onewireMaster true
    enableIrq .readKey
    pure (found.1.map fun rom => (.keyDallas, rom.bytes),
      { r with onewireMaster := found.2.resetSearch })
  | .cyfralMetakom =>
    match r.cyfralDecoder.read with
    | (some bytes, cyfralDecoder) =>
      pure (some (.keyCyfral, keyData bytes.toList), { r with cyfralDecoder })
    | (none, cyfralDecoder) =>
      match r.metakomDecoder.read with
      | (some bytes, metakomDecoder) =>
        pure (some (.keyMetakom, keyData bytes.toList), { r with cyfralDecoder, metakomDecoder })
      | (none, metakomDecoder) => pure (none, { r with cyfralDecoder, metakomDecoder })

/-- The loop of `verify_key`, which reads all bytes. -/
def verifyBytes : List (BitVec 8) → (result : Bool) → Hal Bool
  | [], result => pure result
  | byte :: data, result => do
    let answer ← read
    verifyBytes data (if answer ≠ byte then false else result)

def verifyKey (keyType : IButtonKeyType) (data : KeyData) (r : KeyReader) :
    Hal (Bool × KeyReader) :=
  match keyType with
  | .keyDallas => do
    let r ← switchTo comp .dallas r
    disableIrq .verifyKey
    if ← reset then
      write DS1990.cmdReadRom
      let result ← verifyBytes data.toList true
      enableIrq .verifyKey
      pure (result, r)
    else pure (false, r)
  | _ => pure (false, r)

/-- The outcome for a key that was found, after it was verified where its type asks for it. -/
def checkKey (keyType : IButtonKeyType) (data : KeyData) (r : KeyReader) :
    Hal (ReadError × KeyReader) :=
  match keyType with
  | .keyDallas => do
    let verified ← verifyKey comp keyType data r
    if verified.1 then
      if maximCrc8 data.toList = 0 then
        if data[0] = 0x01 then pure (.ok, verified.2) else pure (.notAreKey, verified.2)
      else pure (.crcError, verified.2)
    else pure (.empty, verified.2)
  | _ => pure (.ok, r)

def checkFound (found : Option (IButtonKeyType × KeyData)) (r : KeyReader) :
    Hal (ReadError × KeyReader) :=
  match found with
  | some (keyType, data) => checkKey comp keyType data r
  | none => pure (.empty, r)

def KeyReader.read (r : KeyReader) (key : IButtonKey) :
    Hal (ReadError × IButtonKey × KeyReader) := do
  let found ← readKey r
  let result ← checkFound comp found.1 found.2
  let key :=
    match found.1 with
    | some (type, data) => if result.1 ≠ .empty then ⟨type, data⟩ else key
    | none => key
  let r ← switchModeIfNeeded comp result.2
  pure (result.1, key, r)

variable {comp} {r : KeyReader} {c : Cpu IrqUser Pins}

theorem emits_startComparator : Emits (startComparator comp) (initCalls ++ initCalls) := by
  refine emits_halGpioInit.bind fun _ => emits_halGpioWrite.silent_bind fun _ => ?_
  refine emits_halGpioInit.bind_silent fun _ => emits_halGpioWrite.silent_bind fun _ => ?_
  exact emits_sense _

theorem emits_switchTo_dallas : Emits (switchTo comp .dallas r) initCalls :=
  emits_start.bind_silent fun _ => (emits_sense _).silent_bind fun _ => emits_pure _

theorem emits_switchTo_cyfralMetakom :
    Emits (switchTo comp .cyfralMetakom r) (initCalls ++ (initCalls ++ initCalls)) :=
  emits_stop.bind fun _ => emits_startComparator.bind_silent fun _ => emits_pure _

theorem switchTo_irqDisabled {mode : ReadMode} : (switchTo comp mode r c).2.irqDisabled = false := by
  cases mode with
  | dallas => exact (emits_switchTo_dallas c).irqDisabled
  | cyfralMetakom => exact (emits_switchTo_cyfralMetakom c).irqDisabled

def KeyReader.Elapsed (r : KeyReader) (c : Cpu IrqUser Pins) : Prop :=
  (osKernelGetTickCount c).1 - r.readModeSwitchTime > osKernelGetTickFreq / 5

theorem switchModeIfNeeded_irqDisabled :
    (switchModeIfNeeded comp r c).2.irqDisabled = true ↔ c.irqDisabled = true ∧ ¬r.Elapsed c := by
  unfold switchModeIfNeeded
  rw [bind_apply]
  split
  · next helapsed =>
    have hnot : ¬(c.irqDisabled = true ∧ ¬r.Elapsed c) := fun h => h.2 helapsed
    rw [bind_apply, iff_false_right hnot]
    cases r.readMode with
    | dallas => simp only [switchTo_irqDisabled, Bool.false_eq_true, not_false_eq_true]
    | cyfralMetakom => simp only [switchTo_irqDisabled, Bool.false_eq_true, not_false_eq_true]
  · next helapsed => exact (and_iff_left helapsed).symm

theorem emits_readKey :
    Emits (readKey r) (if r.readMode = .dallas then [.disable .readKey, .enable .readKey] else []) := by
  unfold readKey
  split
  · next hmode =>
    rw [if_pos hmode]
    refine (emits_disableIrq _).bind fun _ => silent_search.silent_bind fun _ => ?_
    exact (emits_enableIrq _).bind_silent fun _ => emits_pure _
  · next hmode =>
    rw [if_neg (by simp [hmode])]
    split
    · exact emits_pure _
    · split
      · exact emits_pure _
      · exact emits_pure _

theorem silent_verifyBytes {data : List (BitVec 8)} {result : Bool} :
    Emits (verifyBytes data result) [] := by
  induction data generalizing result with
  | nil => exact emits_pure _
  | cons byte data ih => exact silent_read.silent_bind fun _ => ih

/-- A device answers the reset of `verify_key`. -/
def presence (comp : Comparator) (r : KeyReader) (c : Cpu IrqUser Pins) : Bool :=
  (reset (disableIrq .verifyKey (switchTo comp .dallas r c).2).2).1

theorem verifyKey_irqDisabled {keyType : IButtonKeyType} {data : KeyData} :
    (verifyKey comp keyType data r c).2.irqDisabled =
      if keyType = .keyDallas then !presence comp r c else c.irqDisabled := by
  cases keyType with
  | keyDallas =>
    rw [if_pos rfl, verifyKey, bind_apply, bind_apply, bind_apply]
    have hreset := (silent_reset (disableIrq .verifyKey (switchTo comp .dallas r c).2).2).irqDisabled
    cases hpresence : presence comp r c with
    | true =>
      rw [presence] at hpresence
      rw [hpresence, if_pos rfl]
      have hcalls : Emits (do
          write DS1990.cmdReadRom
          let result ← verifyBytes data.toList true
          enableIrq .verifyKey
          pure (result, (switchTo comp .dallas r c).1) : Hal (Bool × KeyReader))
          [.enable .verifyKey] :=
        silent_write.silent_bind fun _ => silent_verifyBytes.silent_bind fun _ =>
          (emits_enableIrq _).bind_silent fun _ => emits_pure _
      exact (hcalls _).irqDisabled
    | false =>
      rw [presence] at hpresence
      rw [hpresence, if_neg Bool.false_ne_true]
      exact hreset
  | keyCyfral => rfl
  | keyMetakom => rfl

theorem checkKey_irqDisabled {keyType : IButtonKeyType} {data : KeyData} :
    (checkKey comp keyType data r c).2.irqDisabled =
      if keyType = .keyDallas then !presence comp r c else c.irqDisabled := by
  cases keyType with
  | keyDallas =>
    have hverify : (verifyKey comp .keyDallas data r c).2.irqDisabled = _ := verifyKey_irqDisabled
    rw [checkKey, bind_apply, ← hverify]
    split
    · split
      · split <;> rfl
      · rfl
    · rfl
  | keyCyfral => rfl
  | keyMetakom => rfl

/-- `verify_key` is called, and no device answers its reset. -/
def KeyReader.Unanswered (comp : Comparator) (r : KeyReader) (c : Cpu IrqUser Pins) : Prop :=
  r.readMode = .dallas ∧ (readKey r c).1.1.isSome ∧
    presence comp (readKey r c).1.2 (readKey r c).2 = false

/-- The processor and the reader when `read` comes to switch the mode. -/
def KeyReader.checked (comp : Comparator) (r : KeyReader) (c : Cpu IrqUser Pins) :
    (ReadError × KeyReader) × Cpu IrqUser Pins :=
  checkFound comp (readKey r c).1.1 (readKey r c).1.2 (readKey r c).2

def KeyReader.Switches (comp : Comparator) (r : KeyReader) (c : Cpu IrqUser Pins) : Prop :=
  (r.checked comp c).1.2.Elapsed (r.checked comp c).2

theorem readKey_keyType {keyType : IButtonKeyType} {data : KeyData}
    (h : (readKey r c).1.1 = some (keyType, data)) :
    keyType = .keyDallas ↔ r.readMode = .dallas := by
  unfold readKey at h
  cases hmode : r.readMode with
  | dallas =>
    simp only [hmode, bind_apply] at h
    obtain ⟨rom, _, hrom⟩ := Option.map_eq_some_iff.mp h
    exact iff_of_true (Prod.mk.inj hrom).1.symm rfl
  | cyfralMetakom =>
    simp only [hmode] at h
    refine iff_of_false ?_ ReadMode.noConfusion
    rintro rfl
    rcases hcyfral : r.cyfralDecoder.read with ⟨_ | bytes, cyfralDecoder⟩
    · rcases hmetakom : r.metakomDecoder.read with ⟨_ | bytes, metakomDecoder⟩
      · simp only [hcyfral, hmetakom] at h
        cases h
      · simp only [hcyfral, hmetakom] at h
        cases h
    · simp only [hcyfral] at h
      cases h

theorem checked_irqDisabled :
    (r.checked comp c).2.irqDisabled = true ↔
      if r.readMode = .dallas then r.Unanswered comp c else c.irqDisabled = true := by
  have hread := (emits_readKey (r := r) c).irqDisabled
  unfold KeyReader.checked KeyReader.Unanswered
  rcases hfound : (readKey r c).1.1 with _ | ⟨keyType, data⟩
  · rw [show checkFound comp none (readKey r c).1.2 (readKey r c).2 =
      ((.empty, (readKey r c).1.2), (readKey r c).2) from rfl, hread]
    by_cases hmode : r.readMode = .dallas
    · simp [hmode, masked]
    · simp [hmode, masked]
  · rw [checkFound, checkKey_irqDisabled]
    have htype := readKey_keyType hfound
    by_cases hmode : r.readMode = .dallas
    · rw [if_pos (htype.mpr hmode)]
      simp [hmode]
    · rw [if_neg fun h => hmode (htype.mp h), hread]
      simp [hmode, masked]

theorem read_irqDisabled {key : IButtonKey} :
    (r.read comp key c).2.irqDisabled = true ↔
      (if r.readMode = .dallas then r.Unanswered comp c else c.irqDisabled = true) ∧
        ¬r.Switches comp c := by
  rw [← checked_irqDisabled]
  exact switchModeIfNeeded_irqDisabled

end Reader

/-- The program leaves the interrupts as it found them. -/
def Restores {α : Type} (f : Hal α) (c : Cpu IrqUser Pins) : Prop :=
  (f c).2.irqDisabled = c.irqDisabled

section Restores

variable {comp : Comparator} {r : KeyReader} {c : Cpu IrqUser Pins}

theorem restores_verifyKey {keyType : IButtonKeyType} {data : KeyData} :
    Restores (verifyKey comp keyType data r) c ↔
      (keyType = .keyDallas → c.irqDisabled = !presence comp r c) := by
  rw [Restores, verifyKey_irqDisabled]
  by_cases hkey : keyType = .keyDallas
  · rw [if_pos hkey, forall_prop_of_true hkey]
    exact eq_comm
  · rw [if_neg hkey]
    exact iff_of_true rfl fun h => absurd h hkey

theorem restores_read {key : IButtonKey} :
    Restores (r.read comp key) c ↔
      if c.irqDisabled then ¬r.Switches comp c ∧ (r.readMode = .dallas → r.Unanswered comp c)
      else r.Unanswered comp c → r.Switches comp c := by
  rw [Restores, Bool.eq_iff_iff, read_irqDisabled]
  cases c.irqDisabled with
  | true =>
    by_cases hmode : r.readMode = .dallas
    · simp [hmode, and_comm]
    · simp [hmode]
  | false =>
    by_cases hmode : r.readMode = .dallas
    · simp [hmode]
    · have hnot : ¬r.Unanswered comp c := fun h => hmode h.1
      simp [hmode, hnot]

end Restores

/-- Verifying a Dallas key keeps the mask when it is the opposite of the presence answered, and
verifying any other key keeps it. A read that is entered with interrupts enabled loses them when
the reset of its verification is not answered, unless the mode is switched right after; a read
that is entered with interrupts disabled keeps them so in the opposite cases. -/
theorem interrupts_restored (comp : Comparator) (r : KeyReader) (c : Cpu IrqUser Pins) :
    (∀ keyType data, Restores (verifyKey comp keyType data r) c ↔
      (keyType = .keyDallas → c.irqDisabled = !presence comp r c)) ∧
    ∀ key, Restores (r.read comp key) c ↔
      if c.irqDisabled then ¬r.Switches comp c ∧ (r.readMode = .dallas → r.Unanswered comp c)
      else r.Unanswered comp c → r.Switches comp c :=
  ⟨fun _ _ => restores_verifyKey, fun _ => restores_read⟩

def initialMaster : OneWireMaster := ⟨⟨Vector.replicate 8 0⟩, 0, 0, false⟩

/-- A device answers the search with the ROM that has the one bit 0, and is gone at the next
reset. -/
def removedDevice : Pins where
  levels n := n = 0 ∨ n = 2 ∨ 4 ≤ n ∧ n % 2 = 1 ∨ 130 ≤ n
  waits _ := 0
  ticks _ := 0
  cycles _ := 0
  output _ := true
  mode _ := .outputOpenDrain

def someKey : IButtonKey := ⟨.keyDallas, Vector.replicate 8 0⟩

/-- The verification of a key without a device, and a read whose device is removed after it was
found, return with the interrupts disabled. -/
theorem not_interrupts_restored :
    ¬Restores (verifyKey ⟨id, id⟩ .keyDallas someKey.data (.init initialMaster))
      ⟨false, [], { removedDevice with levels := fun _ => true }⟩ ∧
    ¬Restores ((KeyReader.init initialMaster).read ⟨id, id⟩ someKey) ⟨false, [], removedDevice⟩ := by
  unfold Restores
  decide +kernel

end FlipperZero.Firmware
