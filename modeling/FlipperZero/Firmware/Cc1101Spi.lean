import Mathlib.Data.List.Basic
import Mathlib.Logic.Function.Basic
import Mathlib.Order.Nat

/-! # Configuring the radio over SPI

The chip is a register file behind a header byte: bit 7 reads, bit 6 keeps the access
open for further bytes, and the PATABLE is filled through an index that every byte
advances and the release of chip select returns to zero. What a reset leaves in the
registers and in the PATABLE is a parameter.
-/

namespace FlipperZero.Firmware.Cc1101Spi

abbrev Byte := BitVec 8

structure Chip where
  regs : ℕ → Byte
  patable : Fin 8 → Byte

structure Reset where
  regs : ℕ → Byte
  patable : (Fin 8 → Byte) → Fin 8 → Byte

structure Access where
  read : Bool
  burst : Bool
  address : ℕ
  deriving DecidableEq, Repr

/-- A transaction, from the selection of the chip to its release. -/
structure Session where
  chip : Chip
  access : Option Access
  index : Fin 8

def Access.ofByte (byte : Byte) : Access where
  read := byte.getLsbD 7
  burst := byte.getLsbD 6
  address := (byte &&& 0x3F).toNat

def Access.strobes (access : Access) : Prop :=
  0x30 ≤ access.address ∧ access.address < 0x3E ∧ ¬(access.read = true ∧ access.burst = true)

instance (access : Access) : Decidable access.strobes := inferInstanceAs (Decidable (_ ∧ _ ∧ _))

def Access.next (access : Access) : Option Access :=
  if access.burst then
    some (if access.address < 0x2F then { access with address := access.address + 1 } else access)
  else none

def Chip.store (chip : Chip) (address : ℕ) (index : Fin 8) (byte : Byte) : Chip :=
  if address < 0x2F then { chip with regs := Function.update chip.regs address byte }
  else if address = 0x3E then { chip with patable := Function.update chip.patable index byte }
  else chip

variable (reset : Reset)

def Reset.apply (chip : Chip) : Chip := ⟨reset.regs, reset.patable chip.patable⟩

namespace Session

def header (s : Session) (access : Access) : Session :=
  if access.strobes then
    if access.address = 0x30 then { s with chip := reset.apply s.chip } else s
  else { s with access := some access }

def data (s : Session) (access : Access) (byte : Byte) : Session where
  chip := if access.read then s.chip else s.chip.store access.address s.index byte
  access := access.next
  index := if access.address = 0x3E then s.index + 1 else s.index

def clock (s : Session) (byte : Byte) : Session :=
  match s.access with
  | none => s.header reset (.ofByte byte)
  | some access => s.data access byte

end Session

def Chip.select (chip : Chip) : Session := ⟨chip, none, 0⟩

def apiHalSpiBusTrx (s : Session) (tx : List Byte) (size : ℕ) : Session :=
  (tx.take size).foldl (Session.clock reset) s

/-- Chip select is released after the bytes are clocked. -/
def transaction (tx : List Byte) (size : ℕ) (chip : Chip) : Chip :=
  (apiHalSpiBusTrx reset chip.select tx size).chip

def cc1101Strobe (strobe : Byte) (chip : Chip) : Chip := transaction reset [strobe] 1 chip

def cc1101WriteReg (reg data : Byte) (chip : Chip) : Chip := transaction reset [reg, data] 2 chip

def cc1101Reset (chip : Chip) : Chip := cc1101Strobe reset 0x30 (transaction reset [] 0 chip)

def cc1101SetPaTable (value : Fin 8 → Byte) (chip : Chip) : Chip :=
  transaction reset ((0x3E ||| 0x40) :: List.ofFn value) 2 chip

/-- The loop of `api_hal_subghz_load_registers`, up to the pair whose register is zero. -/
def writeRegisters : List (Byte × Byte) → Chip → Chip
  | [], chip => chip
  | (reg, value) :: data, chip =>
    if reg = 0 then chip else writeRegisters data (cc1101WriteReg reset reg value chip)

def apiHalSubghzLoadRegisters (data : List (Byte × Byte)) (chip : Chip) : Chip :=
  writeRegisters reset data (cc1101Reset reset chip)

def apiHalSubghzLoadPatable (data : Fin 8 → Byte) (chip : Chip) : Chip :=
  cc1101SetPaTable reset data chip

/-- A pair of a register list: the address of a configuration register, not zero. -/
structure Setting where
  reg : Byte
  value : Byte
  ne_zero : reg ≠ 0
  lt : reg.toNat < 0x2F

def terminated (settings : List Setting) : List (Byte × Byte) :=
  settings.map (fun setting => (setting.reg, setting.value)) ++ [(0, 0)]

inductive ApiHalSubGhzPreset
  | ookAsync
  | twoFskPacket
  deriving DecidableEq, Repr

namespace ApiHalSubGhzPreset

def regs : ApiHalSubGhzPreset → List Setting
  | ookAsync =>
    [⟨0x02, 0x0D, by decide, by decide⟩, ⟨0x0B, 0x06, by decide, by decide⟩,
      ⟨0x18, 0x18, by decide, by decide⟩, ⟨0x12, 0x30, by decide, by decide⟩,
      ⟨0x08, 0x32, by decide, by decide⟩, ⟨0x22, 0x01, by decide, by decide⟩]
  | twoFskPacket =>
    [⟨0x02, 0x06, by decide, by decide⟩, ⟨0x0B, 0x06, by decide, by decide⟩,
      ⟨0x18, 0x18, by decide, by decide⟩]

def patable : ApiHalSubGhzPreset → Fin 8 → Byte
  | ookAsync | twoFskPacket => fun i => if i = 0 then 0xC0 else 0x00

end ApiHalSubGhzPreset

def apiHalSubghzLoadPreset (preset : ApiHalSubGhzPreset) (chip : Chip) : Chip :=
  apiHalSubghzLoadPatable reset preset.patable
    (apiHalSubghzLoadRegisters reset (terminated preset.regs) chip)

def lastListed : List Setting → ℕ → Option Byte
  | [], _ => none
  | setting :: settings, address =>
    (lastListed settings address).or
      (if setting.reg.toNat = address then some setting.value else none)

/-- The listed registers hold their last values, the others those of the reset, and the
PATABLE the given bytes. -/
structure Configured (settings : List Setting) (table : Fin 8 → Byte) (chip : Chip) : Prop where
  regs : ∀ address < 0x2F, chip.regs address =
    (lastListed settings address).getD (reset.regs address)
  patable : chip.patable = table

variable {reset} {chip : Chip}

theorem cc1101Reset_eq : cc1101Reset reset chip = reset.apply chip := rfl

theorem cc1101SetPaTable_eq (value : Fin 8 → Byte) :
    cc1101SetPaTable reset value chip =
      { chip with patable := Function.update chip.patable 0 (value 0) } := rfl

theorem ofByte_of_lt {reg : Byte} (hlt : reg.toNat < 0x2F) :
    Access.ofByte reg = ⟨false, false, reg.toNat⟩ := by
  have hmod : (reg &&& 0x3F).toNat = reg.toNat := by
    rw [BitVec.toNat_and]
    exact (Nat.and_two_pow_sub_one_eq_mod _ 6).trans (Nat.mod_eq_of_lt (by omega))
  have hbit : ∀ i, 6 ≤ i → reg.getLsbD i = false := by
    intro i hi
    apply Nat.testBit_lt_two_pow
    calc reg.toNat < 2 ^ 6 := by omega
      _ ≤ 2 ^ i := Nat.pow_le_pow_right (by omega) hi
  rw [Access.ofByte, hmod, hbit 6 le_rfl, hbit 7 (by omega)]

theorem cc1101WriteReg_eq {reg : Byte} (hlt : reg.toNat < 0x2F) (data : Byte) :
    cc1101WriteReg reset reg data chip =
      { chip with regs := Function.update chip.regs reg.toNat data } := by
  have hstrobes : ¬(Access.mk false false reg.toNat).strobes := by
    rintro ⟨hle, -⟩
    simp only at hle
    omega
  simp [cc1101WriteReg, transaction, apiHalSpiBusTrx, Session.clock, Chip.select,
    ofByte_of_lt hlt, Session.header, hstrobes, Session.data, Chip.store, hlt]

theorem writeRegisters_eq (settings : List Setting) (chip : Chip) :
    writeRegisters reset (terminated settings) chip =
      { chip with
        regs := fun address => (lastListed settings address).getD (chip.regs address) } := by
  induction settings generalizing chip with
  | nil => rfl
  | cons setting settings ih =>
    have hcons : terminated (setting :: settings) =
        (setting.reg, setting.value) :: terminated settings := rfl
    rw [hcons, writeRegisters, if_neg setting.ne_zero, cc1101WriteReg_eq setting.lt, ih]
    congr 1
    ext1 address
    simp only [lastListed, Function.update_apply]
    cases lastListed settings address with
    | some value => rfl
    | none =>
      by_cases heq : setting.reg.toNat = address
      · simp [heq]
      · simp [heq, Ne.symm heq]

theorem loaded_eq (settings : List Setting) (table : Fin 8 → Byte) (chip : Chip) :
    apiHalSubghzLoadPatable reset table
        (apiHalSubghzLoadRegisters reset (terminated settings) chip) =
      ⟨fun address => (lastListed settings address).getD (reset.regs address),
        Function.update (reset.patable chip.patable) 0 (table 0)⟩ := by
  rw [apiHalSubghzLoadPatable, cc1101SetPaTable_eq, apiHalSubghzLoadRegisters, writeRegisters_eq,
    cc1101Reset_eq]
  rfl

theorem update_zero_eq_iff {table patable : Fin 8 → Byte} :
    Function.update patable 0 (table 0) = table ↔ ∀ i, i ≠ 0 → table i = patable i := by
  constructor
  · intro h i hi
    rw [← h]
    exact Function.update_of_ne hi _ _
  · intro h
    ext1 i
    by_cases hi : i = 0
    · rw [hi]
      exact Function.update_self _ _ _
    · exact (Function.update_of_ne hi _ _).trans (h i hi).symm

/-- The presets have one level, so that they are configured where a reset leaves no other. -/
theorem loadPreset_configured (preset : ApiHalSubGhzPreset)
    (hreset : ∀ i, i ≠ 0 → reset.patable chip.patable i = 0) :
    Configured reset preset.regs preset.patable (apiHalSubghzLoadPreset reset preset chip) := by
  rw [apiHalSubghzLoadPreset, loaded_eq]
  constructor
  · exact fun address _ => rfl
  · apply update_zero_eq_iff.mpr
    intro i hi
    rw [hreset i hi]
    cases preset <;> exact if_neg hi

/-- The registers are right always, and the PATABLE exactly where a reset leaves the last
seven bytes of the table. -/
theorem radio_configured_iff (settings : List Setting) (table : Fin 8 → Byte) (chip : Chip) :
    Configured reset settings table (apiHalSubghzLoadPatable reset table
      (apiHalSubghzLoadRegisters reset (terminated settings) chip)) ↔
    ∀ i, i ≠ 0 → table i = reset.patable chip.patable i := by
  rw [loaded_eq]
  constructor
  · rintro ⟨-, hpatable⟩
    exact update_zero_eq_iff.mp hpatable
  · intro h
    constructor
    · exact fun address _ => rfl
    · exact update_zero_eq_iff.mpr h

/-- A table with a second level, on a chip whose PATABLE the reset leaves as it was. -/
theorem second_level_not_loaded : ¬∀ (reset : Reset) (settings : List Setting)
    (table : Fin 8 → Byte) (chip : Chip),
    Configured reset settings table (apiHalSubghzLoadPatable reset table
      (apiHalSubghzLoadRegisters reset (terminated settings) chip)) := by
  intro h
  have hpatable := (h ⟨fun _ => 0, id⟩ [] (fun _ => 0xC0) ⟨fun _ => 0, fun _ => 0⟩).patable
  exact absurd (congrFun hpatable 1) (by decide)

end FlipperZero.Firmware.Cc1101Spi
