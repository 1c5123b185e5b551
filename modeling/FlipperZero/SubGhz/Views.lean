import FlipperZero.Gui.ViewDispatcher
import FlipperZero.SubGhz.Carrier

/-! # The views that test the radio

Two views receive or send on an entry of the frequency table, and one sends a code that is fixed.
Each sets the radio up when it is entered and with the keys that are pressed. What a view shows is
what the radio does.
-/

namespace FlipperZero.SubGhz

open Firmware Gui Lib
open Firmware.Cc1101Spi (Reset ApiHalSubGhzPreset)

section Radio

variable (reset : Reset) (radio : SubghzRadio)

def apiHalSubghzIdle : SubghzRadio := radio.strobe reset 0x36

/-- The chip drives the pin at GD0 low and then high, and both are waited for. -/
def apiHalSubghzInit : SubghzRadio :=
  let radio := (radio.apiHalSubghzReset reset).halGpioInit .input
  let radio := { radio.writeReg reset 0x02 0x2F with g0Level := false }
  let radio := { radio.writeReg reset 0x02 (0x2F ||| 0x40) with g0Level := true }
  let radio := (radio.writeReg reset 0x02 0x2E).halGpioInit .analog
  (radio.writeReg reset 0x00 0x2F).strobe reset 0x39

/-- `cc1101_write_fifo`, for what it does to the chip besides. -/
def writeFifo (data : List Byte) : SubghzRadio :=
  { radio with
    chip := Cc1101Spi.transaction reset ((0x3F ||| 0x40) :: data) (data.length + 1) radio.chip
    mode := radio.mode.selected }

/-- The radio set to an entry of the table, with the frequency that is returned. -/
def setFrequencyOf (index : ℕ) : Option (SubGhzFrequency × UInt32 × SubghzRadio) := do
  let entry ← subghzFrequencies[index]?
  let (real, radio) ← radio.apiHalSubghzSetFrequency reset entry.frequency
  some (entry, real, radio)

end Radio

/-- A level of the pin at GD0 and how long it is held, in microseconds. -/
abbrev Pulse := Bool × ℕ

structure Device where
  radio : SubghzRadio
  /-- What has been written to the FIFO since it was flushed. -/
  txFifo : List Byte
  /-- What has been sent by hand, with the radio at the time. -/
  sent : List (SubghzRadio × List Pulse)

inductive Status
  | rx
  | tx
  deriving DecidableEq, Repr

def Status.mode : Status → RadioMode
  | .rx => .rx
  | .tx => .tx

structure TestModel where
  frequency : ℕ
  realFrequency : UInt32
  path : ApiHalSubGhzPath
  status : Status
  deriving DecidableEq, Repr

structure StaticModel where
  frequency : ℕ
  realFrequency : UInt32
  path : ApiHalSubGhzPath
  button : ℕ
  deriving DecidableEq, Repr

def pathDown : ApiHalSubGhzPath → ApiHalSubGhzPath
  | .pathIsolate | .path433 => .pathIsolate
  | .path315 => .path433
  | .path868 => .path315

def pathUp : ApiHalSubGhzPath → ApiHalSubGhzPath
  | .pathIsolate => .path433
  | .path433 => .path315
  | .path315 | .path868 => .path868

def frequencyDown (frequency : ℕ) : ℕ := if frequency > 0 then frequency - 1 else frequency

def frequencyUp (frequency : ℕ) : ℕ :=
  if frequency < subghzFrequencies.length - 1 then frequency + 1 else frequency

def subghzFrequencies43392 : ℕ := 5

def TestModel.pressed (m : TestModel) : InputKey → TestModel
  | .left => { m with frequency := frequencyDown m.frequency }
  | .right => { m with frequency := frequencyUp m.frequency }
  | .down => { m with path := pathDown m.path }
  | .up => { m with path := pathUp m.path }
  | .ok => { m with status := if m.status = .tx then .rx else .tx }
  | .back => m

/-- What the views that test the radio differ in: the preset, and how they receive and send. -/
structure TestView where
  preset : ApiHalSubGhzPreset
  start : Status → Device → Device

variable (reset : Reset)

namespace TestView

variable (view : TestView)

/-- The part of the input callback behind the check for the key that goes back. -/
def input (event : InputEvent) (m : TestModel) (d : Device) : Option (TestModel × Device) := do
  let radio := apiHalSubghzIdle reset d.radio
  let (m, radio) ←
    if event.type = .short then do
      let m := m.pressed event.key
      let (_, real, radio) ← setFrequencyOf reset radio m.frequency
      some ({ m with realFrequency := real }, radio.apiHalSubghzSetPath reset m.path)
    else some (m, radio)
  some (m, view.start m.status { d with radio := radio })

def enter (d : Device) : Option (TestModel × Device) := do
  let radio := (d.radio.apiHalSubghzReset reset).apiHalSubghzLoadPreset reset view.preset
  let (_, real, radio) ← setFrequencyOf reset (radio.halGpioInit .input) subghzFrequencies43392
  some (⟨subghzFrequencies43392, real, .pathIsolate, .rx⟩,
    { d with radio := radio.apiHalSubghzRx reset, txFifo := [] })

end TestView

def subghzTestBasic : TestView where
  preset := .ookAsync
  start
    | .rx, d => { d with radio := (d.radio.halGpioInit .input).apiHalSubghzRx reset }
    | .tx, d =>
      let radio := (d.radio.halGpioInit .outputPushPull).halGpioWrite false
      { d with radio := radio.apiHalSubghzTx reset }

def subghzTestPacketData : List Byte :=
  [0x30, 0x46, 0x4C, 0x49, 0x50, 0x50, 0x45, 0x52, 0x20, 0x54, 0x45, 0x53, 0x54, 0x20, 0x50, 0x41,
    0x43, 0x4B, 0x45, 0x54, 0x20, 0x44, 0x41, 0x54, 0x41, 0x20, 0x41, 0x4E, 0x44, 0x20, 0x50, 0x41,
    0x44, 0x46, 0x4C, 0x49, 0x50, 0x50, 0x45, 0x52, 0x20, 0x54, 0x45, 0x53, 0x54, 0x20, 0x50, 0x41,
    0x43]

/-- The FIFO is flushed before the packet is written. -/
def apiHalSubghzWritePacket (data : List Byte) (d : Device) : Device :=
  { d with radio := writeFifo reset (d.radio.strobe reset 0x3B) data, txFifo := data }

def subghzTestPacket : TestView where
  preset := .twoFskPacket
  start
    | .rx, d => { d with radio := d.radio.apiHalSubghzRx reset }
    | .tx, d =>
      let d := apiHalSubghzWritePacket reset subghzTestPacketData d
      { d with radio := d.radio.apiHalSubghzTx reset }

namespace Static

def keys : List (List Byte) :=
  [[0x74, 0xBA, 0xDE, 0x00], [0x74, 0xBA, 0xDD, 0x00], [0x74, 0xBA, 0xDB, 0x00],
    [0xE3, 0x4A, 0x4E, 0x00]]

def ptOne : ℕ := 376
def ptZero : ℕ := ptOne * 3
def ptGuard : ℕ := 10600

def payload (key : List Byte) : List Pulse :=
  (List.range 24).flatMap fun i =>
    let value := (key.getD (i / 8) 0).getLsbD (7 - i % 8)
    [(false, if value then ptOne else ptZero), (true, if value then ptZero else ptOne)]

def code (key : List Byte) : List Pulse :=
  (List.range 20).flatMap fun _ => payload key ++ [(false, ptOne), (true, ptGuard)]

def pressed (m : StaticModel) : InputKey → StaticModel × Bool
  | .left => ({ m with frequency := frequencyDown m.frequency }, true)
  | .right => ({ m with frequency := frequencyUp m.frequency }, true)
  | .down => ({ m with button := if m.button > 0 then m.button - 1 else m.button }, false)
  | .up => ({ m with button := if m.button < 3 then m.button + 1 else m.button }, false)
  | _ => (m, false)

def reconfigured (m : StaticModel) (d : Device) : Option (StaticModel × Device) := do
  let (_, real, radio) ← setFrequencyOf reset (apiHalSubghzIdle reset d.radio) m.frequency
  some ({ m with realFrequency := real },
    { d with radio := (radio.apiHalSubghzSetPath reset m.path).apiHalSubghzTx reset })

def sendKey (m : StaticModel) (d : Device) : Option Device := do
  let key ← keys[m.button]?
  some { d with
    radio := d.radio.halGpioWrite true
    sent := d.sent ++ [(d.radio, code key)] }

/-- The part of the input callback behind the check for the key that goes back. -/
def input (event : InputEvent) (m : StaticModel) (d : Device) : Option (StaticModel × Device) := do
  let (m, reconfigure) ←
    if event.type = .short then do
      let (m, reconfigure) := pressed m event.key
      let entry ← subghzFrequencies[m.frequency]?
      some ({ m with path := entry.path }, reconfigure)
    else some (m, false)
  let (m, d) ← if reconfigure then reconfigured reset m d else some (m, d)
  if event.key = .ok ∧ event.type = .press then (sendKey m d).map fun d => (m, d)
  else some (m, d)

def enter (d : Device) : Option (StaticModel × Device) := do
  let radio := (d.radio.apiHalSubghzReset reset).apiHalSubghzLoadPreset reset .ookAsync
  let radio := (radio.halGpioInit .outputPushPull).halGpioWrite true
  let (entry, real, radio) ← setFrequencyOf reset radio subghzFrequencies43392
  some (⟨subghzFrequencies43392, real, entry.path, 0⟩,
    { d with
      radio := (radio.apiHalSubghzSetPath reset entry.path).apiHalSubghzTx reset
      txFifo := [] })

end Static

variable {reset} {radio radio' : SubghzRadio} {entry : SubGhzFrequency} {real : UInt32}

/-- The carrier is near an entry of the table, and so is the frequency that is shown. -/
structure Tuned (entry : SubGhzFrequency) (real : UInt32) (radio : SubghzRadio) : Prop where
  carrier : Within (15000 * 2 ^ 16) (2 ^ 16 * entry.frequency.toNat) radio.chip.tuning.carrier
  shown : Within 400 entry.frequency.toNat real.toNat

def Loaded (preset : ApiHalSubGhzPreset) (radio : SubghzRadio) : Prop :=
  ∀ setting ∈ preset.regs, radio.chip.regs setting.reg.toNat = setting.value

/-- The registers besides the frequency and the path are the same. -/
def SameRegs (radio radio' : SubghzRadio) : Prop :=
  ∀ address, address ≠ 0x00 → address ≠ 0x0D → address ≠ 0x0E → address ≠ 0x0F →
    radio'.chip.regs address = radio.chip.regs address

/-- What a view that tests the radio shows is what the radio does. Before the first key its path is
not chosen yet, and behind a packet the radio does nothing. -/
structure TestView.Shows (view : TestView) (m : TestModel) (radio : SubghzRadio) : Prop where
  tuned : ∃ entry, subghzFrequencies[m.frequency]? = some entry ∧ Tuned entry m.realFrequency radio
  mode : radio.mode = m.status.mode ∨ view.preset = .twoFskPacket ∧ radio.mode = .idle
  path : radio.Selects m.path ∨ m.status = .rx ∧ m.path = .pathIsolate
  preset : Loaded view.preset radio

/-- The pin and the FIFO as the chip needs them for its preset. -/
structure BasicReady (status : Status) (d : Device) : Prop where
  rx : status = .rx → d.radio.g0 = .input
  tx : status = .tx → d.radio.g0 = .outputPushPull ∧ d.radio.g0Level = false

structure PacketReady (status : Status) (d : Device) : Prop where
  g0 : d.radio.g0 = .input
  tx : status = .tx → d.txFifo = subghzTestPacketData

structure Static.Shows (m : StaticModel) (radio : SubghzRadio) : Prop where
  tuned : ∃ entry, subghzFrequencies[m.frequency]? = some entry ∧
    Tuned entry m.realFrequency radio ∧ m.path = entry.path
  mode : radio.mode = .tx
  path : radio.Selects m.path
  preset : Loaded .ookAsync radio
  g0 : radio.g0 = .outputPushPull
  g0Level : radio.g0Level = true
  button : m.button < Static.keys.length

/-- A key of the table is sent while the radio sends on the carrier and the path that are shown. -/
def SentByHand (radio : SubghzRadio) (pulses : List Pulse) : Prop :=
  ∃ m key, Static.Shows m radio ∧ Static.keys[m.button]? = some key ∧ pulses = Static.code key

theorem SameRegs.trans {radio'' : SubghzRadio} (h : SameRegs radio radio')
    (h' : SameRegs radio' radio'') : SameRegs radio radio'' :=
  fun address h0 hd he hf => (h' address h0 hd he hf).trans (h address h0 hd he hf)

theorem preset_elsewhere (preset : ApiHalSubGhzPreset) : ∀ setting ∈ preset.regs,
    setting.reg.toNat ≠ 0x00 ∧ setting.reg.toNat ≠ 0x0D ∧ setting.reg.toNat ≠ 0x0E ∧
      setting.reg.toNat ≠ 0x0F := by
  cases preset <;> decide

theorem Loaded.sameRegs {preset : ApiHalSubGhzPreset} (h : Loaded preset radio)
    (hregs : SameRegs radio radio') : Loaded preset radio' := by
  intro setting hsetting
  obtain ⟨h0, hd, he, hf⟩ := preset_elsewhere preset setting hsetting
  rw [hregs _ h0 hd he hf]
  exact h setting hsetting

theorem lastListed_preset (preset : ApiHalSubGhzPreset) : ∀ setting ∈ preset.regs,
    Cc1101Spi.lastListed preset.regs setting.reg.toNat = some setting.value := by
  cases preset <;> decide

theorem loaded_loadPreset (preset : ApiHalSubGhzPreset) (radio : SubghzRadio) :
    Loaded preset (radio.apiHalSubghzLoadPreset reset preset) := by
  intro setting hsetting
  rw [SubghzRadio.apiHalSubghzLoadPreset, Cc1101Spi.apiHalSubghzLoadPreset, Cc1101Spi.loaded_eq]
  simp only [lastListed_preset preset setting hsetting, Option.getD_some]

theorem near_subghzFrequencies : ∀ entry ∈ subghzFrequencies,
    Within (15000 * 2 ^ 16) (2 ^ 16 * entry.frequency.toNat)
        ((compensateRounding entry.frequency).toNat * 0xFFFF / 26000000 * 26000000) ∧
      Within 400 entry.frequency.toNat
        ((compensateRounding entry.frequency).toNat * 0xFFFF / 26000000 * 26000000 / 0xFFFF) := by
  simp only [Within]
  decide

def withFrequency (reset : Reset) (radio : SubghzRadio) (device : Cc1101) : SubghzRadio :=
  (((radio.writeReg reset 0x0D device.freq2.toBitVec).writeReg reset 0x0E
    device.freq1.toBitVec).writeReg reset 0x0F device.freq0.toBitVec).strobe reset 0x33

theorem withFrequency_chip (reset : Reset) (radio : SubghzRadio) (device : Cc1101) :
    (withFrequency reset radio device).chip =
      { radio.chip with
        regs := Function.update (Function.update (Function.update radio.chip.regs 0x0D
          device.freq2.toBitVec) 0x0E device.freq1.toBitVec) 0x0F device.freq0.toBitVec } := by
  have hwrite (reg data : Byte) (chip : Cc1101Spi.Chip) (hlt : reg.toNat < 0x2F) :
      Cc1101Spi.cc1101WriteReg reset reg data chip =
        { chip with regs := Function.update chip.regs reg.toNat data } :=
    Cc1101Spi.cc1101WriteReg_eq hlt data
  have hstrobe (radio : SubghzRadio) : (radio.strobe reset 0x33).chip = radio.chip := rfl
  rw [withFrequency, hstrobe]
  simp only [SubghzRadio.writeReg]
  rw [hwrite _ _ _ (by decide), hwrite _ _ _ (by decide), hwrite _ _ _ (by decide)]
  rfl

theorem freq_withFrequency (reset : Reset) (radio : SubghzRadio) (device : Cc1101) :
    (withFrequency reset radio device).chip.tuning.freq = device.freq := by
  rw [withFrequency_chip]
  rfl

/-- What setting the frequency leaves as it was. -/
structure Retuned (radio radio' : SubghzRadio) : Prop where
  mode : radio'.mode = .idle
  regs : SameRegs radio radio'
  rfSw0 : radio'.rfSw0 = radio.rfSw0
  iocfg2 : radio'.chip.regs 0x00 = radio.chip.regs 0x00
  g0 : radio'.g0 = radio.g0
  g0Level : radio'.g0Level = radio.g0Level

theorem retuned_withFrequency (reset : Reset) (radio : SubghzRadio) (device : Cc1101) :
    Retuned radio (withFrequency reset radio device) := by
  refine ⟨rfl, ?_, rfl, ?_, rfl, rfl⟩
  · intro address h0 hd he hf
    rw [withFrequency_chip]
    simp [hd, he, hf]
  · rw [withFrequency_chip]
    rfl

theorem exists_setFrequencyOf (reset : Reset) (radio : SubghzRadio) {index : ℕ}
    (hlt : index < subghzFrequencies.length) : ∃ entry real radio',
      setFrequencyOf reset radio index = some (entry, real, radio') ∧
      subghzFrequencies[index]? = some entry ∧ Tuned entry real radio' ∧
      Retuned radio radio' := by
  have hget : subghzFrequencies[index]? = some subghzFrequencies[index] :=
    List.getElem?_eq_getElem hlt
  obtain ⟨real, device, heq, hreal, hfreq⟩ := radio.chip.tuning.setFrequency_eq
    (compensateRounding subghzFrequencies[index].frequency)
  obtain ⟨hcarrier, hshown⟩ := near_subghzFrequencies _ (List.getElem_mem hlt)
  refine ⟨_, real, withFrequency reset radio device, ?_, hget, ⟨?_, ?_⟩,
    retuned_withFrequency reset radio device⟩
  · rw [setFrequencyOf, hget, Option.bind_eq_bind, Option.bind_some,
      SubghzRadio.apiHalSubghzSetFrequency, apiHalSubghzSetFrequency, heq]
    rfl
  · rwa [Cc1101.carrier, freq_withFrequency, hfreq]
  · rwa [hreal]

theorem writeFifo_chip (reset : Reset) (radio : SubghzRadio) (data : List Byte) :
    (writeFifo reset radio data).chip = radio.chip := by
  have hclock (s : Cc1101Spi.Session) (bytes : List Byte)
      (h : s.access = some ⟨false, true, 0x3F⟩) :
      (bytes.foldl (Cc1101Spi.Session.clock reset) s).chip = s.chip := by
    induction bytes generalizing s with
    | nil => rfl
    | cons byte bytes ih =>
      have hnext : s.clock reset byte = s.data ⟨false, true, 0x3F⟩ byte := by
        rw [Cc1101Spi.Session.clock, h]
      rw [List.foldl_cons, hnext, ih _ rfl]
      rfl
  rw [writeFifo, Cc1101Spi.transaction, Cc1101Spi.apiHalSpiBusTrx, List.take_of_length_le (by simp)]
  exact hclock _ data rfl

/-- What the views that test the radio rely on when they receive and send. -/
structure TestView.Starts (view : TestView) (P : Status → Device → Prop) : Prop where
  mode : ∀ status d, (view.start status d).radio.mode = status.mode
  chip : ∀ status d, (view.start status d).radio.chip = d.radio.chip
  rfSw0 : ∀ status d, (view.start status d).radio.rfSw0 = d.radio.rfSw0
  sent : ∀ status d, (view.start status d).sent = d.sent
  ready : ∀ status status' d radio, P status d → radio.g0 = d.radio.g0 →
    P status' (view.start status' { d with radio := radio })
  entered : ∀ d, d.radio.g0 = .input → P .rx d

theorem starts_subghzTestBasic : (subghzTestBasic reset).Starts BasicReady where
  mode status d := by cases status <;> rfl
  chip status d := by cases status <;> rfl
  rfSw0 status d := by cases status <;> rfl
  sent status d := by cases status <;> rfl
  ready status status' d radio _ _ := by
    cases status' with
    | rx => exact ⟨fun _ => rfl, nofun⟩
    | tx => exact ⟨nofun, fun _ => ⟨rfl, rfl⟩⟩
  entered d hg0 := ⟨fun _ => hg0, nofun⟩

structure Written (data : List Byte) (d d' : Device) : Prop where
  mode : d'.radio.mode = .tx
  chip : d'.radio.chip = d.radio.chip
  rfSw0 : d'.radio.rfSw0 = d.radio.rfSw0
  g0 : d'.radio.g0 = d.radio.g0
  txFifo : d'.txFifo = data
  sent : d'.sent = d.sent

theorem written (reset : Reset) (data : List Byte) (d : Device) :
    let d' := apiHalSubghzWritePacket reset data d
    Written data d { d' with radio := d'.radio.apiHalSubghzTx reset } :=
  ⟨rfl, writeFifo_chip reset _ data, rfl, rfl, rfl, rfl⟩

theorem starts_subghzTestPacket : (subghzTestPacket reset).Starts PacketReady where
  mode status d := by
    cases status with
    | rx => rfl
    | tx => exact (written reset subghzTestPacketData d).mode
  chip status d := by
    cases status with
    | rx => rfl
    | tx => exact (written reset subghzTestPacketData d).chip
  rfSw0 status d := by
    cases status with
    | rx => rfl
    | tx => exact (written reset subghzTestPacketData d).rfSw0
  sent status d := by
    cases status with
    | rx => rfl
    | tx => exact (written reset subghzTestPacketData d).sent
  ready status status' d radio h hg0 := by
    cases status' with
    | rx => exact ⟨hg0.trans h.g0, nofun⟩
    | tx =>
      have hwritten := written reset subghzTestPacketData { d with radio := radio }
      exact ⟨hwritten.g0.trans (hg0.trans h.g0), fun _ => hwritten.txFifo⟩
  entered d hg0 := ⟨hg0, nofun⟩

theorem frequencyUp_lt {frequency : ℕ} (h : frequency < subghzFrequencies.length) :
    frequencyUp frequency < subghzFrequencies.length := by
  rw [frequencyUp]
  split <;> omega

theorem frequencyDown_lt {frequency : ℕ} (h : frequency < subghzFrequencies.length) :
    frequencyDown frequency < subghzFrequencies.length := by
  rw [frequencyDown]
  split <;> omega

theorem TestModel.pressed_frequency_lt {m : TestModel} (key : InputKey)
    (h : m.frequency < subghzFrequencies.length) :
    (m.pressed key).frequency < subghzFrequencies.length := by
  cases key with
  | left => exact frequencyDown_lt h
  | right => exact frequencyUp_lt h
  | up => exact h
  | down => exact h
  | ok => exact h
  | back => exact h

theorem Tuned.of_regs (h : Tuned entry real radio)
    (hd : radio'.chip.regs 0x0D = radio.chip.regs 0x0D)
    (he : radio'.chip.regs 0x0E = radio.chip.regs 0x0E)
    (hf : radio'.chip.regs 0x0F = radio.chip.regs 0x0F) : Tuned entry real radio' := by
  have hfreq : radio'.chip.tuning.carrier = radio.chip.tuning.carrier := by
    simp only [Cc1101.carrier, Cc1101.freq, Cc1101Spi.Chip.tuning, hd, he, hf]
  refine ⟨?_, h.shown⟩
  rw [hfreq]
  exact h.carrier

theorem Tuned.of_chip (h : Tuned entry real radio) (hchip : radio'.chip = radio.chip) :
    Tuned entry real radio' :=
  h.of_regs (by rw [hchip]) (by rw [hchip]) (by rw [hchip])

theorem Loaded.of_chip {preset : ApiHalSubGhzPreset} (h : Loaded preset radio)
    (hchip : radio'.chip = radio.chip) : Loaded preset radio' :=
  fun setting hsetting => hchip ▸ h setting hsetting

theorem packetEnd_of_ookAsync (h : Loaded .ookAsync radio) : radio.packetEnd = radio := by
  have hctrl : radio.chip.regs 0x08 = 0x32 := 
    h ⟨0x08, 0x32, by decide, by decide⟩ (by simp [ApiHalSubGhzPreset.regs])
  rw [SubghzRadio.packetEnd, hctrl, if_neg (by decide)]

theorem packetEnd_chip (radio : SubghzRadio) : radio.packetEnd.chip = radio.chip := by
  rw [SubghzRadio.packetEnd]
  split <;> rfl

theorem selects_of_chip {path : ApiHalSubGhzPath} (h : radio.Selects path)
    (hchip : radio'.chip = radio.chip) (hsw : radio'.rfSw0 = radio.rfSw0) :
    radio'.Selects path :=
  ⟨hsw.trans h.1, (by rw [hchip]; exact h.2)⟩

theorem setPath_regs (reset : Reset) (radio : SubghzRadio) (path : ApiHalSubGhzPath) {address : ℕ}
    (h : address ≠ 0x00) :
    (radio.apiHalSubghzSetPath reset path).chip.regs address = radio.chip.regs address := by
  have hwrite := @Cc1101Spi.cc1101WriteReg_eq reset radio.chip 0x00 (by decide) path.iocfg2
  rw [SubghzRadio.apiHalSubghzSetPath, SubghzRadio.writeReg, hwrite]
  exact Function.update_of_ne h _ _

theorem sameRegs_setPath (reset : Reset) (radio : SubghzRadio) (path : ApiHalSubGhzPath) :
    SameRegs radio (radio.apiHalSubghzSetPath reset path) :=
  fun _ h0 _ _ _ => setPath_regs reset radio path h0

theorem exists_tuned (reset : Reset) (radio : SubghzRadio) {index : ℕ}
    (hlt : index < subghzFrequencies.length) : ∃ entry real radio',
      setFrequencyOf reset radio index = some (entry, real, radio') ∧
      subghzFrequencies[index]? = some entry ∧ ∀ path,
        let radio'' := radio'.apiHalSubghzSetPath reset path
        Tuned entry real radio'' ∧ radio''.Selects path ∧ SameRegs radio radio'' ∧
          radio''.g0 = radio.g0 ∧ radio''.g0Level = radio.g0Level := by
  obtain ⟨entry, real, radio', heq, hentry, htuned, hre⟩ := exists_setFrequencyOf reset radio hlt
  refine ⟨entry, real, radio', heq, hentry, ?_⟩
  intro path
  exact ⟨htuned.of_regs (setPath_regs reset radio' path (by decide))
      (setPath_regs reset radio' path (by decide)) (setPath_regs reset radio' path (by decide)),
    SubghzRadio.apiHalSubghzSetPath_selects path, hre.regs.trans (sameRegs_setPath reset radio' path),
    hre.g0, hre.g0Level⟩

namespace TestView

variable {view : TestView} {m : TestModel} {d : Device} {P : Status → Device → Prop}

theorem Shows.lt (h : view.Shows m radio) : m.frequency < subghzFrequencies.length := by
  obtain ⟨entry, hentry, -⟩ := h.tuned
  exact (List.getElem?_eq_some_iff.mp hentry).1

theorem Shows.packetEnd (h : view.Shows m radio) : view.Shows m radio.packetEnd where
  tuned := by
    obtain ⟨entry, hentry, htuned⟩ := h.tuned
    exact ⟨entry, hentry, htuned.of_chip (packetEnd_chip radio)⟩
  mode := by
    cases hpreset : view.preset with
    | ookAsync =>
      rw [packetEnd_of_ookAsync (hpreset ▸ h.preset)]
      simpa only [hpreset] using h.mode
    | twoFskPacket =>
      rw [SubghzRadio.packetEnd]
      split
      · refine .inr ⟨rfl, ?_⟩
        rcases h.mode with hmode | ⟨-, hmode⟩
        · rw [hmode]
          cases m.status <;> rfl
        · rw [hmode]
          rfl
      · simpa only [hpreset] using h.mode
  path := h.path.imp_left fun hpath => selects_of_chip hpath (packetEnd_chip radio) (by
    rw [SubghzRadio.packetEnd]
    split <;> rfl)
  preset := h.preset.of_chip (packetEnd_chip radio)

theorem input_short {event : InputEvent} (htype : event.type = .short)
    (heq : setFrequencyOf reset (apiHalSubghzIdle reset d.radio) (m.pressed event.key).frequency =
      some (entry, real, radio)) :
    view.input reset event m d = some ({ m.pressed event.key with realFrequency := real },
      view.start (m.pressed event.key).status
        { d with radio := radio.apiHalSubghzSetPath reset (m.pressed event.key).path }) := by
  simp only [input, htype, heq]
  rfl

theorem input_other {event : InputEvent} (htype : event.type ≠ .short) :
    view.input reset event m d =
      some (m, view.start m.status { d with radio := apiHalSubghzIdle reset d.radio }) := by
  simp only [input, htype]
  rfl

theorem exists_input (hview : view.Starts P) (h : view.Shows m d.radio) (hready : P m.status d)
    (event : InputEvent) : ∃ m' d', view.input reset event m d = some (m', d') ∧
      view.Shows m' d'.radio ∧ d'.radio.mode = m'.status.mode ∧ P m'.status d' ∧
        d'.sent = d.sent := by
  by_cases htype : event.type = .short
  · obtain ⟨entry, real, radio, heq, hentry, hradio⟩ := exists_tuned reset
      (apiHalSubghzIdle reset d.radio) (m.pressed_frequency_lt event.key h.lt)
    obtain ⟨htuned, hpath, hregs, hg0, -⟩ := hradio (m.pressed event.key).path
    refine ⟨_, _, input_short htype heq, ⟨⟨entry, hentry, ?_⟩, .inl (hview.mode _ _), .inl ?_, ?_⟩,
      hview.mode _ _, hview.ready _ _ d _ hready hg0, hview.sent _ _⟩
    · exact htuned.of_chip (hview.chip _ _)
    · exact selects_of_chip hpath (hview.chip _ _) (hview.rfSw0 _ _)
    · exact (h.preset.sameRegs hregs).of_chip (hview.chip _ _)
  · obtain ⟨entry, hentry, htuned⟩ := h.tuned
    refine ⟨_, _, input_other htype, ⟨⟨entry, hentry, ?_⟩, .inl (hview.mode _ _), ?_, ?_⟩,
      hview.mode _ _, hview.ready _ _ d _ hready rfl, hview.sent _ _⟩
    · exact htuned.of_chip (hview.chip _ _)
    · exact h.path.imp_left fun hpath => selects_of_chip hpath (hview.chip _ _) (hview.rfSw0 _ _)
    · exact h.preset.of_chip (hview.chip _ _)

theorem exists_enter (hview : view.Starts P) (d : Device) : ∃ m d',
    view.enter reset d = some (m, d') ∧ view.Shows m d'.radio ∧ m.status = .rx ∧
      P m.status d' ∧ d'.sent = d.sent := by
  have hlt : subghzFrequencies43392 < subghzFrequencies.length := by decide
  let radio := (d.radio.apiHalSubghzReset reset).apiHalSubghzLoadPreset reset view.preset
  obtain ⟨entry, real, radio', heq, hentry, htuned, hre⟩ :=
    exists_setFrequencyOf reset (radio.halGpioInit .input) hlt
  have hloaded : Loaded view.preset (radio.halGpioInit .input) := loaded_loadPreset _ _
  have henter : view.enter reset d = some (⟨subghzFrequencies43392, real, .pathIsolate, .rx⟩,
      { d with radio := radio'.apiHalSubghzRx reset, txFifo := [] }) := by
    simp only [enter, radio] at heq ⊢
    rw [heq]
    rfl
  exact ⟨_, _, henter, ⟨⟨entry, hentry, htuned.of_chip rfl⟩, .inl rfl, .inr ⟨rfl, rfl⟩,
    (hloaded.sameRegs hre.regs).of_chip rfl⟩, rfl, hview.entered _ hre.g0, rfl⟩

end TestView

namespace Static

variable {m : StaticModel} {d : Device}

theorem Shows.lt (h : Shows m radio) : m.frequency < subghzFrequencies.length := by
  obtain ⟨entry, hentry, -⟩ := h.tuned
  exact (List.getElem?_eq_some_iff.mp hentry).1

theorem pressed_frequency_lt (key : InputKey) (h : m.frequency < subghzFrequencies.length) :
    (pressed m key).1.frequency < subghzFrequencies.length := by
  cases key with
  | left => exact frequencyDown_lt h
  | right => exact frequencyUp_lt h
  | up => exact h
  | down => exact h
  | ok => exact h
  | back => exact h

theorem pressed_button_lt (key : InputKey) (h : m.button < keys.length) :
    (pressed m key).1.button < keys.length := by
  have hlen : keys.length = 4 := rfl
  cases key with
  | up =>
    simp only [pressed]
    split <;> omega
  | down =>
    simp only [pressed]
    split <;> omega
  | left => exact h
  | right => exact h
  | ok => exact h
  | back => exact h

theorem pressed_of_not_reconfigure (key : InputKey) (h : (pressed m key).2 = false) :
    (pressed m key).1.frequency = m.frequency ∧
      (pressed m key).1.realFrequency = m.realFrequency := by
  cases key with
  | left => cases h
  | right => cases h
  | up => exact ⟨rfl, rfl⟩
  | down => exact ⟨rfl, rfl⟩
  | ok => exact ⟨rfl, rfl⟩
  | back => exact ⟨rfl, rfl⟩

theorem exists_reconfigured (reset : Reset) (m : StaticModel) (d : Device) (hpreset : Loaded .ookAsync d.radio)
    (hg0 : d.radio.g0 = .outputPushPull) (hlevel : d.radio.g0Level = true)
    (hentry : subghzFrequencies[m.frequency]? = some entry) (hpath : m.path = entry.path)
    (hbutton : m.button < keys.length) : ∃ m' d', reconfigured reset m d = some (m', d') ∧
      Shows m' d'.radio ∧ d'.sent = d.sent := by
  obtain ⟨entry', real, radio, heq, hentry', hradio⟩ := exists_tuned reset
    (apiHalSubghzIdle reset d.radio) (List.getElem?_eq_some_iff.mp hentry).1
  obtain rfl := Option.some.inj (hentry.symm.trans hentry')
  obtain ⟨htuned, hselects, hregs, hg0', hlevel'⟩ := hradio m.path
  have hset : reconfigured reset m d = some ({ m with realFrequency := real },
      { d with radio := (radio.apiHalSubghzSetPath reset m.path).apiHalSubghzTx reset }) := by
    rw [reconfigured, heq]
    rfl
  exact ⟨_, _, hset, ⟨⟨entry, hentry, htuned.of_chip rfl, hpath⟩, rfl,
    selects_of_chip hselects rfl rfl, (hpreset.sameRegs hregs).of_chip rfl, hg0'.trans hg0,
    hlevel'.trans hlevel, hbutton⟩, rfl⟩

/-- A key leaves the view with a radio that does what is shown, and what is sent by hand is a key
of the table. -/
theorem exists_input (h : Shows m d.radio) (event : InputEvent)
    (hsent : ∀ x ∈ d.sent, SentByHand x.1 x.2) : ∃ m' d', input reset event m d = some (m', d') ∧
      Shows m' d'.radio ∧ ∀ x ∈ d'.sent, SentByHand x.1 x.2 := by
  by_cases htype : event.type = .short
  · have hpress : ¬(event.key = .ok ∧ event.type = .press) := by simp [htype]
    have hbutton := pressed_button_lt event.key h.button
    obtain ⟨entry', hentry⟩ : ∃ entry, subghzFrequencies[(pressed m event.key).1.frequency]? =
        some entry := ⟨_, List.getElem?_eq_getElem (pressed_frequency_lt event.key h.lt)⟩
    generalize hpressed : pressed m event.key = p at hbutton hentry
    obtain ⟨m', reconfigure⟩ := p
    cases reconfigure with
    | false =>
      obtain ⟨hfrequency, hreal⟩ := pressed_of_not_reconfigure event.key (by rw [hpressed])
      rw [hpressed] at hfrequency hreal
      obtain ⟨entry, hentry', htuned, hpath⟩ := h.tuned
      dsimp only at hfrequency hreal hentry
      rw [hfrequency, hentry'] at hentry
      refine ⟨{ m' with path := entry.path }, d, ?_, ⟨⟨entry, ?_, ?_, rfl⟩, h.mode, ?_, h.preset,
        h.g0, h.g0Level, hbutton⟩, hsent⟩
      · rw [input, if_pos htype, hpressed]
        simp only [hfrequency, hentry', Option.bind_eq_bind, Option.bind_some, Bool.false_eq_true,
          if_false, hpress]
      · rwa [hfrequency]
      · rwa [hreal]
      · exact hpath ▸ h.path
    | true =>
      obtain ⟨m'', d', heq, hshows, hsent'⟩ := exists_reconfigured reset
        { m' with path := entry'.path } d h.preset h.g0 h.g0Level hentry rfl hbutton
      refine ⟨m'', d', ?_, hshows, by rwa [hsent']⟩
      rw [input, if_pos htype, hpressed]
      simp only [hentry, Option.bind_eq_bind, Option.bind_some, if_true, heq, if_false, hpress]
  · by_cases hpress : event.key = .ok ∧ event.type = .press
    · obtain ⟨key, hkey⟩ : ∃ key, keys[m.button]? = some key :=
        ⟨_, List.getElem?_eq_getElem h.button⟩
      have heq : input reset event m d = some (m, { d with
          radio := d.radio.halGpioWrite true
          sent := d.sent ++ [(d.radio, code key)] }) := by
        rw [input, if_neg htype]
        simp only [Option.bind_eq_bind, Option.bind_some, Bool.false_eq_true, if_false, hpress,
          and_self, if_true, sendKey, hkey, Option.map_some]
      obtain ⟨entry, hentry, htuned, hpath⟩ := h.tuned
      refine ⟨m, _, heq, ⟨⟨entry, hentry, htuned.of_chip rfl, hpath⟩, h.mode, h.path, h.preset,
        h.g0, rfl, h.button⟩, ?_⟩
      intro x hx
      rcases List.mem_append.mp hx with hx | hx
      · exact hsent x hx
      · rw [List.mem_singleton.mp hx]
        exact ⟨m, key, h, hkey, rfl⟩
    · refine ⟨m, d, ?_, h, hsent⟩
      rw [input, if_neg htype]
      simp only [Option.bind_eq_bind, Option.bind_some, Bool.false_eq_true, if_false, hpress]

theorem exists_enter (d : Device) : ∃ m d', enter reset d = some (m, d') ∧ Shows m d'.radio ∧
    d'.sent = d.sent := by
  have hlt : subghzFrequencies43392 < subghzFrequencies.length := by decide
  let radio := (d.radio.apiHalSubghzReset reset).apiHalSubghzLoadPreset reset .ookAsync
  obtain ⟨entry, real, radio', heq, hentry, hradio⟩ :=
    exists_tuned reset ((radio.halGpioInit .outputPushPull).halGpioWrite true) hlt
  obtain ⟨htuned, hselects, hregs, hg0, hlevel⟩ := hradio entry.path
  have hloaded : Loaded .ookAsync ((radio.halGpioInit .outputPushPull).halGpioWrite true) :=
    loaded_loadPreset _ _
  have henter : enter reset d = some (⟨subghzFrequencies43392, real, entry.path, 0⟩,
      { d with
        radio := (radio'.apiHalSubghzSetPath reset entry.path).apiHalSubghzTx reset
        txFifo := [] }) := by
    simp only [enter, radio] at heq ⊢
    rw [heq]
    rfl
  exact ⟨_, _, henter, ⟨⟨entry, hentry, htuned.of_chip rfl, rfl⟩, rfl,
    selects_of_chip hselects rfl rfl, (hloaded.sameRegs hregs).of_chip rfl, hg0, hlevel,
    (by decide : 0 < keys.length)⟩, rfl⟩

end Static

end FlipperZero.SubGhz
