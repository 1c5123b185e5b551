import Mathlib.Data.Fintype.Defs
import Mathlib.Data.List.FinRange
import Mathlib.Logic.Function.Basic

/-! # Initialising a pin

A call configures one pin through the functions of the low-level driver, which is not in the
repository. The driver acts on registers as documented; a pin with its interrupt line is a part of
them, on which the calls act alone.
-/

namespace FlipperZero.Firmware.GpioInit

inductive Port where
  | a
  | b
  | c
  | d
  | e
  | h
deriving DecidableEq, Repr

/-- The modes from `interruptRise` on are those of the interrupt line. -/
inductive GpioMode where
  | input
  | outputPushPull
  | outputOpenDrain
  | altFunctionPushPull
  | altFunctionOpenDrain
  | analog
  | interruptRise
  | interruptFall
  | interruptRiseFall
  | eventRise
  | eventFall
  | eventRiseFall
deriving DecidableEq, Repr

inductive GpioPull where
  | no
  | up
  | down
deriving DecidableEq, Repr

inductive GpioSpeed where
  | low
  | medium
  | high
  | veryHigh
deriving DecidableEq, Repr

/-- The number of an alternate function; the last one is a dummy. -/
abbrev GpioAltFn := Fin 17

def gpioAltFnUnused : GpioAltFn := 16

structure GpioPin where
  port : Port
  num : Fin 16
deriving DecidableEq, Repr

namespace GpioPin

/-- The one bit of `pin`. -/
def mask (gpio : GpioPin) : BitVec 16 := 1#16 <<< gpio.num.val

end GpioPin

namespace GpioMode

/-- The modes from `interruptRise` on. -/
def isExti : GpioMode → Bool
  | interruptRise | interruptFall | interruptRiseFall => true
  | eventRise | eventFall | eventRiseFall => true
  | _ => false

def isAlt (mode : GpioMode) : Bool := mode = .altFunctionPushPull ∨ mode = .altFunctionOpenDrain

end GpioMode

inductive LlMode where
  | input
  | output
  | alternate
  | analog
deriving DecidableEq, Repr

inductive LlOutput where
  | pushPull
  | openDrain
deriving DecidableEq, Repr

/-- The functions of the low-level driver, on registers of some type. Its speeds and pulls are those
of the calls. -/
structure LowLevel (R : Type) where
  setPinSpeed : Port → BitVec 16 → GpioSpeed → R → R
  setPinPull : Port → BitVec 16 → GpioPull → R → R
  setPinMode : Port → BitVec 16 → LlMode → R → R
  setPinOutputType : Port → BitVec 16 → LlOutput → R → R
  setAFPin_0_7 : Port → BitVec 16 → ℕ → R → R
  setAFPin_8_15 : Port → BitVec 16 → ℕ → R → R
  setEXTISource : Port → Fin 16 → R → R
  getEXTISource : Fin 16 → R → Port
  isEnabledIT : Fin 16 → R → Bool
  enableIT : Fin 16 → R → R
  disableIT : Fin 16 → R → R
  enableEvent : Fin 16 → R → R
  enableRisingTrig : Fin 16 → R → R
  disableRisingTrig : Fin 16 → R → R
  enableFallingTrig : Fin 16 → R → R
  disableFallingTrig : Fin 16 → R → R

/-- The line of the first bit that `GPIO_PIN_MAP` compares with, or the last line. -/
def getEXTILine (pin : BitVec 16) : Fin 16 :=
  ((List.finRange 15).find? fun k => pin = 1#16 <<< k.val).elim 15 Fin.castSucc

def halGpioGetPinNum (pin : BitVec 16) : ℕ :=
  ((List.range 16).find? fun k => pin &&& 1#16 <<< k ≠ 0#16).getD 16

section Init

variable {R S : Type} (ll : LowLevel R) (gpio : GpioPin)

/-- What a mode from `interruptRise` on sets. -/
def initExti (mode : GpioMode) (r : R) : R :=
  let line := getEXTILine gpio.mask
  let r := ll.setPinMode gpio.port gpio.mask .input r
  let r := ll.setEXTISource gpio.port line r
  let r := if mode = .interruptRise ∨ mode = .interruptRiseFall then
    ll.enableRisingTrig line (ll.enableIT line r) else r
  let r := if mode = .interruptFall ∨ mode = .interruptRiseFall then
    ll.enableFallingTrig line (ll.enableIT line r) else r
  let r := if mode = .eventRise ∨ mode = .interruptRiseFall then
    ll.enableRisingTrig line (ll.enableEvent line r) else r
  if mode = .eventFall ∨ mode = .interruptRiseFall then
    ll.enableFallingTrig line (ll.enableEvent line r) else r

/-- Disable the interrupt of the pin if it was set. -/
def disableExti (r : R) : R :=
  let line := getEXTILine gpio.mask
  if ll.getEXTISource line r = gpio.port ∧ ll.isEnabledIT line r then
    ll.disableFallingTrig line (ll.disableRisingTrig line (ll.disableIT line r))
  else r

def initMode (mode : GpioMode) (r : R) : R :=
  if mode = .input then ll.setPinMode gpio.port gpio.mask .input r
  else if mode = .outputPushPull ∨ mode = .altFunctionPushPull then
    ll.setPinOutputType gpio.port gpio.mask .pushPull
      (ll.setPinMode gpio.port gpio.mask .output r)
  else if mode = .outputOpenDrain ∨ mode = .altFunctionOpenDrain then
    ll.setPinOutputType gpio.port gpio.mask .openDrain
      (ll.setPinMode gpio.port gpio.mask .output r)
  else if mode = .analog then ll.setPinMode gpio.port gpio.mask .analog r
  else r

def initAlternate (altFn : GpioAltFn) (r : R) : R :=
  let r := ll.setPinMode gpio.port gpio.mask .alternate r
  if halGpioGetPinNum gpio.mask < 8 then ll.setAFPin_0_7 gpio.port gpio.mask altFn r
  else ll.setAFPin_8_15 gpio.port gpio.mask altFn r

def halGpioInitEx (mode : GpioMode) (pull : GpioPull) (speed : GpioSpeed) (altFn : GpioAltFn)
    (r : R) : R :=
  let r := ll.setPinSpeed gpio.port gpio.mask speed r
  let r := ll.setPinPull gpio.port gpio.mask pull r
  let r := if mode.isExti then initExti ll gpio mode r
    else initMode ll gpio mode (disableExti ll gpio r)
  if mode = .altFunctionPushPull ∨ mode = .altFunctionOpenDrain then initAlternate ll gpio altFn r
  else r

def halGpioInit (mode : GpioMode) (_pull : GpioPull) (_speed : GpioSpeed) (r : R) : R :=
  halGpioInitEx ll gpio mode .no .low gpioAltFnUnused r

/-- A call: `hal_gpio_init` asserts that the mode is no alternate one, and an alternate mode comes
with an alternate function. -/
inductive GpioCall where
  | init (mode : GpioMode) (pull : GpioPull) (speed : GpioSpeed) (h : mode.isAlt = false)
  | initEx (mode : GpioMode) (pull : GpioPull) (speed : GpioSpeed) (altFn : GpioAltFn)
      (h : mode.isAlt = true → altFn ≠ gpioAltFnUnused)
deriving DecidableEq

def GpioCall.run : GpioCall → R → R
  | .init mode pull speed _ => halGpioInit ll gpio mode pull speed
  | .initEx mode pull speed altFn _ => halGpioInitEx ll gpio mode pull speed altFn

def runCalls (calls : List GpioCall) (r : R) : R :=
  calls.foldl (fun r call => call.run ll gpio r) r

end Init

section Simulation

variable {R S : Type} {ll : LowLevel R} {ll' : LowLevel S} {gpio : GpioPin} {f : R → S}

theorem getEXTILine_mask : getEXTILine gpio.mask = gpio.num := by
  have hline : ∀ num : Fin 16, getEXTILine (1#16 <<< num.val) = num := by decide
  exact hline gpio.num

theorem halGpioGetPinNum_mask : halGpioGetPinNum gpio.mask = gpio.num := by
  have hnum : ∀ num : Fin 16, halGpioGetPinNum (1#16 <<< num.val) = num := by decide
  exact hnum gpio.num

theorem getLsbD_mask {n : Fin 16} : gpio.mask.getLsbD n = decide (n = gpio.num) := by
  have hmask : ∀ num n : Fin 16, (1#16 <<< num.val).getLsbD n = decide (n = num) := by decide
  exact hmask gpio.num n

/-- Two drivers act alike on a pin and its line; an alternate function is one of 16, set by the
function for the lower or the upper pins. -/
structure Simulates (ll : LowLevel R) (ll' : LowLevel S) (gpio : GpioPin) (f : R → S) : Prop where
  setPinSpeed : ∀ r v, f (ll.setPinSpeed gpio.port gpio.mask v r) =
    ll'.setPinSpeed gpio.port gpio.mask v (f r)
  setPinPull : ∀ r v, f (ll.setPinPull gpio.port gpio.mask v r) =
    ll'.setPinPull gpio.port gpio.mask v (f r)
  setPinMode : ∀ r v, f (ll.setPinMode gpio.port gpio.mask v r) =
    ll'.setPinMode gpio.port gpio.mask v (f r)
  setPinOutputType : ∀ r v, f (ll.setPinOutputType gpio.port gpio.mask v r) =
    ll'.setPinOutputType gpio.port gpio.mask v (f r)
  setAFPin_0_7 : ∀ r n, gpio.num.val < 8 → n < 16 →
    f (ll.setAFPin_0_7 gpio.port gpio.mask n r) = ll'.setAFPin_0_7 gpio.port gpio.mask n (f r)
  setAFPin_8_15 : ∀ r n, 8 ≤ gpio.num.val → n < 16 →
    f (ll.setAFPin_8_15 gpio.port gpio.mask n r) = ll'.setAFPin_8_15 gpio.port gpio.mask n (f r)
  setEXTISource : ∀ r, f (ll.setEXTISource gpio.port gpio.num r) =
    ll'.setEXTISource gpio.port gpio.num (f r)
  getEXTISource : ∀ r, ll.getEXTISource gpio.num r = ll'.getEXTISource gpio.num (f r)
  isEnabledIT : ∀ r, ll.isEnabledIT gpio.num r = ll'.isEnabledIT gpio.num (f r)
  enableIT : ∀ r, f (ll.enableIT gpio.num r) = ll'.enableIT gpio.num (f r)
  disableIT : ∀ r, f (ll.disableIT gpio.num r) = ll'.disableIT gpio.num (f r)
  enableEvent : ∀ r, f (ll.enableEvent gpio.num r) = ll'.enableEvent gpio.num (f r)
  enableRisingTrig : ∀ r, f (ll.enableRisingTrig gpio.num r) = ll'.enableRisingTrig gpio.num (f r)
  disableRisingTrig : ∀ r,
    f (ll.disableRisingTrig gpio.num r) = ll'.disableRisingTrig gpio.num (f r)
  enableFallingTrig : ∀ r,
    f (ll.enableFallingTrig gpio.num r) = ll'.enableFallingTrig gpio.num (f r)
  disableFallingTrig : ∀ r,
    f (ll.disableFallingTrig gpio.num r) = ll'.disableFallingTrig gpio.num (f r)

theorem Simulates.initExti (h : Simulates ll ll' gpio f) (mode : GpioMode) (r : R) :
    f (initExti ll gpio mode r) = GpioInit.initExti ll' gpio mode (f r) := by
  simp only [GpioInit.initExti, getEXTILine_mask, apply_ite f, h.setPinMode, h.setEXTISource,
    h.enableIT, h.enableEvent, h.enableRisingTrig, h.enableFallingTrig]

theorem Simulates.disableExti (h : Simulates ll ll' gpio f) (r : R) :
    f (disableExti ll gpio r) = GpioInit.disableExti ll' gpio (f r) := by
  simp only [GpioInit.disableExti, getEXTILine_mask, apply_ite f, h.getEXTISource, h.isEnabledIT,
    h.disableIT, h.disableRisingTrig, h.disableFallingTrig]

theorem Simulates.initMode (h : Simulates ll ll' gpio f) (mode : GpioMode) (r : R) :
    f (initMode ll gpio mode r) = GpioInit.initMode ll' gpio mode (f r) := by
  simp only [GpioInit.initMode, apply_ite f, h.setPinMode, h.setPinOutputType]

theorem Simulates.initAlternate (h : Simulates ll ll' gpio f) {altFn : GpioAltFn}
    (hfn : altFn ≠ gpioAltFnUnused) (r : R) :
    f (initAlternate ll gpio altFn r) = GpioInit.initAlternate ll' gpio altFn (f r) := by
  have hlt : altFn.val < 16 := Nat.lt_of_le_of_ne (Nat.le_of_lt_succ altFn.isLt) fun heq =>
    hfn (Fin.ext heq)
  simp only [GpioInit.initAlternate, halGpioGetPinNum_mask]
  split
  · next hlow => rw [h.setAFPin_0_7 _ _ hlow hlt, h.setPinMode]
  · next hhigh => rw [h.setAFPin_8_15 _ _ (Nat.not_lt.mp hhigh) hlt, h.setPinMode]

theorem Simulates.halGpioInitEx (h : Simulates ll ll' gpio f) {mode : GpioMode} {altFn : GpioAltFn}
    (hfn : mode.isAlt = true → altFn ≠ gpioAltFnUnused) (pull : GpioPull) (speed : GpioSpeed)
    (r : R) : f (halGpioInitEx ll gpio mode pull speed altFn r) =
      GpioInit.halGpioInitEx ll' gpio mode pull speed altFn (f r) := by
  have hmode (r : R) : f (if mode.isExti then GpioInit.initExti ll gpio mode r
      else GpioInit.initMode ll gpio mode (GpioInit.disableExti ll gpio r)) =
      if mode.isExti then GpioInit.initExti ll' gpio mode (f r)
      else GpioInit.initMode ll' gpio mode (GpioInit.disableExti ll' gpio (f r)) := by
    rw [apply_ite f, h.initExti, h.initMode, h.disableExti]
  simp only [GpioInit.halGpioInitEx]
  split
  · next halt =>
    rw [h.initAlternate (hfn (decide_eq_true halt)), hmode, h.setPinPull, h.setPinSpeed]
  · rw [hmode, h.setPinPull, h.setPinSpeed]

theorem Simulates.run (h : Simulates ll ll' gpio f) (call : GpioCall) (r : R) :
    f (call.run ll gpio r) = call.run ll' gpio (f r) := by
  cases call with
  | init mode pull speed halt =>
    refine h.halGpioInitEx (fun htrue => ?_) .no .low r
    rw [halt] at htrue
    cases htrue
  | initEx mode pull speed altFn halt => exact h.halGpioInitEx halt pull speed r

theorem Simulates.runCalls (h : Simulates ll ll' gpio f) (calls : List GpioCall) (r : R) :
    f (runCalls ll gpio calls r) = GpioInit.runCalls ll' gpio calls (f r) := by
  induction calls generalizing r with
  | nil => rfl
  | cons call calls ih =>
    simp only [GpioInit.runCalls, List.foldl_cons] at ih ⊢
    rw [ih, h.run]

end Simulation

/-- The fields of the registers, for each pin and for each line. -/
structure Registers where
  mode : Port → Fin 16 → LlMode
  outputType : Port → Fin 16 → LlOutput
  pull : Port → Fin 16 → GpioPull
  speed : Port → Fin 16 → GpioSpeed
  alternate : Port → Fin 16 → BitVec 4
  it : Fin 16 → Bool
  event : Fin 16 → Bool
  rising : Fin 16 → Bool
  falling : Fin 16 → Bool
  source : Fin 16 → Port

def setPins {α : Type} (fields : Port → Fin 16 → α) (port : Port) (mask : BitVec 16) (v : α) :
    Port → Fin 16 → α :=
  fun q n => if q = port ∧ mask.getLsbD n then v else fields q n

/-- What the functions of the driver are documented to do. -/
def registers : LowLevel Registers where
  setPinSpeed port mask v r := { r with speed := setPins r.speed port mask v }
  setPinPull port mask v r := { r with pull := setPins r.pull port mask v }
  setPinMode port mask v r := { r with mode := setPins r.mode port mask v }
  setPinOutputType port mask v r := { r with outputType := setPins r.outputType port mask v }
  setAFPin_0_7 port mask n r :=
    { r with alternate := setPins r.alternate port mask (BitVec.ofNat 4 n) }
  setAFPin_8_15 port mask n r :=
    { r with alternate := setPins r.alternate port mask (BitVec.ofNat 4 n) }
  setEXTISource port line r := { r with source := Function.update r.source line port }
  getEXTISource line r := r.source line
  isEnabledIT line r := r.it line
  enableIT line r := { r with it := Function.update r.it line true }
  disableIT line r := { r with it := Function.update r.it line false }
  enableEvent line r := { r with event := Function.update r.event line true }
  enableRisingTrig line r := { r with rising := Function.update r.rising line true }
  disableRisingTrig line r := { r with rising := Function.update r.rising line false }
  enableFallingTrig line r := { r with falling := Function.update r.falling line true }
  disableFallingTrig line r := { r with falling := Function.update r.falling line false }

/-- The registers as they show in those of a driver that does what is documented. -/
def Documented {R : Type} (ll : LowLevel R) (view : R → Registers) : Prop :=
  ∀ gpio, Simulates ll registers gpio view

structure PinState where
  mode : LlMode
  outputType : LlOutput
  pull : GpioPull
  speed : GpioSpeed
  alternate : BitVec 4
  it : Bool
  event : Bool
  rising : Bool
  falling : Bool
  source : Port
deriving DecidableEq, Repr

def pinDriver (E : Type) : LowLevel (PinState × E) where
  setPinSpeed _ _ v s := ({ s.1 with speed := v }, s.2)
  setPinPull _ _ v s := ({ s.1 with pull := v }, s.2)
  setPinMode _ _ v s := ({ s.1 with mode := v }, s.2)
  setPinOutputType _ _ v s := ({ s.1 with outputType := v }, s.2)
  setAFPin_0_7 _ _ n s := ({ s.1 with alternate := BitVec.ofNat 4 n }, s.2)
  setAFPin_8_15 _ _ n s := ({ s.1 with alternate := BitVec.ofNat 4 n }, s.2)
  setEXTISource port _ s := ({ s.1 with source := port }, s.2)
  getEXTISource _ s := s.1.source
  isEnabledIT _ s := s.1.it
  enableIT _ s := ({ s.1 with it := true }, s.2)
  disableIT _ s := ({ s.1 with it := false }, s.2)
  enableEvent _ s := ({ s.1 with event := true }, s.2)
  enableRisingTrig _ s := ({ s.1 with rising := true }, s.2)
  disableRisingTrig _ s := ({ s.1 with rising := false }, s.2)
  enableFallingTrig _ s := ({ s.1 with falling := true }, s.2)
  disableFallingTrig _ s := ({ s.1 with falling := false }, s.2)

section Pin

variable (gpio : GpioPin)

def Registers.pin (r : Registers) : PinState where
  mode := r.mode gpio.port gpio.num
  outputType := r.outputType gpio.port gpio.num
  pull := r.pull gpio.port gpio.num
  speed := r.speed gpio.port gpio.num
  alternate := r.alternate gpio.port gpio.num
  it := r.it gpio.num
  event := r.event gpio.num
  rising := r.rising gpio.num
  falling := r.falling gpio.num
  source := r.source gpio.num

/-- The registers with the pin and its line made blank. -/
def Registers.elsewhere (r : Registers) : Registers where
  mode := setPins r.mode gpio.port gpio.mask .input
  outputType := setPins r.outputType gpio.port gpio.mask .pushPull
  pull := setPins r.pull gpio.port gpio.mask .no
  speed := setPins r.speed gpio.port gpio.mask .low
  alternate := setPins r.alternate gpio.port gpio.mask 0
  it := Function.update r.it gpio.num false
  event := Function.update r.event gpio.num false
  rising := Function.update r.rising gpio.num false
  falling := Function.update r.falling gpio.num false
  source := Function.update r.source gpio.num .a

variable {gpio} {α : Type} {fields : Port → Fin 16 → α} {v w : α}

theorem setPins_self : setPins fields gpio.port gpio.mask v gpio.port gpio.num = v :=
  if_pos ⟨rfl, by rw [getLsbD_mask, decide_eq_true rfl]⟩

theorem setPins_other {q : Port} {n : Fin 16} (h : ¬(q = gpio.port ∧ n = gpio.num)) :
    setPins fields gpio.port gpio.mask v q n = fields q n := by
  refine if_neg fun hmask => h ⟨hmask.1, ?_⟩
  rw [getLsbD_mask] at hmask
  exact of_decide_eq_true hmask.2

theorem setPins_setPins : setPins (setPins fields gpio.port gpio.mask w) gpio.port gpio.mask v =
    setPins fields gpio.port gpio.mask v := by
  funext q n
  unfold setPins
  split <;> rfl

theorem simulates_pin (gpio : GpioPin) :
    Simulates registers (pinDriver Registers) gpio fun r => (r.pin gpio, r.elsewhere gpio) := by
  constructor <;> intros <;>
    simp only [registers, pinDriver, Registers.pin, Registers.elsewhere, setPins_self,
      setPins_setPins, Function.update_self, Function.update_idem]

end Pin

namespace GpioMode

def ll : GpioMode → LlMode
  | outputPushPull | outputOpenDrain => .output
  | altFunctionPushPull | altFunctionOpenDrain => .alternate
  | analog => .analog
  | _ => .input

def output : GpioMode → Option LlOutput
  | outputPushPull | altFunctionPushPull => some .pushPull
  | outputOpenDrain | altFunctionOpenDrain => some .openDrain
  | _ => none

def interrupts (mode : GpioMode) : Bool :=
  mode = interruptRise ∨ mode = interruptFall ∨ mode = interruptRiseFall

def events (mode : GpioMode) : Bool := mode = eventRise ∨ mode = eventFall ∨ mode = eventRiseFall

def rises (mode : GpioMode) : Bool :=
  mode = interruptRise ∨ mode = interruptRiseFall ∨ mode = eventRise ∨ mode = eventRiseFall

def falls (mode : GpioMode) : Bool :=
  mode = interruptFall ∨ mode = interruptRiseFall ∨ mode = eventFall ∨ mode = eventRiseFall

end GpioMode

/-- The configuration of a pin, with an output type where its mode has one. -/
@[ext]
structure PinConfig where
  mode : LlMode
  outputType : Option LlOutput
  pull : GpioPull
  speed : GpioSpeed
  alternate : BitVec 4
  it : Bool
  event : Bool
  rising : Bool
  falling : Bool
  source : Port
deriving DecidableEq, Repr

namespace PinState

def config (s : PinState) : PinConfig where
  mode := s.mode
  outputType := if s.mode = .output ∨ s.mode = .alternate then some s.outputType else none
  pull := s.pull
  speed := s.speed
  alternate := s.alternate
  it := s.it
  event := s.event
  rising := s.rising
  falling := s.falling
  source := s.source

/-- After a reset no alternate function is set and the line is idle, with the first port. -/
def Reset (s : PinState) : Prop :=
  s.alternate = 0 ∧ s.it = false ∧ s.event = false ∧ s.rising = false ∧ s.falling = false ∧
    s.source = .a

/-- What `hal_gpio_init_ex` leaves of the fields of its pin: those of the line that the mode does
not set stay, unless an interrupt of the pin is disabled. -/
def initEx (gpio : GpioPin) (mode : GpioMode) (pull : GpioPull) (speed : GpioSpeed)
    (altFn : GpioAltFn) (s : PinState) : PinState :=
  let disables := !mode.isExti && (decide (s.source = gpio.port) && s.it)
  { mode := mode.ll
    outputType := mode.output.getD s.outputType
    pull := pull
    speed := speed
    alternate := if mode.isAlt then BitVec.ofNat 4 altFn else s.alternate
    it := (s.it || mode.interrupts) && !disables
    event := s.event || (mode.events && mode ≠ .eventRiseFall) || mode = .interruptRiseFall
    rising := (s.rising || (mode.rises && mode ≠ .eventRiseFall)) && !disables
    falling := (s.falling || (mode.falls && mode ≠ .eventRiseFall)) && !disables
    source := if mode.isExti then gpio.port else s.source }

def run (gpio : GpioPin) (s : PinState) : GpioCall → PinState
  | .init mode _ _ _ => s.initEx gpio mode .no .low gpioAltFnUnused
  | .initEx mode pull speed altFn _ => s.initEx gpio mode pull speed altFn

end PinState

theorem idle_of_not_isExti {mode : GpioMode} (h : mode.isExti = false) :
    mode.interrupts = false ∧ mode.events = false ∧ mode.rises = false ∧ mode.falls = false ∧
      mode ≠ .interruptRiseFall := by
  cases mode with
  | interruptRise | interruptFall | interruptRiseFall | eventRise | eventFall | eventRiseFall =>
    cases h
  | _ => exact ⟨rfl, rfl, rfl, rfl, GpioMode.noConfusion⟩

section Runs

variable {R E : Type} {ll : LowLevel R} {view : R → Registers} {gpio : GpioPin}

theorem initExti_pinDriver {mode : GpioMode} (hexti : mode.isExti = true) (s : PinState) (e : E) :
    initExti (pinDriver E) gpio mode (s, e) =
      ({ s with
          mode := .input
          it := s.it || mode.interrupts
          event := s.event || (mode.events && mode ≠ .eventRiseFall) || mode = .interruptRiseFall
          rising := s.rising || (mode.rises && mode ≠ .eventRiseFall)
          falling := s.falling || (mode.falls && mode ≠ .eventRiseFall)
          source := gpio.port }, e) := by
  cases mode with
  | interruptRise | interruptFall | interruptRiseFall | eventRise | eventFall | eventRiseFall =>
    simp [initExti, pinDriver, GpioMode.interrupts, GpioMode.events, GpioMode.rises, GpioMode.falls]
  | _ => cases hexti

theorem disableExti_pinDriver (s : PinState) (e : E) :
    disableExti (pinDriver E) gpio (s, e) =
      ({ s with
          it := s.it && !(decide (s.source = gpio.port) && s.it)
          rising := s.rising && !(decide (s.source = gpio.port) && s.it)
          falling := s.falling && !(decide (s.source = gpio.port) && s.it) }, e) := by
  by_cases hset : s.source = gpio.port ∧ s.it = true
  · simp [disableExti, pinDriver, hset]
  · have hkept : (decide (s.source = gpio.port) && s.it) = false := by simpa using hset
    simp only [disableExti, pinDriver, hkept, Bool.not_false, Bool.and_true]
    exact if_neg hset

theorem initMode_pinDriver {mode : GpioMode} (hexti : mode.isExti = false) (s : PinState) (e : E) :
    initMode (pinDriver E) gpio mode (s, e) =
      ({ s with
          mode := if mode.isAlt then .output else mode.ll
          outputType := mode.output.getD s.outputType }, e) := by
  cases mode with
  | interruptRise | interruptFall | interruptRiseFall | eventRise | eventFall | eventRiseFall =>
    cases hexti
  | _ => simp [initMode, pinDriver, GpioMode.isAlt, GpioMode.ll, GpioMode.output]

theorem initAlternate_pinDriver (altFn : GpioAltFn) (s : PinState) (e : E) :
    initAlternate (pinDriver E) gpio altFn (s, e) =
      ({ s with mode := .alternate, alternate := BitVec.ofNat 4 altFn }, e) := by
  unfold initAlternate
  exact ite_self _

theorem halGpioInitEx_pinDriver (mode : GpioMode) (pull : GpioPull) (speed : GpioSpeed)
    (altFn : GpioAltFn) (s : PinState) (e : E) :
    halGpioInitEx (pinDriver E) gpio mode pull speed altFn (s, e) =
      (s.initEx gpio mode pull speed altFn, e) := by
  have hdrive : (pinDriver E).setPinPull gpio.port gpio.mask pull
      ((pinDriver E).setPinSpeed gpio.port gpio.mask speed (s, e)) =
      ({ s with pull := pull, speed := speed }, e) := rfl
  unfold halGpioInitEx PinState.initEx
  simp only [hdrive]
  cases hexti : mode.isExti with
  | true =>
    have hplain : mode.ll = .input ∧ mode.output = none ∧ mode.isAlt = false := by
      cases mode with
      | interruptRise | interruptFall | interruptRiseFall | eventRise | eventFall | eventRiseFall =>
        exact ⟨rfl, rfl, rfl⟩
      | _ => cases hexti
    obtain ⟨hll, houtput, halt⟩ := hplain
    rw [if_pos rfl, initExti_pinDriver hexti, if_neg (of_decide_eq_false halt), hll, houtput, halt]
    simp
  | false =>
    obtain ⟨hinterrupts, hevents, hrises, hfalls, hne⟩ := idle_of_not_isExti hexti
    rw [if_neg Bool.false_ne_true, disableExti_pinDriver, initMode_pinDriver hexti, hinterrupts,
      hevents, hrises, hfalls]
    cases halt : mode.isAlt with
    | true =>
      have hll : mode.ll = .alternate := by
        rcases of_decide_eq_true halt with rfl | rfl <;> rfl
      rw [if_pos (of_decide_eq_true halt), initAlternate_pinDriver, hll]
      simp [hne]
    | false =>
      rw [if_neg (of_decide_eq_false halt)]
      simp [hne]

theorem run_pinDriver (call : GpioCall) (s : PinState) (e : E) :
    call.run (pinDriver E) gpio (s, e) = (s.run gpio call, e) := by
  cases call with
  | init mode pull speed h => exact halGpioInitEx_pinDriver mode .no .low gpioAltFnUnused s e
  | initEx mode pull speed altFn h => exact halGpioInitEx_pinDriver mode pull speed altFn s e

theorem runCalls_pinDriver (calls : List GpioCall) (s : PinState) (e : E) :
    runCalls (pinDriver E) gpio calls (s, e) = (calls.foldl (PinState.run gpio) s, e) := by
  induction calls generalizing s with
  | nil => rfl
  | cons call calls ih =>
    simp only [runCalls, List.foldl_cons, run_pinDriver] at ih ⊢
    exact ih _

variable (hll : Documented ll view)
include hll

theorem Documented.run (call : GpioCall) (r : R) :
    (view (call.run ll gpio r)).pin gpio = ((view r).pin gpio).run gpio call ∧
      (view (call.run ll gpio r)).elsewhere gpio = (view r).elsewhere gpio := by
  have hpin := (simulates_pin gpio).run call (view r)
  rw [run_pinDriver, ← (hll gpio).run] at hpin
  exact Prod.mk.inj hpin

theorem Documented.runCalls (calls : List GpioCall) (r : R) :
    (view (runCalls ll gpio calls r)).pin gpio =
        calls.foldl (PinState.run gpio) ((view r).pin gpio) ∧
      (view (GpioInit.runCalls ll gpio calls r)).elsewhere gpio = (view r).elsewhere gpio := by
  have hpin := (simulates_pin gpio).runCalls calls (view r)
  rw [runCalls_pinDriver, ← (hll gpio).runCalls] at hpin
  exact Prod.mk.inj hpin

end Runs

/-- The registers are the same for the other pins and the other lines. -/
structure SameElsewhere (gpio : GpioPin) (r r' : Registers) : Prop where
  mode : ∀ p n, ¬(p = gpio.port ∧ n = gpio.num) → r'.mode p n = r.mode p n
  outputType : ∀ p n, ¬(p = gpio.port ∧ n = gpio.num) → r'.outputType p n = r.outputType p n
  pull : ∀ p n, ¬(p = gpio.port ∧ n = gpio.num) → r'.pull p n = r.pull p n
  speed : ∀ p n, ¬(p = gpio.port ∧ n = gpio.num) → r'.speed p n = r.speed p n
  alternate : ∀ p n, ¬(p = gpio.port ∧ n = gpio.num) → r'.alternate p n = r.alternate p n
  it : ∀ n, n ≠ gpio.num → r'.it n = r.it n
  event : ∀ n, n ≠ gpio.num → r'.event n = r.event n
  rising : ∀ n, n ≠ gpio.num → r'.rising n = r.rising n
  falling : ∀ n, n ≠ gpio.num → r'.falling n = r.falling n
  source : ∀ n, n ≠ gpio.num → r'.source n = r.source n

section Elsewhere

variable {gpio : GpioPin} {r r' : Registers}

theorem sameElsewhere_of_eq (h : r'.elsewhere gpio = r.elsewhere gpio) :
    SameElsewhere gpio r r' := by
  have hpin {α : Type} {v : α} {fields fields' : Port → Fin 16 → α}
      (heq : setPins fields' gpio.port gpio.mask v = setPins fields gpio.port gpio.mask v)
      (p : Port) (n : Fin 16) (hne : ¬(p = gpio.port ∧ n = gpio.num)) : fields' p n = fields p n := by
    have hvalue := congrFun (congrFun heq p) n
    rwa [setPins_other hne, setPins_other hne] at hvalue
  have hline {α : Type} {v : α} {fields fields' : Fin 16 → α}
      (heq : Function.update fields' gpio.num v = Function.update fields gpio.num v) (n : Fin 16)
      (hne : n ≠ gpio.num) : fields' n = fields n := by
    have hvalue := congrFun heq n
    rwa [Function.update_of_ne hne, Function.update_of_ne hne] at hvalue
  constructor
  · exact hpin (congrArg Registers.mode h)
  · exact hpin (congrArg Registers.outputType h)
  · exact hpin (congrArg Registers.pull h)
  · exact hpin (congrArg Registers.speed h)
  · exact hpin (congrArg Registers.alternate h)
  · exact hline (congrArg Registers.it h)
  · exact hline (congrArg Registers.event h)
  · exact hline (congrArg Registers.rising h)
  · exact hline (congrArg Registers.falling h)
  · exact hline (congrArg Registers.source h)

end Elsewhere

namespace GpioCall

def mode : GpioCall → GpioMode
  | init mode _ _ _ | initEx mode _ _ _ _ => mode

def asked (gpio : GpioPin) (call : GpioCall) : PinConfig where
  mode := call.mode.ll
  outputType := call.mode.output
  pull :=
    match call with
    | init _ pull _ _ | initEx _ pull _ _ _ => pull
  speed :=
    match call with
    | init _ _ speed _ | initEx _ _ speed _ _ => speed
  alternate :=
    match call with
    | init _ _ _ _ => 0
    | initEx mode _ _ altFn _ => if mode.isAlt then BitVec.ofNat 4 altFn else 0
  it := call.mode.interrupts
  event := call.mode.events
  rising := call.mode.rises
  falling := call.mode.falls
  source := if call.mode.isExti then gpio.port else .a

/-- `hal_gpio_init` is asked for no pull and the low speed. -/
def Passed : GpioCall → Prop
  | init _ pull speed _ => pull = .no ∧ speed = .low
  | initEx _ _ _ _ _ => True

/-- What the calls before may have left of the line for a mode. -/
def LineKept (s : PinState) : GpioMode → Prop
  | .interruptRise => s.event = false ∧ s.falling = false
  | .interruptFall => s.event = false ∧ s.rising = false
  | .eventRise => s.it = false ∧ s.falling = false
  | .eventFall => s.it = false ∧ s.rising = false
  | .interruptRiseFall | .eventRiseFall => False
  | _ => s.event = false ∧ s.source = .a

/-- The condition on a call and on what the calls before it have left. -/
def Kept (s : PinState) (call : GpioCall) : Prop :=
  call.Passed ∧ (call.mode.isAlt = false → s.alternate = 0) ∧ LineKept s call.mode

end GpioCall

namespace PinState

variable {gpio : GpioPin} {s : PinState} {mode : GpioMode} {pull : GpioPull} {speed : GpioSpeed}
  {altFn : GpioAltFn}

/-- An enabled interrupt is that of the pin, and a trigger comes with an interrupt or an event. -/
structure Tracked (gpio : GpioPin) (s : PinState) : Prop where
  it : s.it = true → s.source = gpio.port
  rising : s.rising = true → s.it = true ∨ s.event = true
  falling : s.falling = true → s.it = true ∨ s.event = true

theorem Reset.tracked (h : s.Reset) : Tracked gpio s := by
  obtain ⟨-, hit, -, hrising, hfalling, -⟩ := h
  constructor
  · simp [hit]
  · simp [hrising]
  · simp [hfalling]

theorem Tracked.initEx_idle (h : Tracked gpio s) (hexti : mode.isExti = false) (pull : GpioPull)
    (speed : GpioSpeed) (altFn : GpioAltFn) :
    let s' := s.initEx gpio mode pull speed altFn
    s'.it = false ∧ s'.event = s.event ∧ s'.rising = (s.rising && !s.it) ∧
      s'.falling = (s.falling && !s.it) ∧ s'.source = s.source := by
  obtain ⟨hinterrupts, hevents, hrises, hfalls, hne⟩ := idle_of_not_isExti hexti
  have hdisables : (decide (s.source = gpio.port) && s.it) = s.it := by
    cases hit : s.it with
    | false => exact Bool.and_false _
    | true => simp [h.it hit]
  simp [PinState.initEx, hexti, hinterrupts, hevents, hrises, hfalls, hne, hdisables]

theorem Tracked.initEx (h : Tracked gpio s) :
    Tracked gpio (s.initEx gpio mode pull speed altFn) := by
  have hrising := h.rising
  have hfalling := h.falling
  cases hexti : mode.isExti with
  | false =>
    obtain ⟨hit', hevent', hrising', hfalling', -⟩ :=
      h.initEx_idle hexti pull speed altFn
    constructor
    · rw [hit']
      exact fun hfalse => absurd hfalse Bool.false_ne_true
    · rw [hrising', hevent']
      intro hr
      obtain ⟨hr, hi⟩ := Bool.and_eq_true_iff.mp hr
      exact .inr ((hrising hr).resolve_left (by simpa using hi))
    · rw [hfalling', hevent']
      intro hf
      obtain ⟨hf, hi⟩ := Bool.and_eq_true_iff.mp hf
      exact .inr ((hfalling hf).resolve_left (by simpa using hi))
  | true =>
    cases mode with
    | interruptRise | interruptFall | interruptRiseFall | eventRise | eventFall =>
      constructor
      · exact fun _ => rfl
      · simp [PinState.initEx, GpioMode.isExti, GpioMode.interrupts, GpioMode.events]
      · simp [PinState.initEx, GpioMode.isExti, GpioMode.interrupts, GpioMode.events]
    | eventRiseFall =>
      constructor
      · exact fun _ => rfl
      · simpa [PinState.initEx, GpioMode.isExti, GpioMode.interrupts] using hrising
      · simpa [PinState.initEx, GpioMode.isExti, GpioMode.interrupts] using hfalling
    | _ => cases hexti

theorem Tracked.run (h : Tracked gpio s) (call : GpioCall) : Tracked gpio (s.run gpio call) := by
  cases call with
  | init mode pull speed _ => exact h.initEx
  | initEx mode pull speed altFn _ => exact h.initEx

theorem Tracked.foldl (h : Tracked gpio s) (calls : List GpioCall) :
    Tracked gpio (calls.foldl (PinState.run gpio) s) := by
  induction calls generalizing s with
  | nil => exact h
  | cons call calls ih => exact ih (h.run call)

theorem line_initEx (h : Tracked gpio s) (hne : mode ≠ .eventRiseFall) (pull : GpioPull)
    (speed : GpioSpeed) (altFn : GpioAltFn) :
    (let s' := s.initEx gpio mode pull speed altFn
     s'.it = mode.interrupts ∧ s'.event = mode.events ∧ s'.rising = mode.rises ∧
      s'.falling = mode.falls ∧ s'.source = if mode.isExti then gpio.port else .a) ↔
    GpioCall.LineKept s mode := by
  cases hexti : mode.isExti with
  | false =>
    obtain ⟨hinterrupts, hevents, hrises, hfalls, -⟩ := idle_of_not_isExti hexti
    obtain ⟨hit', hevent', hrising', hfalling', hsource'⟩ := h.initEx_idle hexti pull speed altFn
    have hkept : GpioCall.LineKept s mode ↔ s.event = false ∧ s.source = .a := by
      cases mode with
      | interruptRise | interruptFall | interruptRiseFall | eventRise | eventFall
      | eventRiseFall => cases hexti
      | _ => exact Iff.rfl
    have htrigger {trigger : Bool} (htracked : trigger = true → s.it = true ∨ s.event = true)
        (hevent : s.event = false) : (trigger && !s.it) = false := by
      cases htrig : trigger with
      | false => rfl
      | true =>
        have hi := (htracked htrig).resolve_right (by simp [hevent])
        simp [hi]
    simp only [hit', hevent', hrising', hfalling', hsource', hinterrupts, hevents, hrises, hfalls,
      hkept, Bool.false_eq_true, if_false, true_and]
    constructor
    · rintro ⟨hevent, -, -, hsource⟩
      exact ⟨hevent, hsource⟩
    · rintro ⟨hevent, hsource⟩
      exact ⟨hevent, htrigger h.rising hevent, htrigger h.falling hevent, hsource⟩
  | true =>
    cases mode with
    | interruptRise | interruptFall | interruptRiseFall | eventRise | eventFall =>
      simp [PinState.initEx, GpioMode.isExti, GpioMode.interrupts, GpioMode.events, GpioMode.rises,
        GpioMode.falls, GpioCall.LineKept]
    | eventRiseFall => exact absurd rfl hne
    | _ => cases hexti

theorem config_initEx (h : Tracked gpio s) (hne : mode ≠ .eventRiseFall) {pull' : GpioPull}
    {speed' : GpioSpeed} {alternate : BitVec 4} :
    (s.initEx gpio mode pull speed altFn).config =
        ⟨mode.ll, mode.output, pull', speed', alternate, mode.interrupts, mode.events, mode.rises,
          mode.falls, if mode.isExti then gpio.port else .a⟩ ↔
      pull = pull' ∧ speed = speed' ∧
        (if mode.isAlt then BitVec.ofNat 4 altFn else s.alternate) = alternate ∧
        GpioCall.LineKept s mode := by
  have hline := line_initEx h hne pull speed altFn
  have houtput : (s.initEx gpio mode pull speed altFn).config.outputType = mode.output := by
    cases mode <;> rfl
  rw [PinConfig.ext_iff]
  constructor
  · rintro ⟨-, -, hpull, hspeed, halternate, hmode⟩
    exact ⟨hpull, hspeed, halternate, hline.mp hmode⟩
  · rintro ⟨hpull, hspeed, halternate, hkept⟩
    exact ⟨rfl, houtput, hpull, hspeed, halternate, hline.mpr hkept⟩

theorem config_run (h : Tracked gpio s) {call : GpioCall} (hne : call.mode ≠ .eventRiseFall) :
    (s.run gpio call).config = call.asked gpio ↔ call.Kept s := by
  cases call with
  | init mode pull speed halt =>
    refine (config_initEx h hne).trans ?_
    simp only [GpioCall.Kept, GpioCall.Passed, GpioCall.mode, halt, Bool.false_eq_true, if_false,
      true_implies, and_assoc, eq_comm]
  | initEx mode pull speed altFn halt =>
    refine (config_initEx h hne).trans ?_
    cases hmode : mode.isAlt <;>
      simp [GpioCall.Kept, GpioCall.Passed, GpioCall.mode, hmode]

theorem Reset.config_ne (h : s.Reset) {call : GpioCall} (hmode : call.mode = .eventRiseFall) :
    (s.run gpio call).config ≠ call.asked gpio := by
  obtain ⟨-, -, hevent, -⟩ := h
  have hidle (pull : GpioPull) (speed : GpioSpeed) (altFn : GpioAltFn) :
      (s.initEx gpio .eventRiseFall pull speed altFn).event = false := by
    simp [PinState.initEx, hevent]
  intro heq
  have hfield := congrArg PinConfig.event heq
  cases call with
  | init mode pull speed halt =>
    obtain rfl : mode = .eventRiseFall := hmode
    exact Bool.false_ne_true ((hidle .no .low gpioAltFnUnused).symm.trans hfield)
  | initEx mode pull speed altFn halt =>
    obtain rfl : mode = .eventRiseFall := hmode
    exact Bool.false_ne_true ((hidle pull speed altFn).symm.trans hfield)

theorem Reset.kept (h : s.Reset) {call : GpioCall} {s' : PinState} (hkept : call.Kept s') :
    call.Kept s := by
  obtain ⟨halternate, hit, hevent, hrising, hfalling, hsource⟩ := h
  obtain ⟨hpassed, -, hline⟩ := hkept
  refine ⟨hpassed, fun _ => halternate, ?_⟩
  cases hmode : call.mode with
  | interruptRise => exact ⟨hevent, hfalling⟩
  | interruptFall => exact ⟨hevent, hrising⟩
  | eventRise => exact ⟨hit, hfalling⟩
  | eventFall => exact ⟨hit, hrising⟩
  | interruptRiseFall | eventRiseFall =>
    rw [hmode] at hline
    exact hline
  | _ => exact ⟨hevent, hsource⟩

end PinState

section History

variable {R : Type} (ll : LowLevel R) (view : R → Registers) (gpio : GpioPin)

/-- The last call after a history of calls on a pin leaves the configuration that it asks for, the
same as on its own from the start, and nothing else is changed. -/
structure Independent (start : R) (history : List GpioCall) (call : GpioCall) : Prop where
  asked : ((view (runCalls ll gpio (history ++ [call]) start)).pin gpio).config = call.asked gpio
  single : ((view (runCalls ll gpio (history ++ [call]) start)).pin gpio).config =
    ((view (runCalls ll gpio [call] start)).pin gpio).config
  elsewhere : SameElsewhere gpio (view start) (view (runCalls ll gpio (history ++ [call]) start))

end History

/-- The initialisation of a pin after a reset is independent of the history exactly under the
condition on the last call and on what the calls before it have left of the pin. -/
theorem hal_gpio_init_history {R : Type} {ll : LowLevel R} {view : R → Registers}
    (hll : Documented ll view) (gpio : GpioPin) (start : R)
    (hreset : ((view start).pin gpio).Reset) (history : List GpioCall) (call : GpioCall) :
    Independent ll view gpio start history call ↔
      call.Kept ((view (runCalls ll gpio history start)).pin gpio) := by
  have hlast : (view (runCalls ll gpio (history ++ [call]) start)).pin gpio =
      ((view (runCalls ll gpio history start)).pin gpio).run gpio call := by
    rw [runCalls, List.foldl_append]
    exact (hll.run call _).1
  have hsingle : (view (runCalls ll gpio [call] start)).pin gpio =
      ((view start).pin gpio).run gpio call := (hll.run call start).1
  have htracked : PinState.Tracked gpio ((view (runCalls ll gpio history start)).pin gpio) := by
    rw [(hll.runCalls history start).1]
    exact hreset.tracked.foldl history
  constructor
  · rintro ⟨hasked, hsame, -⟩
    rw [hasked, hsingle] at hsame
    rw [hlast] at hasked
    exact (PinState.config_run htracked fun hmode => hreset.config_ne hmode hsame.symm).mp hasked
  · intro hkept
    have hne : call.mode ≠ .eventRiseFall := by
      intro hmode
      have hline := hkept.2.2
      rw [hmode] at hline
      exact hline
    have hasked := (PinState.config_run htracked hne).mpr hkept
    have hstart : PinState.Tracked gpio ((view start).pin gpio) := hreset.tracked
    have hsingle' := (PinState.config_run hstart hne).mpr (hreset.kept hkept)
    constructor
    · rw [hlast, hasked]
    · rw [hlast, hsingle, hasked, hsingle']
    · exact sameElsewhere_of_eq (hll.runCalls _ start).2

theorem registers_documented : Documented registers id := by
  intro gpio
  constructor <;> intros <;> rfl

def resetRegisters : Registers where
  mode _ _ := .analog
  outputType _ _ := .pushPull
  pull _ _ := .no
  speed _ _ := .low
  alternate _ _ := 0
  it _ := false
  event _ := false
  rising _ := false
  falling _ := false
  source _ := .a

/-- A pin that was an output becomes an interrupt for rising edges, with a pull. -/
theorem hal_gpio_init_history_rise : Independent registers id ⟨.b, 3⟩ resetRegisters
    [.init .outputOpenDrain .no .low rfl]
    (.initEx .interruptRise .up .low gpioAltFnUnused Bool.noConfusion) := by
  refine (hal_gpio_init_history registers_documented ⟨.b, 3⟩ resetRegisters
    ⟨rfl, rfl, rfl, rfl, rfl, rfl⟩ _ _).mpr ⟨trivial, fun _ => rfl, rfl, rfl⟩

/-- An interrupt for rising edges becomes one for falling edges, and still comes for rising ones. -/
theorem hal_gpio_init_history_fall : ¬∀ (gpio : GpioPin) (start : Registers),
    (start.pin gpio).Reset → ∀ (history : List GpioCall) (call : GpioCall),
      Independent registers id gpio start history call := by
  intro h
  have hfall := h ⟨.b, 3⟩ resetRegisters ⟨rfl, rfl, rfl, rfl, rfl, rfl⟩
    [.init .interruptRise .no .low rfl] (.init .interruptFall .no .low rfl)
  have hrising := congrArg PinConfig.rising hfall.asked
  exact absurd hrising (by decide)

end FlipperZero.Firmware.GpioInit
