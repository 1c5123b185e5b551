import FlipperZero.Firmware.Vcp
import FlipperZero.Lib.BoundedStream

/-! # The receiving side of the virtual COM port

The USB interrupts put the packets of the host into a stream, and a mark when the control line
raises or drops RTS. What does not fit is lost, and a flag remembers that.
-/

namespace FlipperZero.Firmware.Vcp

open Lib

structure RxPort where
  rxStream : BoundedStream UInt8 apiHalVcpRxBufferSize
  alive : Bool
  underrun : Bool

/-- The calls of the USB library that reach the stream or the flag. -/
inductive RxInterrupt where
  | init
  | deInit
  | controlLine (state : BitVec 8)
  | receive (buffer : List UInt8)
deriving DecidableEq, Repr

namespace RxPort

variable (p : RxPort)

def init : RxPort := ⟨.empty, false, false⟩

def rxCallback (buffer : List UInt8) : RxPort :=
  { p with
    rxStream := p.rxStream.send buffer
    underrun := if p.rxStream.sent buffer ≠ buffer.length then true else p.underrun }

def controlLine (state : BitVec 8) : RxPort :=
  if state &&& 0b10#8 ≠ 0 then
    if p.alive then p else { p with alive := true }.rxCallback [asciiSoh]
  else
    if p.alive then { p.rxCallback [asciiEot] with alive := false } else p

def interrupt : RxInterrupt → RxPort
  | .init => p
  | .deInit => { p with alive := false }
  | .controlLine state => p.controlLine state
  | .receive buffer => p.rxCallback buffer

/-- `api_hal_vcp_rx`, blocked while the stream is empty. -/
def rx (size : ℕ) : Option (List UInt8 × RxPort) :=
  (p.rxStream.receive size).map fun r => (r.1, { p with rxStream := r.2 })

/-- `api_hal_vcp_rx_with_timeout`, which returns nothing from an empty stream. -/
def rxWithTimeout (size : ℕ) : List UInt8 × RxPort :=
  (p.rx size).getD ([], p)

/-- The bytes that an interrupt puts into the stream if there is room. -/
def offers : RxInterrupt → List UInt8
  | .init | .deInit => []
  | .controlLine state =>
    if state &&& 0b10#8 ≠ 0 then if p.alive then [] else [asciiSoh]
    else if p.alive then [asciiEot] else []
  | .receive buffer => buffer

variable {p} {i : RxInterrupt}

theorem interrupt_rxStream : (p.interrupt i).rxStream = p.rxStream.send (p.offers i) := by
  cases i with
  | init => exact BoundedStream.send_nil.symm
  | deInit => exact BoundedStream.send_nil.symm
  | receive buffer => rfl
  | controlLine state =>
    simp only [interrupt, controlLine, offers]
    split <;> split <;> first | rfl | exact BoundedStream.send_nil.symm

theorem interrupt_underrun : (p.interrupt i).underrun =
    (p.underrun || decide (p.rxStream.sent (p.offers i) ≠ (p.offers i).length)) := by
  have hnil : p.rxStream.sent [] = 0 := Nat.zero_min _
  have hcallback (buffer : List UInt8) : (p.rxCallback buffer).underrun =
      (p.underrun || decide (p.rxStream.sent buffer ≠ buffer.length)) := by
    simp only [rxCallback]
    split <;> simp_all
  cases i with
  | init => simp [interrupt, offers, hnil]
  | deInit => simp [interrupt, offers, hnil]
  | receive buffer => exact hcallback buffer
  | controlLine state =>
    simp only [interrupt, controlLine, offers]
    split <;> split <;> first | exact hcallback _ | simp [hnil]

theorem rx_one {bytes : List UInt8} {p' : RxPort} (h : p.rx 1 = some (bytes, p')) :
    ∃ byte, bytes = [byte] ∧ p.rxStream.content.head? = some byte := by
  obtain ⟨⟨taken, stream⟩, hreceive, heq⟩ := Option.map_eq_some_iff.mp h
  obtain ⟨rfl, rfl⟩ := Prod.mk.inj heq
  obtain ⟨hne, hsome⟩ := Option.ite_none_left_eq_some.mp hreceive
  obtain ⟨byte, rest, hcontent⟩ := List.exists_cons_of_ne_nil hne
  refine ⟨byte, ?_, by rw [hcontent, List.head?_cons]⟩
  rw [← (Prod.mk.inj (Option.some.inj hsome)).1, hcontent]
  rfl

end RxPort

end FlipperZero.Firmware.Vcp
