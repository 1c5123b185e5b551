import FlipperZero.Firmware.Vcp

/-! # What the virtual COM port transmits

The semaphore is free, held by the writer or owed by a transmission in flight. The
interface stays initialised while the writer sends, unless it is deinitialised after the
writer has found the port alive.
-/

namespace FlipperZero.Firmware.Vcp

open Lib

variable {H : Type} {cdc : UsbdCdc H} {s s' : State H} {buffer : List UInt8}

/-- How far the writer is with the batch in the buffer of the interface. -/
def Prepared (cdc : UsbdCdc H) (s : State H) : Prop :=
  match s.writer with
  | .memcpy _ => ∀ hcdc, s.classData = some hcdc → cdc.txState hcdc = 0
  | .setTxBuffer buffer =>
    (∀ hcdc, s.classData = some hcdc → cdc.txState hcdc = 0) ∧
    s.userTxBuffer.take (batchSize buffer) = buffer.take (batchSize buffer)
  | .transmitPacket buffer =>
    (∀ hcdc, s.classData = some hcdc →
      cdc.txState hcdc = 0 ∧ cdc.txLength hcdc = batchSize buffer) ∧
    s.userTxBuffer.take (batchSize buffer) = buffer.take (batchSize buffer)
  | _ => True

/-- What holds between the port, the interface and the writer. -/
structure Coherent (cdc : UsbdCdc H) (s : State H) : Prop where
  alive : s.alive = true → s.classData ≠ none
  sends : s.writer.Sends → s.classData ≠ none
  token : s.txSemaphore = true ∨ s.writer.Transmits ∨ InFlight cdc s
  prepared : Prepared cdc s
  pieces : s.accepted.flatten ++ s.writer.buffer = s.string
  stayed : s.stayedAlive = true → s.alive = true
  covered : ∀ buffer, s.writer = .returned buffer → s.stayedAlive = true → buffer = []

theorem WriterPc.Transmits.sends {pc : WriterPc} (h : pc.Transmits) : pc.Sends := by
  cases pc <;> first | exact h | cases h

theorem coherent_init : Coherent cdc .init where
  alive := nofun
  sends h := h.elim
  token := .inl rfl
  prepared := trivial
  pieces := rfl
  stayed := nofun
  covered := nofun

theorem Coherent.served (h : Coherent cdc s) : Served cdc s where
  initialised hw := h.sends hw.sends
  consecutive := ⟨_, h.pieces⟩
  covered buffer hw hs := by
    have hp := h.pieces
    rw [hw, WriterPc.buffer, h.covered buffer hw hs, List.append_nil] at hp
    exact hp
  waits buffer hw hs := by
    rcases h.token with htoken | htransmits | hflight
    · simp [hs] at htoken
    · simp [hw, WriterPc.Transmits] at htransmits
    · exact hflight

theorem coherent_tx (h : Coherent cdc s) (hs : next cdc s (.tx buffer) = some s') :
    Coherent cdc s' := by
  simp only [next] at hs
  split at hs
  · next left hw =>
    obtain rfl := Option.some.inj hs
    refine ⟨h.alive, fun hs => hs.elim, ?_, trivial, rfl, id, nofun⟩
    rcases h.token with htoken | htransmits | hflight
    · exact .inl htoken
    · simp [hw, WriterPc.Transmits] at htransmits
    · exact .inr (.inr hflight)
  · cases hs

theorem coherent_usbInit (h : Coherent cdc s) (hs : next cdc s .init = some s') :
    Coherent cdc s' := by
  simp only [next] at hs
  split at hs
  · next hnone =>
    obtain rfl := Option.some.inj hs
    have hsends : ¬ s.writer.Sends := fun hw => h.sends hw hnone
    refine ⟨nofun, nofun, .inl rfl, ?_, h.pieces, h.stayed, h.covered⟩
    unfold Prepared
    dsimp only [osSemaphoreRelease]
    split <;> simp_all [WriterPc.Sends, WriterPc.Transmits]
  · cases hs

theorem coherent_deInit (h : Coherent cdc s) (hok : ¬ s.writer.Sends)
    (hs : next cdc s .deInit = some s') : Coherent cdc s' := by
  obtain ⟨hcdc, -, rfl⟩ := Option.map_eq_some_iff.mp hs
  refine ⟨nofun, fun hw => absurd hw hok, .inl rfl, ?_, h.pieces, ?_, ?_⟩
  · unfold Prepared
    dsimp only [osSemaphoreRelease, setAlive]
    split <;> simp_all [WriterPc.Sends, WriterPc.Transmits]
  · simp [osSemaphoreRelease, setAlive]
  · simp [osSemaphoreRelease, setAlive]

theorem rxCallback_eq (s : State H) (byte : UInt8) : ∃ rxStream underrun,
    rxCallback s byte = { s with rxStream, underrun } := by
  unfold rxCallback
  split
  · exact ⟨_, s.underrun, rfl⟩
  · exact ⟨s.rxStream, true, rfl⟩

theorem vcpControlLine_eq (hstayed : s.stayedAlive = true → s.alive = true) (state : BitVec 8) :
    ∃ rxStream underrun, vcpControlLine s state = { s with
      rxStream, underrun
      txSemaphore := true
      alive := decide (state &&& 0b10#8 ≠ 0)
      stayedAlive := s.stayedAlive && decide (state &&& 0b10#8 ≠ 0) } := by
  unfold vcpControlLine
  split
  · next hrts =>
    rw [decide_eq_true hrts, Bool.and_true]
    split
    · next halive =>
      refine ⟨s.rxStream, s.underrun, ?_⟩
      cases s
      simp_all [osSemaphoreRelease]
    · obtain ⟨rxStream, underrun, he⟩ := rxCallback_eq (setAlive s true) asciiSoh
      refine ⟨rxStream, underrun, ?_⟩
      rw [he]
      simp only [osSemaphoreRelease, setAlive, Bool.and_true]
  · next hrts =>
    rw [decide_eq_false hrts, Bool.and_false]
    split
    · obtain ⟨rxStream, underrun, he⟩ := rxCallback_eq s asciiEot
      refine ⟨rxStream, underrun, ?_⟩
      rw [he]
      simp only [osSemaphoreRelease, setAlive, Bool.and_false]
    · next halive =>
      refine ⟨s.rxStream, s.underrun, ?_⟩
      cases s
      simp_all [osSemaphoreRelease]

theorem coherent_controlLine {state : BitVec 8} (h : Coherent cdc s)
    (hok : state &&& 0b10#8 ≠ 0 → s.classData ≠ none)
    (hs : next cdc s (.controlLine state) = some s') : Coherent cdc s' := by
  obtain rfl := Option.some.inj hs
  obtain ⟨rxStream, underrun, he⟩ := vcpControlLine_eq h.stayed state
  rw [he]
  refine ⟨?_, h.sends, .inl rfl, h.prepared, h.pieces, ?_, ?_⟩
  · intro halive
    exact hok (of_decide_eq_true halive)
  · intro hstayed
    exact (Bool.and_eq_true_iff.mp hstayed).2
  · intro buffer hw hstayed
    exact h.covered buffer hw (Bool.and_eq_true_iff.mp hstayed).1

theorem coherent_transmitCplt (h : Coherent cdc s) (hs : next cdc s .transmitCplt = some s') :
    Coherent cdc s' := by
  obtain ⟨hcdc, hdata, hs⟩ := Option.bind_eq_some_iff.mp hs
  split at hs
  · next hbusy =>
    obtain rfl := Option.some.inj hs
    refine ⟨nofun, nofun, .inl rfl, ?_, h.pieces, h.stayed, h.covered⟩
    have hprepared := h.prepared
    unfold Prepared at hprepared ⊢
    dsimp only [osSemaphoreRelease]
    split <;> simp_all
  · cases hs

theorem batch_append (l : List UInt8) :
    (buffer.take (batchSize buffer) ++ l).take (batchSize buffer) =
      buffer.take (batchSize buffer) := by
  have hlen : (buffer.take (batchSize buffer)).length = batchSize buffer := by
    simp [batchSize]
  rw [List.take_append_of_le_length (Nat.le_of_eq hlen.symm),
    List.take_of_length_le (Nat.le_of_eq hlen)]

theorem Coherent.token_of (h : Coherent cdc s) (hw : ¬ s.writer.Transmits) {P : Prop} :
    s.txSemaphore = true ∨ P ∨ InFlight cdc s := by
  rcases h.token with htoken | htransmits | hflight
  · exact .inl htoken
  · exact absurd htransmits hw
  · exact .inr (.inr hflight)

theorem coherent_check (h : Coherent cdc s) (hw : s.writer = .check buffer) :
    Coherent cdc { s with
      writer := if 0 < buffer.length ∧ s.alive then .acquire buffer else .returned buffer } := by
  have hpieces := h.pieces
  rw [hw] at hpieces
  have htoken : ∀ P : Prop, s.txSemaphore = true ∨ P ∨ InFlight cdc s := fun P =>
    h.token_of (by rw [hw]; exact id)
  split
  · next hgo => exact ⟨h.alive, fun _ => h.alive hgo.2, htoken _, trivial, hpieces, h.stayed, nofun⟩
  · next hstop =>
    refine ⟨h.alive, nofun, htoken _, trivial, hpieces, h.stayed, ?_⟩
    rintro buffer' ⟨⟩ hstayed
    apply List.eq_nil_of_length_eq_zero
    by_contra hne
    exact hstop ⟨Nat.pos_of_ne_zero hne, h.stayed hstayed⟩

theorem coherent_acquire (h : Coherent cdc s) (hw : s.writer = .acquire buffer) :
    Coherent cdc { s with txSemaphore := false, writer := .transmit buffer } := by
  have hpieces := h.pieces
  rw [hw] at hpieces
  have hsends := h.sends (by rw [hw]; trivial)
  exact ⟨h.alive, fun _ => hsends, .inr (.inl trivial), trivial, hpieces, h.stayed, nofun⟩

theorem coherent_transmit (h : Coherent cdc s) (hw : s.writer = .transmit buffer) {hcdc : H}
    (hdata : s.classData = some hcdc) :
    Coherent cdc { s with
      writer := if cdc.txState hcdc ≠ 0 then .delay buffer else .memcpy buffer } := by
  have hpieces := h.pieces
  rw [hw] at hpieces
  split
  · next hbusy =>
    exact ⟨h.alive, nofun, .inr (.inr ⟨hcdc, hdata, hbusy⟩), trivial, hpieces, h.stayed, nofun⟩
  · next hidle =>
    refine ⟨h.alive, fun _ => by simp [hdata], .inr (.inl trivial), ?_, hpieces, h.stayed, nofun⟩
    intro hcdc' hdata'
    obtain rfl := Option.some.inj (hdata.symm.trans hdata')
    simpa using hidle

theorem coherent_memcpy (h : Coherent cdc s) (hw : s.writer = .memcpy buffer) :
    Coherent cdc { s with
      userTxBuffer := buffer.take (batchSize buffer) ++ s.userTxBuffer.drop (batchSize buffer)
      writer := .setTxBuffer buffer } := by
  have hpieces := h.pieces
  have hprepared := h.prepared
  have hsends := h.sends (by rw [hw]; trivial)
  rw [hw] at hpieces
  simp only [Prepared, hw] at hprepared
  exact ⟨h.alive, fun _ => hsends, .inr (.inl trivial), ⟨hprepared, batch_append _⟩, hpieces,
    h.stayed, nofun⟩

theorem coherent_setTxBuffer (h : Coherent cdc s) (hw : s.writer = .setTxBuffer buffer)
    {hcdc : H} (hdata : s.classData = some hcdc) :
    Coherent cdc { s with
      classData := some (cdc.setTxBuffer hcdc (batchSize buffer))
      writer := .transmitPacket buffer } := by
  have hpieces := h.pieces
  have hprepared := h.prepared
  rw [hw] at hpieces
  simp only [Prepared, hw] at hprepared
  refine ⟨nofun, nofun, .inr (.inl trivial), ⟨?_, hprepared.2⟩, hpieces, h.stayed, nofun⟩
  rintro _ ⟨⟩
  rw [cdc.txState_setTxBuffer, cdc.txLength_setTxBuffer]
  exact ⟨hprepared.1 hcdc hdata, rfl⟩

theorem coherent_transmitPacket (h : Coherent cdc s) (hw : s.writer = .transmitPacket buffer)
    (hs : writerStep cdc s = some s') : Coherent cdc s' := by
  have hpieces := h.pieces
  have hprepared := h.prepared
  rw [hw] at hpieces
  simp only [Prepared, hw] at hprepared
  simp only [writerStep, hw] at hs
  obtain ⟨hcdc, hdata, rfl⟩ := Option.map_eq_some_iff.mp hs
  obtain ⟨hidle, hlength⟩ := hprepared.1 hcdc hdata
  obtain ⟨hok, hbusy⟩ := cdc.transmitPacket_idle hcdc hidle
  rw [hlength, hprepared.2]
  split
  · next hcdc' he =>
    rw [he] at hbusy
    refine ⟨nofun, nofun, .inr (.inr ⟨hcdc', rfl, hbusy⟩), trivial, ?_, h.stayed, nofun⟩
    rw [← hpieces]
    simp [WriterPc.buffer]
  · next hcdc' hne he =>
    rw [he] at hok
    exact absurd hok hne

theorem coherent_writer (h : Coherent cdc s) (hs : next cdc s .writer = some s') :
    Coherent cdc s' := by
  cases hw : s.writer with
  | returned buffer => simp [next, writerStep, hw] at hs
  | check buffer =>
    simp only [next, writerStep, hw] at hs
    obtain rfl := Option.some.inj hs
    exact coherent_check h hw
  | acquire buffer =>
    simp only [next, writerStep, hw] at hs
    split at hs
    · obtain rfl := Option.some.inj hs
      exact coherent_acquire h hw
    · cases hs
  | transmit buffer =>
    simp only [next, writerStep, hw] at hs
    obtain ⟨hcdc, hdata, rfl⟩ := Option.map_eq_some_iff.mp hs
    exact coherent_transmit h hw hdata
  | memcpy buffer =>
    simp only [next, writerStep, hw] at hs
    obtain rfl := Option.some.inj hs
    exact coherent_memcpy h hw
  | setTxBuffer buffer =>
    simp only [next, writerStep, hw] at hs
    obtain ⟨hcdc, hdata, rfl⟩ := Option.map_eq_some_iff.mp hs
    exact coherent_setTxBuffer h hw hdata
  | transmitPacket buffer => exact coherent_transmitPacket h hw hs
  | delay buffer =>
    simp only [next, writerStep, hw] at hs
    obtain rfl := Option.some.inj hs
    have hpieces := h.pieces
    rw [hw] at hpieces
    exact ⟨h.alive, nofun, h.token_of (by rw [hw]; exact id), trivial, hpieces, h.stayed, nofun⟩

theorem coherent_next {l : Label} (h : Coherent cdc s) (hok : Orderly s l)
    (hs : next cdc s l = some s') : Coherent cdc s' := by
  cases l with
  | tx buffer => exact coherent_tx h hs
  | writer => exact coherent_writer h hs
  | init => exact coherent_usbInit h hs
  | deInit => exact coherent_deInit h hok hs
  | controlLine state => exact coherent_controlLine h hok hs
  | transmitCplt => exact coherent_transmitCplt h hs

/-- Every call is served in the runs in which the interface goes only while the writer does not
send, and the line is raised only on an initialised interface. -/
theorem vcp_served (h : (machine cdc).ReachableWith Orderly s) : Served cdc s := by
  apply Coherent.served
  apply h.invariant coherent_init
  intro s l s' hs hok hnext
  exact coherent_next hs hok hnext

/-- Class data that is the state of the transmission and its length. -/
def usbdCdc : UsbdCdc (ℕ × ℕ) where
  init := (0, 0)
  txState := Prod.fst
  txLength := Prod.snd
  setTxBuffer h n := (h.1, n)
  transmitPacket h := if h.1 = 0 then (.ok, (1, h.2)) else (.busy, h)
  dataIn h := (0, h.2)
  txState_init := rfl
  txState_setTxBuffer _ _ := rfl
  txLength_setTxBuffer _ _ := rfl
  transmitPacket_idle h hidle := by simp [hidle]

instance (s : State H) : (l : Label) → Decidable (Orderly s l)
  | .deInit => inferInstanceAs (Decidable (¬ s.writer.Sends))
  | .controlLine _ => inferInstanceAs (Decidable (_ → s.classData ≠ none))
  | .tx _ | .writer | .init | .transmitCplt => .isTrue trivial

theorem vcp_served_string : ∃ s, (machine usbdCdc).ReachableWith Orderly s ∧
    s.accepted = [[1, 2, 3]] ∧ s.writer = .returned [] ∧ Served usbdCdc s := by
  have hrun : ∃ s, (machine usbdCdc).execWith Orderly .init
      [.init, .controlLine 2, .tx [1, 2, 3], .writer, .writer, .writer, .writer, .writer, .writer,
        .transmitCplt, .writer] = some s ∧
      s.accepted = [[1, 2, 3]] ∧ s.writer = .returned [] := ⟨_, rfl, rfl, rfl⟩
  obtain ⟨s, hexec, haccepted, hw⟩ := hrun
  have hreach := Machine.execWith_reachableWith .init hexec
  exact ⟨s, hreach, haccepted, hw, vcp_served hreach⟩

/-- The cable is pulled while the writer waits; it is woken and transmits without an interface. -/
theorem not_vcp_served : ¬ ∀ s, (machine usbdCdc).Reachable s → Served usbdCdc s := by
  intro h
  have hrun : ∃ s, (machine usbdCdc).exec .init
      [.init, .controlLine 2, .tx [1], .writer, .deInit, .writer] = some s ∧
      s.writer = .transmit [1] ∧ s.classData = none := ⟨_, rfl, rfl, rfl⟩
  obtain ⟨s, hexec, hw, hdata⟩ := hrun
  have hserved := h s (Machine.exec_reachable .init hexec)
  exact hserved.initialised (by rw [hw]; trivial) hdata

end FlipperZero.Firmware.Vcp
