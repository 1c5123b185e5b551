import FlipperZero.Gui.ViewDispatcher
import FlipperZero.Irda.Capture
import FlipperZero.Lib.BoundedStream
import FlipperZero.Lib.Machine

/-! # The infrared application

The capture interrupt puts what the decoders return into the queue of the task, where the
keys of the user wait as well. The task keeps received packets in the slot that is selected
and sends the packet in it. While the command `ir_rx` runs, the task hands the packets on to
it through a queue of one, which is not emptied between two runs of the command.
-/

namespace FlipperZero.Irda

open Lib Gui

inductive AppEvent where
  | key (input : InputEvent)
  | rx (packet : IrdaMessage)
  deriving DecidableEq, Repr

def AppEvent.packet : AppEvent → Option IrdaMessage
  | .key _ => none
  | .rx packet => some packet

def irdaPacketCount : ℕ := 8

def dutyCycles : List ℕ := [100, 250, 333, 500, 1000]

/-- What the mutex of the application protects. -/
structure AppState where
  modeId : ℕ
  carrierFreq : ℕ
  carrierDutyCycleId : ℕ
  packetId : ℕ
  packets : List IrdaMessage

def AppState.initPacket (s : AppState) (index : ℕ) (protocol : IrdaProtocol)
    (address command : BitVec 32) : AppState :=
  if irdaPacketCount ≤ index then s
  else { s with packets := s.packets.modify index fun p => { p with protocol, address, command } }

/-- The state at the start of the task; nothing reads the flags of the packets. -/
def AppState.start : AppState :=
  let state : AppState :=
    { modeId := 0
      carrierFreq := 36000
      carrierDutyCycleId := dutyCycles.length - 2
      packetId := 0
      packets := List.replicate irdaPacketCount ⟨.samsung32, 0, 0, false⟩ }
  let state := (List.range irdaPacketCount).foldl (·.initPacket · .samsung32 0 0) state
  ((((((((state.initPacket 0 .nec 0x00 0x11).initPacket 1 .nec 0x08 0x59).initPacket 2 .nec 0x00
    0x10).initPacket 3 .nec 0x00 0x15).initPacket 4 .nec 0x00 0x25).initPacket 5 .samsung32 0x0E
    0x0C).initPacket 6 .samsung32 0x0E 0x0D).initPacket 7 .samsung32 0x0E 0x0E)

/-- What the diode is told: the duty cycle and the frequency of a carrier, and the messages. -/
structure Emitter where
  pwm : Option (ℕ × ℕ)
  sent : List IrdaMessage

/-- An input handler of a mode; `none` stands for an access beyond a table. -/
abbrev ModeInput := InputEvent → AppState → Emitter → Option (AppState × Emitter)

def carrierOk (event : InputEvent) (s : AppState) (e : Emitter) : Option Emitter :=
  if event.key = .ok then
    if event.type = .press then
      dutyCycles[s.carrierDutyCycleId]?.map fun duty => { e with pwm := some (duty, s.carrierFreq) }
    else if event.type = .release then some { e with pwm := none }
    else some e
  else some e

def carrierUp (event : InputEvent) (s : AppState) : AppState :=
  if event.type = .short ∧ event.key = .up then
    { s with carrierFreq := if s.carrierFreq < 45000 then s.carrierFreq + 1000 else 33000 }
  else s

def carrierDown (event : InputEvent) (s : AppState) : AppState :=
  if event.type = .short ∧ event.key = .down then
    { s with carrierDutyCycleId :=
        if s.carrierDutyCycleId < dutyCycles.length - 1 then s.carrierDutyCycleId + 1 else 0 }
  else s

def inputCarrier : ModeInput := fun event s e =>
  (carrierOk event s e).map fun e => (carrierDown event (carrierUp event s), e)

def packetOk (event : InputEvent) (s : AppState) (e : Emitter) : Option Emitter :=
  if event.key = .ok then
    if event.type = .short then
      s.packets[s.packetId]?.map fun p => { e with sent := e.sent ++ [{ p with «repeat» := false }] }
    else some e
  else some e

def packetDown (event : InputEvent) (s : AppState) : AppState :=
  if event.type = .short ∧ event.key = .down then
    { s with packetId := if s.packetId < irdaPacketCount - 1 then s.packetId + 1 else s.packetId }
  else s

def packetUp (event : InputEvent) (s : AppState) : AppState :=
  if event.type = .short ∧ event.key = .up then
    { s with packetId := if 0 < s.packetId then s.packetId - 1 else s.packetId }
  else s

def inputPacket : ModeInput := fun event s e =>
  (packetOk event s e).map fun e => (packetUp event (packetDown event s), e)

def modes : List ModeInput := [inputCarrier, inputPacket]

def modeLeft (event : InputEvent) (s : AppState) : AppState :=
  if event.type = .short ∧ event.key = .left then
    { s with modeId := if 0 < s.modeId then s.modeId - 1 else s.modeId }
  else s

def modeRight (event : InputEvent) (s : AppState) : AppState :=
  if event.type = .short ∧ event.key = .right then
    { s with modeId := if s.modeId < modes.length - 1 then s.modeId + 1 else s.modeId }
  else s

/-- A key that is not Back; the handler of the mode gets the keys that choose it as well. -/
def inputMode : ModeInput := fun event s e =>
  let s := modeRight event (modeLeft event s)
  modes[s.modeId]?.bind fun input => input event s e

/-- Where the command `ir_rx` is. -/
inductive RxCommand where
  | idle
  | check
  | get (exit : Bool)
  | leave
  deriving DecidableEq, Repr

structure IrdaApp where
  handler : IrdaHandler
  /-- The clock at which the counter was cleared. -/
  cleared : ℕ
  eventQueue : BoundedStream AppEvent 32
  cliIrRxQueue : BoundedStream IrdaMessage 1
  cliCmdIsActive : Bool
  command : RxCommand
  state : AppState
  emitter : Emitter
  exited : Bool
  /-- The edges so far, the events put into the queue and those taken from it. -/
  edges : List Edge
  offered : List AppEvent
  taken : List AppEvent
  lost : ℕ
  /-- Of the last run of `ir_rx`: what had been taken before it, what was left in its queue, what
  it was given and what it has printed. -/
  before : List AppEvent
  stale : List IrdaMessage
  given : List IrdaMessage
  printed : List IrdaMessage
  missed : ℕ

namespace IrdaApp

inductive Label where
  | edge (edge : Edge)
  | key (event : InputEvent)
  | handle
  | irRx
  /-- The command looks for Ctrl-C, then for a packet. -/
  | check (received : Bool)
  | get
  | leave

def put (s : IrdaApp) (event : AppEvent) : IrdaApp :=
  { s with
    eventQueue := s.eventQueue.send [event]
    offered := s.offered ++ [event]
    lost := s.lost + ([event].length - s.eventQueue.sent [event]) }

/-- A full queue loses the packet: the build with assertions halts there, the others go on. -/
def capture (s : IrdaApp) (e : Edge) : IrdaApp :=
  let ((level, duration), cleared) := apiHalIrdaTimIsr s.cleared e
  let (message, handler) := irdaDecode s.handler level duration
  let s := { s with handler, cleared, edges := s.edges ++ [e] }
  match message with
  | none => s
  | some message => s.put (.rx message)

def handleKey (s : IrdaApp) (event : InputEvent) : Option IrdaApp :=
  if event.type = .short ∧ event.key = .back then some { s with exited := true }
  else (inputMode event s.state s.emitter).map fun (state, emitter) => { s with state, emitter }

/-- A packet is for the command as well while that runs. -/
def give (s : IrdaApp) (packet : IrdaMessage) : IrdaApp :=
  if s.cliCmdIsActive then
    { s with
      cliIrRxQueue := s.cliIrRxQueue.send [packet]
      given := s.given ++ [packet]
      missed := s.missed + ([packet].length - s.cliIrRxQueue.sent [packet]) }
  else s

/-- In packet mode a packet is kept in the slot that is selected. -/
def handleRx (s : IrdaApp) (packet : IrdaMessage) : Option IrdaApp :=
  if s.state.modeId = 1 then
    if s.state.packetId < s.state.packets.length then
      some { s.give packet with state :=
        { s.state with packets := s.state.packets.set s.state.packetId packet } }
    else none
  else some (s.give packet)

def handle (s : IrdaApp) : Option IrdaApp :=
  match s.eventQueue.receive 1 with
  | some ([event], queue) =>
    let s := { s with eventQueue := queue, taken := s.taken ++ [event] }
    match event with
    | .key event => s.handleKey event
    | .rx packet => s.handleRx packet
  | _ => none

def irRx (s : IrdaApp) : IrdaApp :=
  { s with
    cliCmdIsActive := true
    command := .check
    before := s.taken
    stale := s.cliIrRxQueue.content
    given := []
    printed := []
    missed := 0 }

def get (s : IrdaApp) (exit : Bool) : IrdaApp :=
  let command := if exit then .leave else .check
  match s.cliIrRxQueue.receive 1 with
  | some (packets, cliIrRxQueue) =>
    { s with command, cliIrRxQueue, printed := s.printed ++ packets }
  | none => { s with command }

def next (s : IrdaApp) (l : Label) : Option IrdaApp :=
  if s.exited then none
  else
    match l, s.command with
    | .edge e, _ => some (s.capture e)
    | .key event, _ => some (s.put (.key event))
    | .handle, _ => s.handle
    | .irRx, .idle => some s.irRx
    | .check received, .check => some { s with command := .get received }
    | .get, .get exit => some (s.get exit)
    | .leave, .leave => some { s with command := .idle, cliCmdIsActive := false }
    | _, _ => none

def machine (cleared : ℕ) : Machine IrdaApp Label where
  init :=
    { handler := irdaAllocDecoder
      cleared := cleared
      eventQueue := .empty
      cliIrRxQueue := .empty
      cliCmdIsActive := false
      command := .idle
      state := .start
      emitter := ⟨none, []⟩
      exited := false
      edges := []
      offered := []
      taken := []
      lost := 0
      before := []
      stale := []
      given := []
      printed := []
      missed := 0 }
  next := next

end IrdaApp

section Input

/-- The frequencies are the full kilohertz from 33 to 45. -/
def IsCarrierFreq (freq : ℕ) : Prop := 33000 ≤ freq ∧ freq ≤ 45000 ∧ freq % 1000 = 0

instance (freq : ℕ) : Decidable (IsCarrierFreq freq) := inferInstanceAs (Decidable (_ ∧ _))

/-- Every table is read within its bounds; what is kept and what is sent is known. -/
structure SoundState (known : List IrdaMessage) (s : AppState) (e : Emitter) : Prop where
  modeId : s.modeId < modes.length
  carrierFreq : IsCarrierFreq s.carrierFreq
  dutyCycleId : s.carrierDutyCycleId < dutyCycles.length
  packetId : s.packetId < irdaPacketCount
  length : s.packets.length = irdaPacketCount
  kept : ∀ p ∈ s.packets, p ∈ known
  pwm : ∀ duty freq, e.pwm = some (duty, freq) → duty ∈ dutyCycles ∧ IsCarrierFreq freq
  sent : ∀ m ∈ e.sent, ∃ p ∈ known, m = { p with «repeat» := false }

variable {known known' : List IrdaMessage} {s : AppState} {e : Emitter}

theorem soundState_start : SoundState AppState.start.packets .start ⟨none, []⟩ where
  modeId := by decide
  carrierFreq := by decide
  dutyCycleId := by decide
  packetId := by decide
  length := by decide
  kept _ hp := hp
  pwm _ _ hpwm := by cases hpwm
  sent _ hm := by cases hm

theorem SoundState.mono (h : SoundState known s e) (hle : known ⊆ known') :
    SoundState known' s e :=
  { h with
    kept := fun p hp => hle (h.kept p hp)
    sent := fun m hm =>
      have ⟨p, hp, heq⟩ := h.sent m hm
      ⟨p, hle hp, heq⟩ }

theorem SoundState.carrierOk (h : SoundState known s e) (event : InputEvent) :
    ∃ e', carrierOk event s e = some e' ∧ SoundState known s e' := by
  unfold Irda.carrierOk
  split_ifs
  · rw [List.getElem?_eq_getElem h.dutyCycleId]
    refine ⟨_, rfl, { h with pwm := ?_ }⟩
    rintro duty freq hpwm
    obtain ⟨rfl, rfl⟩ := Prod.mk.inj (Option.some.inj hpwm)
    exact ⟨List.getElem_mem _, h.carrierFreq⟩
  · exact ⟨_, rfl, { h with pwm := fun _ _ hpwm => by cases hpwm }⟩
  · exact ⟨_, rfl, h⟩
  · exact ⟨_, rfl, h⟩

theorem SoundState.packetOk (h : SoundState known s e) (event : InputEvent) :
    ∃ e', packetOk event s e = some e' ∧ SoundState known s e' := by
  unfold Irda.packetOk
  split_ifs
  · have hlt : s.packetId < s.packets.length := h.length.symm ▸ h.packetId
    rw [List.getElem?_eq_getElem hlt]
    refine ⟨_, rfl, { h with sent := ?_ }⟩
    intro m hm
    rcases List.mem_append.mp hm with hm | hm
    · exact h.sent m hm
    · exact ⟨_, h.kept _ (List.getElem_mem hlt), List.mem_singleton.mp hm⟩
  · exact ⟨_, rfl, h⟩
  · exact ⟨_, rfl, h⟩

theorem SoundState.carrierUp (h : SoundState known s e) (event : InputEvent) :
    SoundState known (carrierUp event s) e := by
  unfold Irda.carrierUp
  split_ifs
  · have hfreq : IsCarrierFreq (s.carrierFreq + 1000) := by
      have := h.carrierFreq
      unfold IsCarrierFreq at *
      omega
    exact { h with carrierFreq := hfreq }
  · have hfreq : IsCarrierFreq 33000 := by decide
    exact { h with carrierFreq := hfreq }
  · exact h

theorem SoundState.carrierDown (h : SoundState known s e) (event : InputEvent) :
    SoundState known (carrierDown event s) e := by
  unfold Irda.carrierDown
  split_ifs with _ hlt
  · exact { h with dutyCycleId := Nat.add_lt_of_lt_sub hlt }
  · exact { h with dutyCycleId := Nat.zero_lt_succ _ }
  · exact h

theorem SoundState.packetDown (h : SoundState known s e) (event : InputEvent) :
    SoundState known (packetDown event s) e := by
  unfold Irda.packetDown
  split_ifs with _ hlt
  · exact { h with packetId := Nat.add_lt_of_lt_sub hlt }
  · exact h
  · exact h

theorem SoundState.packetUp (h : SoundState known s e) (event : InputEvent) :
    SoundState known (packetUp event s) e := by
  unfold Irda.packetUp
  split_ifs
  · exact { h with packetId := (Nat.sub_le _ _).trans_lt h.packetId }
  · exact h
  · exact h

theorem SoundState.modeLeft (h : SoundState known s e) (event : InputEvent) :
    SoundState known (modeLeft event s) e := by
  unfold Irda.modeLeft
  split_ifs
  · exact { h with modeId := (Nat.sub_le _ _).trans_lt h.modeId }
  · exact h
  · exact h

theorem SoundState.modeRight (h : SoundState known s e) (event : InputEvent) :
    SoundState known (modeRight event s) e := by
  unfold Irda.modeRight
  split_ifs with _ hlt
  · exact { h with modeId := Nat.add_lt_of_lt_sub hlt }
  · exact h
  · exact h

theorem SoundState.inputCarrier (h : SoundState known s e) (event : InputEvent) :
    ∃ s' e', inputCarrier event s e = some (s', e') ∧ SoundState known s' e' := by
  obtain ⟨e', he, h'⟩ := h.carrierOk event
  refine ⟨_, e', ?_, (h'.carrierUp event).carrierDown event⟩
  rw [Irda.inputCarrier, he]
  rfl

theorem SoundState.inputPacket (h : SoundState known s e) (event : InputEvent) :
    ∃ s' e', inputPacket event s e = some (s', e') ∧ SoundState known s' e' := by
  obtain ⟨e', he, h'⟩ := h.packetOk event
  refine ⟨_, e', ?_, (h'.packetDown event).packetUp event⟩
  rw [Irda.inputPacket, he]
  rfl

theorem SoundState.inputMode (h : SoundState known s e) (event : InputEvent) :
    ∃ s' e', inputMode event s e = some (s', e') ∧ SoundState known s' e' := by
  have h' := (h.modeLeft event).modeRight event
  unfold Irda.inputMode
  have hlt := h'.modeId
  generalize Irda.modeRight event (Irda.modeLeft event s) = s' at *
  change s'.modeId < 2 at hlt
  obtain hzero | hone : s'.modeId = 0 ∨ s'.modeId = 1 := by omega
  · simp only [hzero]
    exact h'.inputCarrier event
  · simp only [hone]
    exact h'.inputPacket event

end Input

namespace IrdaApp

def packets (events : List AppEvent) : List IrdaMessage := events.filterMap AppEvent.packet

theorem packets_append (events events' : List AppEvent) :
    packets (events ++ events') = packets events ++ packets events' := List.filterMap_append

theorem mem_packets {m : IrdaMessage} {events : List AppEvent} :
    m ∈ packets events ↔ .rx m ∈ events := by
  rw [packets, List.mem_filterMap]
  constructor
  · rintro ⟨event, hmem, hpacket⟩
    cases event with
    | key => cases hpacket
    | rx packet =>
      obtain rfl := Option.some.inj hpacket
      exact hmem
  · exact fun hmem => ⟨.rx m, hmem, rfl⟩

def known (s : IrdaApp) : List IrdaMessage := AppState.start.packets ++ packets s.taken

theorem mem_known {s : IrdaApp} {m : IrdaMessage} :
    m ∈ s.known ↔ m ∈ AppState.start.packets ∨ .rx m ∈ s.taken := by
  rw [known, List.mem_append, mem_packets]

/-- The last run of `ir_rx`, or the one that goes on. -/
structure SoundRun (s : IrdaApp) : Prop where
  queue : s.cliIrRxQueue.Delivers (s.stale ++ s.given) s.printed s.missed
  stale : s.stale.length ≤ 1
  since : ∃ since, s.taken = s.before ++ since ∧ s.given.Sublist (packets since) ∧
    (s.cliCmdIsActive = true → s.given = packets since)

structure Sound (cleared : ℕ) (s : IrdaApp) : Prop where
  captured : ∀ es, captured irdaAllocDecoder cleared (s.edges ++ es) =
    packets s.offered ++ Irda.captured s.handler s.cleared es
  events : s.eventQueue.Delivers s.offered s.taken s.lost
  state : SoundState s.known s.state s.emitter
  run : s.SoundRun

variable {cleared : ℕ} {s s' : IrdaApp}

theorem sound_init : Sound cleared (machine cleared).init where
  captured _ := rfl
  events := .empty
  state := soundState_start.mono (List.subset_append_left _ _)
  run := ⟨.empty, Nat.zero_le _, [], rfl, .slnil, fun _ => rfl⟩

theorem Sound.key (h : Sound cleared s) (event : InputEvent) : Sound cleared (s.put (.key event)) where
  captured es := by
    have hkey : packets (s.offered ++ [.key event]) = packets s.offered := by
      rw [packets_append]
      exact List.append_nil _
    simp only [put, hkey]
    exact h.captured es
  events := h.events.send [.key event]
  state := h.state
  run := ⟨h.run.queue, h.run.stale, h.run.since⟩

theorem Sound.capture (h : Sound cleared s) (e : Edge) : Sound cleared (s.capture e) := by
  have hcaptured : ∀ es, Irda.captured irdaAllocDecoder cleared (s.edges ++ [e] ++ es) =
      packets s.offered ++ Irda.captured s.handler s.cleared (e :: es) := by
    intro es
    rw [List.append_assoc]
    exact h.captured _
  simp only [IrdaApp.capture, Irda.captured, apiHalIrdaTimIsr] at hcaptured ⊢
  cases hmessage : (irdaDecode s.handler e.source.level (timerCount s.cleared e.clock)).1 with
  | none =>
    rw [hmessage] at hcaptured
    exact ⟨hcaptured, h.events, h.state, h.run.queue, h.run.stale, h.run.since⟩
  | some message =>
    rw [hmessage] at hcaptured
    have hrx : packets (s.offered ++ [.rx message]) = packets s.offered ++ [message] :=
      packets_append _ _
    refine ⟨fun es => ?_, h.events.send [.rx message], h.state, h.run.queue, h.run.stale,
      h.run.since⟩
    simp only [put, hrx, List.append_assoc _ [message]]
    exact hcaptured es

theorem known_concat (s : IrdaApp) (event : AppEvent) (queue : BoundedStream AppEvent 32) :
    s.known ⊆ known { s with eventQueue := queue, taken := s.taken ++ [event] } := by
  intro m hm
  rcases List.mem_append.mp hm with hm | hm
  · exact List.mem_append_left _ hm
  · refine List.mem_append_right _ ?_
    simp only [packets_append]
    exact List.mem_append_left _ hm

theorem SoundRun.key (h : s.SoundRun) (event : InputEvent) (queue : BoundedStream AppEvent 32) :
    SoundRun { s with eventQueue := queue, taken := s.taken ++ [.key event] } := by
  obtain ⟨hqueue, hstale, since, htaken, hsub, hactive⟩ := h
  have hkey : packets (since ++ [.key event]) = packets since := by
    rw [packets_append]
    exact List.append_nil _
  refine ⟨hqueue, hstale, since ++ [.key event], ?_, ?_, ?_⟩
  · simp only [htaken, List.append_assoc]
  · rw [hkey]
    exact hsub
  · rw [hkey]
    exact hactive

theorem SoundRun.rx (h : s.SoundRun) (packet : IrdaMessage) (queue : BoundedStream AppEvent 32) :
    SoundRun (give { s with eventQueue := queue, taken := s.taken ++ [.rx packet] } packet) := by
  obtain ⟨hqueue, hstale, since, htaken, hsub, hactive⟩ := h
  have hrx : packets (since ++ [.rx packet]) = packets since ++ [packet] := packets_append _ _
  have htaken' : s.taken ++ [.rx packet] = s.before ++ (since ++ [.rx packet]) := by
    rw [htaken, List.append_assoc]
  simp only [give]
  split
  · next hrun =>
    have hgiven := hactive hrun
    refine ⟨?_, hstale, since ++ [.rx packet], htaken', ?_, fun _ => ?_⟩
    · have := hqueue.send [packet]
      rwa [List.append_assoc] at this
    · rw [hrx]
      exact hsub.append (List.Sublist.refl _)
    · rw [hrx]
      exact congrArg (· ++ [packet]) hgiven
  · next hrun =>
    refine ⟨hqueue, hstale, since ++ [.rx packet], htaken', ?_, fun hrun' => absurd hrun' hrun⟩
    rw [hrx]
    exact hsub.trans (List.sublist_append_left _ _)

theorem give_eq (s : IrdaApp) (packet : IrdaMessage) : ∃ queue given missed, s.give packet =
    { s with cliIrRxQueue := queue, given := given, missed := missed } := by
  unfold give
  split
  · exact ⟨_, _, _, rfl⟩
  · exact ⟨_, _, _, rfl⟩

theorem Sound.rx (h : Sound cleared s) (packet : IrdaMessage) {queue : BoundedStream AppEvent 32}
    (hevents : queue.Delivers s.offered (s.taken ++ [.rx packet]) s.lost) :
    ∃ s', handleRx { s with eventQueue := queue, taken := s.taken ++ [.rx packet] } packet =
      some s' ∧ Sound cleared s' := by
  have hrun := h.run.rx packet queue
  have hstate := h.state.mono (known_concat s (.rx packet) queue)
  set t : IrdaApp := { s with eventQueue := queue, taken := s.taken ++ [.rx packet] }
  have hpacket : packet ∈ t.known :=
    List.mem_append_right _ (mem_packets.mpr (List.mem_append_right _ (List.mem_singleton.mpr rfl)))
  have hlt : t.state.packetId < t.state.packets.length := hstate.length.symm ▸ hstate.packetId
  obtain ⟨cliQueue, given, missed, hgive⟩ := give_eq t packet
  rw [hgive] at hrun
  unfold handleRx
  rw [hgive, if_pos hlt]
  split
  · refine ⟨_, rfl, h.captured, hevents, { hstate with length := ?_, kept := ?_ }, ?_⟩
    · rw [List.length_set]
      exact hstate.length
    · intro p hp
      rcases List.mem_or_eq_of_mem_set hp with hp | rfl
      · exact hstate.kept p hp
      · exact hpacket
    · exact ⟨hrun.queue, hrun.stale, hrun.since⟩
  · exact ⟨_, rfl, h.captured, hevents, hstate, hrun⟩

theorem Sound.keyTaken (h : Sound cleared s) (event : InputEvent) {queue : BoundedStream AppEvent 32}
    (hevents : queue.Delivers s.offered (s.taken ++ [.key event]) s.lost) :
    ∃ s', handleKey { s with eventQueue := queue, taken := s.taken ++ [.key event] } event =
      some s' ∧ Sound cleared s' := by
  have hrun := h.run.key event queue
  have hstate := h.state.mono (known_concat s (.key event) queue)
  set t : IrdaApp := { s with eventQueue := queue, taken := s.taken ++ [.key event] }
  unfold handleKey
  split
  · exact ⟨_, rfl, h.captured, hevents, hstate, hrun.queue, hrun.stale, hrun.since⟩
  · obtain ⟨state, emitter, hinput, hstate'⟩ := hstate.inputMode event
    refine ⟨{ t with state, emitter }, ?_, h.captured, hevents, hstate', hrun.queue, hrun.stale,
      hrun.since⟩
    rw [show inputMode event t.state t.emitter = some (state, emitter) from hinput]
    rfl

theorem Sound.handle (h : Sound cleared s) (hne : s.eventQueue.content ≠ []) :
    ∃ s', s.handle = some s' ∧ Sound cleared s' := by
  obtain ⟨event, rest, hcontent⟩ := List.exists_cons_of_ne_nil hne
  obtain ⟨queue, hreceive⟩ : ∃ queue, s.eventQueue.receive 1 = some ([event], queue) := by
    have htake : s.eventQueue.content.take 1 = [event] := congrArg (List.take 1) hcontent
    exact ⟨_, by rw [BoundedStream.receive, if_neg hne, htake]⟩
  have hevents := h.events.receive hreceive
  unfold IrdaApp.handle
  rw [hreceive]
  cases event with
  | key event => exact h.keyTaken event hevents
  | rx packet => exact h.rx packet hevents

theorem Sound.irRx (h : Sound cleared s) : Sound cleared s.irRx where
  captured := h.captured
  events := h.events
  state := h.state
  run :=
    { queue := ⟨by simp [IrdaApp.irRx], by simp [IrdaApp.irRx]⟩
      stale := s.cliIrRxQueue.length_le
      since := ⟨[], (List.append_nil _).symm, .slnil, fun _ => rfl⟩ }

theorem Sound.get (h : Sound cleared s) (exit : Bool) : Sound cleared (s.get exit) := by
  unfold IrdaApp.get
  cases hreceive : s.cliIrRxQueue.receive 1 with
  | none => exact ⟨h.captured, h.events, h.state, h.run.queue, h.run.stale, h.run.since⟩
  | some result =>
    have hqueue := h.run.queue.receive hreceive
    exact ⟨h.captured, h.events, h.state, hqueue, h.run.stale, h.run.since⟩

theorem Sound.next (h : Sound cleared s) {l : Label} (hs : s.next l = some s') :
    Sound cleared s' := by
  unfold IrdaApp.next at hs
  split at hs
  · cases hs
  · split at hs
    · exact Option.some.inj hs ▸ h.capture _
    · exact Option.some.inj hs ▸ h.key _
    · have hne : s.eventQueue.content ≠ [] := by
        intro hnil
        simp [IrdaApp.handle, BoundedStream.receive, hnil] at hs
      obtain ⟨t, ht, hsound⟩ := h.handle hne
      exact Option.some.inj (ht.symm.trans hs) ▸ hsound
    · exact Option.some.inj hs ▸ h.irRx
    · obtain rfl := Option.some.inj hs
      exact ⟨h.captured, h.events, h.state, h.run.queue, h.run.stale, h.run.since⟩
    · exact Option.some.inj hs ▸ h.get _
    · obtain rfl := Option.some.inj hs
      obtain ⟨since, htaken, hsub, -⟩ := h.run.since
      exact ⟨h.captured, h.events, h.state, h.run.queue, h.run.stale, since, htaken, hsub,
        fun hactive => by cases hactive⟩
    · cases hs

theorem sound_of_reachable (h : (machine cleared).Reachable s) : Sound cleared s :=
  h.invariant sound_init fun _ _ _ hsound hs => hsound.next hs

theorem Sound.received (h : Sound cleared s) :
    (packets (s.taken ++ s.eventQueue.content)).Sublist
      (Irda.captured irdaAllocDecoder cleared s.edges) ∧
    (s.lost = 0 → packets (s.taken ++ s.eventQueue.content) =
      Irda.captured irdaAllocDecoder cleared s.edges) := by
  have hcaptured : Irda.captured irdaAllocDecoder cleared s.edges = packets s.offered := by
    have hnil := h.captured []
    rwa [List.append_nil, Irda.captured, List.append_nil] at hnil
  rw [hcaptured]
  constructor
  · exact h.events.sublist.filterMap _
  · exact fun hlost => congrArg packets (h.events.eq_iff.mpr hlost)

theorem SoundRun.printed (h : s.SoundRun) : ∃ since, s.taken = s.before ++ since ∧
    (s.printed ++ s.cliIrRxQueue.content).Sublist (s.stale ++ packets since) ∧
    (s.cliCmdIsActive = true → s.missed = 0 →
      s.printed ++ s.cliIrRxQueue.content = s.stale ++ packets since) := by
  obtain ⟨since, htaken, hsub, hactive⟩ := h.since
  refine ⟨since, htaken, h.queue.sublist.trans ((List.Sublist.refl _).append hsub), ?_⟩
  intro hrun hmissed
  rw [← hactive hrun]
  exact h.queue.eq_iff.mpr hmissed

end IrdaApp

end FlipperZero.Irda
