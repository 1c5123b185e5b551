import FlipperZero.SubGhz.Views

/-! # The application that tests the radio

The menu leads to the views, and the key that goes back leads to the menu again. A view shuts the
radio down when it is left. Its timer reads the signal strength, and may do so late. A packet that
ends leaves the radio idle until the next key.
-/

namespace FlipperZero.SubGhz

open Firmware Gui Lib
open Firmware.Cc1101Spi (Reset)

variable (reset : Reset)

inductive SubGhzView
  | menu
  | testBasic
  | testPacket
  | static
  deriving DecidableEq, Repr

structure App where
  device : Device
  currentView : Option SubGhzView
  testBasic : TestModel
  testPacket : TestModel
  static : StaticModel
  /-- The timers run. -/
  basicTimer : Bool
  packetTimer : Bool

namespace App

def exitView (s : App) : App :=
  let radio := apiHalSubghzInit reset s.device.radio
  match s.currentView with
  | none | some .menu => s
  | some .testBasic => { s with basicTimer := false, device := { s.device with radio := radio } }
  | some .testPacket => { s with packetTimer := false, device := { s.device with radio := radio } }
  | some .static => { s with device := { s.device with radio := radio } }

def enterView (s : App) : Option SubGhzView → Option App
  | none => some { s with currentView := none }
  | some .menu => some { s with currentView := some .menu }
  | some .testBasic => ((subghzTestBasic reset).enter reset s.device).map fun (m, d) =>
    { s with currentView := some .testBasic, testBasic := m, device := d, basicTimer := true }
  | some .testPacket => ((subghzTestPacket reset).enter reset s.device).map fun (m, d) =>
    { s with currentView := some .testPacket, testPacket := m, device := d, packetTimer := true }
  | some .static => (Static.enter reset s.device).map fun (m, d) =>
    { s with currentView := some .static, static := m, device := d }

/-- `view_dispatcher_switch_to_view`. -/
def switchToView (s : App) (view : Option SubGhzView) : Option App :=
  (s.exitView reset).enterView reset view

/-- The input of the current view, which is not the menu. -/
def viewInput (s : App) (event : InputEvent) : Option App :=
  match s.currentView with
  | none | some .menu => some s
  | some .testBasic =>
    ((subghzTestBasic reset).input reset event s.testBasic s.device).map fun (m, d) =>
      { s with testBasic := m, device := d, basicTimer := decide (m.status = .rx) }
  | some .testPacket =>
    ((subghzTestPacket reset).input reset event s.testPacket s.device).map fun (m, d) =>
      { s with testPacket := m, device := d, packetTimer := decide (m.status = .rx) }
  | some .static => (Static.input reset event s.static s.device).map fun (m, d) =>
    { s with static := m, device := d }

inductive Event
  | input (event : InputEvent)
  | menu (index : ℕ)
  /-- A timer reads the signal strength, also when it has been stopped since. -/
  | rssi
  /-- The chip has sent or received a packet. -/
  | packet

/-- `view_dispatcher_handle_input`, where only the key that goes back is not consumed. -/
def handleInput (s : App) (view : SubGhzView) (event : InputEvent) : Option App :=
  if event.key = .back then
    if event.type = .short then
      s.switchToView reset (if view = .menu then none else some .menu)
    else some s
  else s.viewInput reset event

def subghzMenuCallback (s : App) : ℕ → Option App
  | 0 => s.switchToView reset (some .testBasic)
  | 1 => s.switchToView reset (some .testPacket)
  | 2 => s.switchToView reset (some .static)
  | _ => some s

def next (s : App) : Event → Option App
  | .input event => s.currentView.bind fun view => s.handleInput reset view event
  | .menu index => if s.currentView = some .menu then s.subghzMenuCallback reset index else none
  | .rssi =>
    some { s with device := { s.device with radio := s.device.radio.apiHalSubghzGetRssi reset } }
  | .packet => some { s with device := { s.device with radio := s.device.radio.packetEnd } }

/-- The application at its start, with the radio as it has been since the device started. -/
def machine (boot : SubghzRadio) : Machine App Event where
  init :=
    { device := ⟨apiHalSubghzInit reset boot, [], []⟩
      currentView := some .menu
      testBasic := ⟨0, 0, .pathIsolate, .rx⟩
      testPacket := ⟨0, 0, .pathIsolate, .rx⟩
      static := ⟨0, 0, .pathIsolate, 0⟩
      basicTimer := false
      packetTimer := false }
  next := next reset

end App

variable {reset} {radio : SubghzRadio}

/-- Nothing is sent or received, and the pin at GD0 is let go. The antenna is isolated unless the
switch has been left at one of the upper paths. -/
structure Off (radio : SubghzRadio) : Prop where
  mode : ¬radio.mode.Active
  g0 : radio.g0 = .analog
  path : radio.Selects (if radio.rfSw0 then .path315 else .pathIsolate)

variable (reset) in
/-- The radio is as the current view shows it, and off where there is none. -/
structure App.Agrees (s : App) : Prop where
  off : s.currentView = none ∨ s.currentView = some .menu → Off s.device.radio
  testBasic : s.currentView = some .testBasic →
    (subghzTestBasic reset).Shows s.testBasic s.device.radio ∧
      BasicReady s.testBasic.status s.device
  testPacket : s.currentView = some .testPacket →
    (subghzTestPacket reset).Shows s.testPacket s.device.radio ∧
      PacketReady s.testPacket.status s.device
  static : s.currentView = some .static → Static.Shows s.static s.device.radio
  basicTimer : s.basicTimer = true ↔
    s.currentView = some .testBasic ∧ s.testBasic.status = .rx
  packetTimer : s.packetTimer = true ↔
    s.currentView = some .testPacket ∧ s.testPacket.status = .rx
  sent : ∀ x ∈ s.device.sent, SentByHand x.1 x.2

theorem off_apiHalSubghzInit (reset : Reset) (radio : SubghzRadio) :
    Off (apiHalSubghzInit reset radio) where
  mode := by rintro (h | h) <;> cases h
  g0 := rfl
  path := by
    have hwrite (radio : SubghzRadio) : (radio.writeReg reset 0x00 0x2F).chip.regs 0x00 = 0x2F := by
      rw [SubghzRadio.writeReg, Cc1101Spi.cc1101WriteReg_eq (by decide)]
      rfl
    refine ⟨?_, ?_⟩
    · split <;> simp_all [ApiHalSubGhzPath.rfSw0]
    · refine (hwrite _).trans ?_
      split <;> rfl

theorem Off.apiHalSubghzGetRssi (h : Off radio) : Off (radio.apiHalSubghzGetRssi reset) where
  mode := by
    rw [SubghzRadio.apiHalSubghzGetRssi_eq]
    intro hactive
    apply h.mode
    cases hmode : radio.mode with
    | sleep => simp [RadioMode.Active, RadioMode.selected, hmode] at hactive
    | idle => simp [RadioMode.Active, RadioMode.selected, hmode] at hactive
    | rx => exact .inl rfl
    | tx => exact .inr rfl
  g0 := h.g0
  path := h.path

theorem Off.packetEnd (h : Off radio) : Off radio.packetEnd := by
  rwa [SubghzRadio.packetEnd_of_not_active h.mode]

theorem apiHalSubghzGetRssi_of_awake (h : radio.mode ≠ .sleep) :
    radio.apiHalSubghzGetRssi reset = radio := by
  rw [SubghzRadio.apiHalSubghzGetRssi_eq]
  obtain ⟨_, mode, _, _, _⟩ := radio
  cases mode with
  | sleep => exact absurd rfl h
  | idle => rfl
  | rx => rfl
  | tx => rfl

theorem TestView.Shows.awake {view : TestView} {m : TestModel} (h : view.Shows m radio) :
    radio.mode ≠ .sleep := by
  rcases h.mode with hmode | ⟨-, hmode⟩
  · rw [hmode]
    cases m.status <;> exact nofun
  · rw [hmode]
    exact nofun

namespace App

variable {s s' : App}

theorem Agrees.awake (h : s.Agrees reset) {view : SubGhzView} (hview : s.currentView = some view)
    (hmenu : view ≠ .menu) : s.device.radio.mode ≠ .sleep := by
  cases view with
  | menu => exact absurd rfl hmenu
  | testBasic => exact (h.testBasic hview).1.awake
  | testPacket => exact (h.testPacket hview).1.awake
  | static =>
    rw [(h.static hview).mode]
    exact nofun

theorem Agrees.exitView (h : s.Agrees reset) : Off (s.exitView reset).device.radio ∧
    (s.exitView reset).device.sent = s.device.sent ∧ (s.exitView reset).basicTimer = false ∧
      (s.exitView reset).packetTimer = false := by
  have hbasic := h.basicTimer
  have hpacket := h.packetTimer
  cases hview : s.currentView with
  | none =>
    simp only [hview, reduceCtorEq, false_and, iff_false, Bool.not_eq_true] at hbasic hpacket
    simp only [App.exitView, hview]
    exact ⟨h.off (.inl hview), trivial, hbasic, hpacket⟩
  | some view =>
    cases view with
    | menu =>
      simp only [hview, Option.some.injEq, reduceCtorEq, false_and, iff_false, Bool.not_eq_true]
        at hbasic hpacket
      simp only [App.exitView, hview]
      exact ⟨h.off (.inr hview), trivial, hbasic, hpacket⟩
    | testBasic =>
      simp only [hview, Option.some.injEq, reduceCtorEq, false_and, iff_false, Bool.not_eq_true]
        at hpacket
      simp only [App.exitView, hview]
      exact ⟨off_apiHalSubghzInit reset _, trivial, trivial, hpacket⟩
    | testPacket =>
      simp only [hview, Option.some.injEq, reduceCtorEq, false_and, iff_false, Bool.not_eq_true]
        at hbasic
      simp only [App.exitView, hview]
      exact ⟨off_apiHalSubghzInit reset _, trivial, hbasic, trivial⟩
    | static =>
      simp only [hview, Option.some.injEq, reduceCtorEq, false_and, iff_false, Bool.not_eq_true]
        at hbasic hpacket
      simp only [App.exitView, hview]
      exact ⟨off_apiHalSubghzInit reset _, trivial, hbasic, hpacket⟩

theorem Agrees.switchToView (h : s.Agrees reset) (view : Option SubGhzView) :
    ∃ s', s.switchToView reset view = some s' ∧ s'.Agrees reset := by
  obtain ⟨hoff, hsent, hbasic, hpacket⟩ := h.exitView
  have hall : ∀ x ∈ (s.exitView reset).device.sent, SentByHand x.1 x.2 := by
    rw [hsent]
    exact h.sent
  rw [App.switchToView]
  generalize s.exitView reset = t at hoff hbasic hpacket hall
  match view with
  | none => exact ⟨_, rfl, fun _ => hoff, nofun, nofun, nofun, by simp [hbasic], by simp [hpacket],
      hall⟩
  | some .menu => exact ⟨_, rfl, fun _ => hoff, nofun, nofun, nofun, by simp [hbasic],
      by simp [hpacket], hall⟩
  | some .testBasic =>
    obtain ⟨m, d, heq, hshows, hrx, hready, hsent'⟩ :=
      TestView.exists_enter starts_subghzTestBasic t.device
    refine ⟨{ t with
      currentView := some .testBasic, testBasic := m, device := d, basicTimer := true },
      by rw [enterView, heq]; rfl, by simp, fun _ => ⟨hshows, hready⟩, nofun, nofun,
      by simp [hrx], by simp [hpacket], by rwa [hsent']⟩
  | some .testPacket =>
    obtain ⟨m, d, heq, hshows, hrx, hready, hsent'⟩ :=
      TestView.exists_enter starts_subghzTestPacket t.device
    refine ⟨{ t with
      currentView := some .testPacket, testPacket := m, device := d, packetTimer := true },
      by rw [enterView, heq]; rfl, by simp, nofun, fun _ => ⟨hshows, hready⟩, nofun,
      by simp [hbasic], by simp [hrx], by rwa [hsent']⟩
  | some .static =>
    obtain ⟨m, d, heq, hshows, hsent'⟩ := Static.exists_enter t.device
    refine ⟨{ t with currentView := some .static, static := m, device := d },
      by rw [enterView, heq]; rfl, by simp, nofun, nofun, fun _ => hshows,
      by simp [hbasic], by simp [hpacket], by rwa [hsent']⟩

/-- A key has just been pressed in a view that tests the radio. -/
def Restarted (s : App) : Prop :=
  (s.currentView = some .testBasic → s.device.radio.mode = s.testBasic.status.mode) ∧
    (s.currentView = some .testPacket → s.device.radio.mode = s.testPacket.status.mode)

theorem Agrees.viewInput (h : s.Agrees reset) (event : InputEvent) :
    ∃ s', s.viewInput reset event = some s' ∧ s'.Agrees reset ∧ s'.Restarted := by
  rw [App.viewInput]
  cases hview : s.currentView with
  | none => exact ⟨s, rfl, h, by simp [Restarted, hview]⟩
  | some view =>
    cases view with
    | menu => exact ⟨s, rfl, h, by simp [Restarted, hview]⟩
    | testBasic =>
      obtain ⟨hshows, hready⟩ := h.testBasic hview
      obtain ⟨m, d, heq, hshows', hmode, hready', hsent⟩ :=
        TestView.exists_input starts_subghzTestBasic hshows hready event
      refine ⟨{ s with
        currentView := some .testBasic, testBasic := m, device := d
        basicTimer := decide (m.status = .rx) },
        by rw [heq]; rfl, ⟨by simp, fun _ => ⟨hshows', hready'⟩, nofun, nofun, by simp,
        by simpa [hview] using h.packetTimer, ?_⟩, fun _ => hmode, nofun⟩
      simpa only [hsent] using h.sent
    | testPacket =>
      obtain ⟨hshows, hready⟩ := h.testPacket hview
      obtain ⟨m, d, heq, hshows', hmode, hready', hsent⟩ :=
        TestView.exists_input starts_subghzTestPacket hshows hready event
      refine ⟨{ s with
        currentView := some .testPacket, testPacket := m, device := d
        packetTimer := decide (m.status = .rx) },
        by rw [heq]; rfl, ⟨by simp, nofun, fun _ => ⟨hshows', hready'⟩, nofun,
        by simpa [hview] using h.basicTimer, by simp, ?_⟩, nofun, fun _ => hmode⟩
      simpa only [hsent] using h.sent
    | static =>
      obtain ⟨m, d, heq, hshows, hsent⟩ := Static.exists_input (h.static hview) event h.sent
      exact ⟨{ s with currentView := some .static, static := m, device := d },
        by rw [heq]; rfl, ⟨by simp, nofun, nofun, fun _ => hshows,
        by simpa [hview] using h.basicTimer, by simpa [hview] using h.packetTimer, hsent⟩,
        nofun, nofun⟩

theorem Agrees.rssi (h : s.Agrees reset) :
    App.Agrees reset { s with
      device := { s.device with radio := s.device.radio.apiHalSubghzGetRssi reset } } := by
  by_cases hoff : s.currentView = none ∨ s.currentView = some .menu
  · have hne (view : SubGhzView) (hmenu : view ≠ .menu) : s.currentView ≠ some view := by
      intro hview
      simp [hview, hmenu] at hoff
    exact ⟨fun _ => (h.off hoff).apiHalSubghzGetRssi,
      fun hview => absurd hview (hne .testBasic nofun),
      fun hview => absurd hview (hne .testPacket nofun),
      fun hview => absurd hview (hne .static nofun), h.basicTimer, h.packetTimer, h.sent⟩
  · obtain ⟨view, hview⟩ := Option.ne_none_iff_exists'.mp fun hnone => hoff (.inl hnone)
    have hawake := h.awake hview fun hmenu => hoff (.inr (hmenu ▸ hview))
    rwa [apiHalSubghzGetRssi_of_awake hawake]

theorem Agrees.packet (h : s.Agrees reset) : App.Agrees reset { s with
    device := { s.device with radio := s.device.radio.packetEnd } } where
  off hview := (h.off hview).packetEnd
  testBasic hview := by
    obtain ⟨hshows, hready⟩ := h.testBasic hview
    rw [packetEnd_of_ookAsync hshows.preset]
    exact ⟨hshows, hready⟩
  testPacket hview := by
    obtain ⟨hshows, hready⟩ := h.testPacket hview
    exact ⟨hshows.packetEnd, (SubghzRadio.packetEnd_g0 _).trans hready.g0, hready.tx⟩
  static hview := by
    rw [packetEnd_of_ookAsync (h.static hview).preset]
    exact h.static hview
  basicTimer := h.basicTimer
  packetTimer := h.packetTimer
  sent := h.sent

theorem Agrees.subghzMenuCallback (h : s.Agrees reset) (index : ℕ) :
    ∃ s', s.subghzMenuCallback reset index = some s' ∧ s'.Agrees reset := by
  match index with
  | 0 => exact h.switchToView _
  | 1 => exact h.switchToView _
  | 2 => exact h.switchToView _
  | _ + 3 => exact ⟨s, rfl, h⟩

theorem Agrees.handleInput (h : s.Agrees reset) (view : SubGhzView) (event : InputEvent) :
    ∃ s', s.handleInput reset view event = some s' ∧ s'.Agrees reset := by
  rw [App.handleInput]
  by_cases hback : event.key = .back
  · rw [if_pos hback]
    by_cases htype : event.type = .short
    · rw [if_pos htype]
      exact h.switchToView _
    · rw [if_neg htype]
      exact ⟨s, rfl, h⟩
  · rw [if_neg hback]
    obtain ⟨s', heq, h', -⟩ := h.viewInput event
    exact ⟨s', heq, h'⟩

theorem Agrees.next (h : s.Agrees reset) {event : Event} (hs : s.next reset event = some s') :
    s'.Agrees reset := by
  cases event with
  | rssi => exact Option.some.inj hs ▸ h.rssi
  | packet => exact Option.some.inj hs ▸ h.packet
  | menu index =>
    obtain ⟨t, heq, h'⟩ := h.subghzMenuCallback index
    rw [App.next, heq] at hs
    split at hs
    · exact Option.some.inj hs ▸ h'
    · cases hs
  | input event =>
    obtain ⟨view, -, hs⟩ := Option.bind_eq_some_iff.mp hs
    obtain ⟨t, heq, h'⟩ := h.handleInput view event
    exact Option.some.inj (heq.symm.trans hs) ▸ h'

variable {boot : SubghzRadio}

/-- Whatever keys are pressed and whenever the timers come and packets end, a view that tests the
radio shows the frequency, the path and the direction that the radio has, the view that sends a code
does so on an entry of the table and through its path, and in the menu the radio is off. No check
fails, and with each key a view that tests the radio lets it go on as is shown. -/
theorem subghz_app_shows (h : (machine reset boot).Reachable s) : s.Agrees reset ∧
    (∀ event, s.currentView ≠ none → (s.next reset (.input event)).isSome) ∧
    (∀ index, s.currentView = some .menu → (s.next reset (.menu index)).isSome) ∧
    ∀ event s', event.key ≠ .back → s.next reset (.input event) = some s' → s'.Restarted := by
  have hagrees : s.Agrees reset := by
    refine h.invariant ?_ fun s event s' hs hnext => hs.next hnext
    exact ⟨fun _ => off_apiHalSubghzInit reset boot, nofun, nofun, nofun, by simp [machine],
      by simp [machine], nofun⟩
  refine ⟨hagrees, ?_, ?_, ?_⟩
  · intro event hview
    obtain ⟨view, hview⟩ := Option.ne_none_iff_exists'.mp hview
    obtain ⟨s', heq, -⟩ := hagrees.handleInput view event
    rw [App.next, hview, Option.bind_some, heq]
    rfl
  · intro index hview
    obtain ⟨s', heq, -⟩ := hagrees.subghzMenuCallback index
    rw [App.next, if_pos hview, heq]
    rfl
  · intro event s' hback hs
    obtain ⟨view, -, hs⟩ := Option.bind_eq_some_iff.mp hs
    rw [App.handleInput, if_neg hback] at hs
    obtain ⟨t, heq, -, hrestarted⟩ := hagrees.viewInput event
    exact Option.some.inj (heq.symm.trans hs) ▸ hrestarted

/-- The basic test is chosen from the menu and receives. -/
theorem subghz_app_shows_basic : ∃ s, (machine ⟨fun _ => 0, id⟩
    ⟨⟨fun _ => 0, fun _ => 0⟩, .idle, false, .analog, false⟩).Reachable s ∧
      s.currentView = some .testBasic ∧ s.Agrees ⟨fun _ => 0, id⟩ := by
  let M := machine ⟨fun _ => 0, id⟩ ⟨⟨fun _ => 0, fun _ => 0⟩, .idle, false, .analog, false⟩
  have hinit : M.Reachable M.init := .init
  obtain ⟨s, heq, -⟩ := (subghz_app_shows hinit).1.switchToView (some .testBasic)
  have hreach : M.Reachable s := Machine.Reachable.step (l := .menu 0) hinit heq
  rw [switchToView, enterView, Option.map_eq_some_iff] at heq
  obtain ⟨_, -, rfl⟩ := heq
  exact ⟨_, hreach, rfl, (subghz_app_shows hreach).1⟩

end App

end FlipperZero.SubGhz
