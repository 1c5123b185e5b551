import FlipperZero.Lib.Machine
import FlipperZero.Notification.Semantics
import Mathlib.Algebra.GroupWithZero.Nat
import Mathlib.Data.List.Induction

/-! # The backlight and its timer

Messages reach the service through a queue. The display timer expires once, at any time while it
runs; its callback then sends the sequence that switches the display off. Between two messages the
timer should run where the backlight is on.
-/

namespace FlipperZero.Notification

open Lib

variable {Sound : Type}

inductive NotificationAppMessageType where
  | notificationLayer
  | internalLayer
deriving DecidableEq, Repr

structure NotificationAppMessage (Sound : Type) where
  sequence : List (NotificationMessage Sound)
  type : NotificationAppMessageType
deriving DecidableEq, Repr

def sequenceDisplayOn : List (NotificationMessage Sound) := [.ledDisplay 0xFF]
def sequenceDisplayOff : List (NotificationMessage Sound) := [.ledDisplay 0]

section Internal

variable (app : NotificationApp Sound)

/-- Set the internal layer of the display; its light follows only on that layer. -/
def NotificationApp.applyInternalDisplay (value : UInt8) : NotificationApp Sound :=
  { app with
    display := { app.display with internal := value }
    lights :=
      if app.display.index = .internal then Function.update app.lights .backlight value
      else app.lights }

def NotificationApp.applyInternalLed (i : Fin notificationLedCount) (value : UInt8) :
    NotificationApp Sound :=
  { app with
    led := Function.update app.led i { app.led i with internal := value }
    lights :=
      if (app.led i).index = .internal then Function.update app.lights (ledLight i) value
      else app.lights }

local instance threeLeds : NeZero notificationLedCount := ⟨Nat.succ_ne_zero 2⟩

def processInternalStep : NotificationMessage Sound → NotificationApp Sound
  | .ledDisplay value => app.applyInternalDisplay (app.settings.displayBrightness value)
  | .ledRed value => app.applyInternalLed 0 (app.settings.rgbLedBrightness value)
  | .ledGreen value => app.applyInternalLed 1 (app.settings.rgbLedBrightness value)
  | .ledBlue value => app.applyInternalLed 2 (app.settings.rgbLedBrightness value)
  | _ => app

def notificationProcessInternalMessage (sequence : List (NotificationMessage Sound)) :
    NotificationApp Sound :=
  sequence.foldl processInternalStep app

end Internal

/-- A sequence during which the timer expires before its message with that number. -/
def processExpiring (app : NotificationApp Sound) (sequence : List (NotificationMessage Sound))
    (k : ℕ) : Option (NotificationApp Sound) :=
  let l := processMessages app (sequence.take k)
  if l.app.displayTimer then
    let l := { l with app := { l.app with displayTimer := false } }
    some ((sequence.drop k).foldl Loop.processMessage l).finish.app
  else none

section Loops

variable {l : Loop Sound} {a app : NotificationApp Sound} {p : List (NotificationMessage Sound)}

theorem processMessage_displayTimer (l : Loop Sound) (m : NotificationMessage Sound) :
    (l.processMessage m).app.displayTimer = true ↔
      l.app.displayTimer = true ∧ m ≠ .ledDisplay 0 := by
  cases m with
  | ledDisplay value =>
    simp only [Loop.processMessage]
    split
    · next hpos =>
      refine (and_iff_left ?_).symm
      intro hzero
      rw [NotificationMessage.ledDisplay.injEq] at hzero
      rw [hzero] at hpos
      exact absurd hpos (by decide)
    · next hpos =>
      have hzero : value = 0 := UInt8.toNat_inj.mp (Nat.eq_zero_of_not_pos hpos)
      rw [hzero]
      exact iff_of_false Bool.false_ne_true fun h => h.2 rfl
  | delay length =>
    refine (iff_of_eq ?_).trans (and_iff_left (by rintro ⟨⟩)).symm
    simp only [Loop.processMessage, Loop.blink]
    split
    · split <;> rfl
    · rfl
  | _ => exact (and_iff_left (by rintro ⟨⟩)).symm

theorem foldl_displayTimer (l : Loop Sound) (p : List (NotificationMessage Sound)) :
    (p.foldl Loop.processMessage l).app.displayTimer = true ↔
      l.app.displayTimer = true ∧ .ledDisplay 0 ∉ p := by
  induction p generalizing l with
  | nil => exact (and_iff_left List.not_mem_nil).symm
  | cons m p ih =>
    rw [List.foldl_cons, ih, processMessage_displayTimer, List.mem_cons, not_or, and_assoc, ne_comm]

theorem resetNotificationLayer_frame (app : NotificationApp Sound) (mask : ResetMask) :
    ((app.resetNotificationLayer mask).displayTimer = true ↔
      mask.display = true ∨ app.displayTimer = true) ∧
    (app.resetNotificationLayer mask).settings = app.settings := by
  have hrange : List.finRange notificationLedCount = [0, 1, 2] := rfl
  simp only [NotificationApp.resetNotificationLayer, hrange, List.foldl]
  have htimer {timer : Bool} : (if mask.display = true then true else timer) = true ↔
      mask.display = true ∨ timer = true := by
    cases mask.display <;> simp
  cases mask.led 0 <;> cases mask.led 1 <;> cases mask.led 2 <;> exact ⟨htimer, rfl⟩

theorem flush_same (l : Loop Sound) : l.flush.app.displayTimer = l.app.displayTimer ∧
    l.flush.resetNotifications = l.resetNotifications ∧
    l.flush.resetMask.display = l.resetMask.display ∧ l.flush.app.settings = l.app.settings := by
  unfold Loop.flush
  split
  · split
    · rw [Loop.app_delay, Loop.app_applyLeds, Loop.app_sent, Loop.app_applyLeds,
        applyNotificationLeds_displayTimer, applyNotificationLeds_displayTimer,
        applyNotificationLeds_settings, applyNotificationLeds_settings]
      exact ⟨rfl, rfl, rfl, rfl⟩
    · rw [Loop.app_sent, Loop.app_applyLeds, applyNotificationLeds_displayTimer,
        applyNotificationLeds_settings]
      exact ⟨rfl, rfl, rfl, rfl⟩
  · exact ⟨rfl, rfl, rfl, rfl⟩

theorem finish_displayTimer (l : Loop Sound) : l.finish.app.displayTimer = true ↔
    l.resetNotifications = true ∧ l.resetMask.display = true ∨ l.app.displayTimer = true := by
  obtain ⟨htimer, hreset, hmask, -⟩ := flush_same l
  rw [Loop.finish_eq, ← hreset, ← hmask, ← htimer]
  split
  · next hr => rw [hr, (resetNotificationLayer_frame _ _).1, eq_self, true_and]
  · next hr => exact ⟨.inr, fun h => h.resolve_left fun h => hr h.1⟩

theorem processMessage_settings (l : Loop Sound) (m : NotificationMessage Sound) :
    (l.processMessage m).app.settings = l.app.settings := by
  cases m with
  | ledDisplay value =>
    simp only [Loop.processMessage]
    split <;> rfl
  | delay length =>
    simp only [Loop.processMessage, Loop.blink]
    split
    · split <;> rfl
    · rfl
  | _ => rfl

theorem foldl_settings (l : Loop Sound) (p : List (NotificationMessage Sound)) :
    (p.foldl Loop.processMessage l).app.settings = l.app.settings := by
  induction p generalizing l with
  | nil => rfl
  | cons m p ih => rw [List.foldl_cons, ih, processMessage_settings]

theorem finish_settings (l : Loop Sound) : l.finish.app.settings = l.app.settings := by
  obtain ⟨-, -, -, hsettings⟩ := flush_same l
  rw [Loop.finish_eq, ← hsettings]
  split
  · exact (resetNotificationLayer_frame _ _).2
  · rfl

theorem processInternalStep_spec (app : NotificationApp Sound) (m : NotificationMessage Sound) :
    (processInternalStep app m).settings = app.settings ∧
    (processInternalStep app m).displayTimer = app.displayTimer ∧
    (processInternalStep app m).display.index = app.display.index ∧
    (processInternalStep app m).lights .backlight =
      match valueFor .backlight m with
      | none => app.lights .backlight
      | some value =>
        if app.display.index = .internal then app.settings.displayBrightness value
        else app.lights .backlight := by
  have hled (i : Fin notificationLedCount) (value : UInt8) :
      (app.applyInternalLed i value).lights .backlight = app.lights .backlight := by
    simp only [NotificationApp.applyInternalLed]
    split
    · exact Function.update_of_ne (ledLight_ne_backlight i).symm _ _
    · rfl
  cases m with
  | ledDisplay value =>
    refine ⟨rfl, rfl, rfl, ?_⟩
    simp only [processInternalStep, NotificationApp.applyInternalDisplay, valueFor, if_true]
    split
    · exact Function.update_self _ _ _
    · rfl
  | ledRed value => exact ⟨rfl, rfl, rfl, hled 0 _⟩
  | ledGreen value => exact ⟨rfl, rfl, rfl, hled 1 _⟩
  | ledBlue value => exact ⟨rfl, rfl, rfl, hled 2 _⟩
  | _ => exact ⟨rfl, rfl, rfl, rfl⟩

theorem processInternal_spec (app : NotificationApp Sound) (p : List (NotificationMessage Sound)) :
    (notificationProcessInternalMessage app p).settings = app.settings ∧
    (notificationProcessInternalMessage app p).displayTimer = app.displayTimer ∧
    (notificationProcessInternalMessage app p).display.index = app.display.index ∧
    (notificationProcessInternalMessage app p).lights .backlight =
      match lastValue .backlight p with
      | none => app.lights .backlight
      | some value =>
        if app.display.index = .internal then app.settings.displayBrightness value
        else app.lights .backlight := by
  induction p using List.reverseRecOn with
  | nil => exact ⟨rfl, rfl, rfl, rfl⟩
  | append_singleton p m ih =>
    obtain ⟨hsettings, htimer, hindex, hlight⟩ := ih
    obtain ⟨hsettings', htimer', hindex', hlight'⟩ :=
      processInternalStep_spec (notificationProcessInternalMessage app p) m
    have hstep : notificationProcessInternalMessage app (p ++ [m]) =
        processInternalStep (notificationProcessInternalMessage app p) m := by
      simp only [notificationProcessInternalMessage, List.foldl_append, List.foldl_cons,
        List.foldl_nil]
    rw [hsettings, hindex] at hlight'
    rw [hstep, lastValue_concat]
    refine ⟨hsettings'.trans hsettings, htimer'.trans htimer, hindex'.trans hindex, ?_⟩
    rw [hlight']
    cases valueFor .backlight m with
    | none => exact hlight
    | some value =>
      change (if _ then _ else (notificationProcessInternalMessage app p).lights .backlight) =
        if _ then _ else _
      split
      · rfl
      · next hnotification =>
        rw [hlight]
        split
        · rfl
        · exact if_neg hnotification

end Loops

structure Service (Sound : Type) where
  app : NotificationApp Sound
  queue : List (NotificationAppMessage Sound)
  /-- The timer has expired and its callback has still to send. -/
  expired : Bool

namespace Service

def queueLength : ℕ := 8

/-- What `notification_app_alloc` and the start of `notification_app` leave. -/
def init : Service Sound where
  app :=
    { displayTimer := false
      display := ⟨0, 0, .internal⟩
      led _ := ⟨0, 0, .internal⟩
      settings := ⟨id, id⟩
      lights _ := 0
      vibro := false
      sound := none }
  queue := []
  expired := false

inductive Label (Sound : Type) where
  | send (message : NotificationAppMessage Sound)
  | expire
  /-- `notification_display_timer` sends its sequence. -/
  | callback
  /-- The first message is processed; the timer may expire meanwhile. -/
  | process (expiry : Option ℕ)

def put (s : Service Sound) (message : NotificationAppMessage Sound) : Option (Service Sound) :=
  if s.queue.length < queueLength then some { s with queue := s.queue ++ [message] } else none

/-- The processing of a message, without an expiry or with one. -/
def processOne (app : NotificationApp Sound) (message : NotificationAppMessage Sound) :
    Option ℕ → Option (NotificationApp Sound)
  | none =>
    match message.type with
    | .notificationLayer =>
      some (notificationProcessNotificationMessage app message.sequence).app
    | .internalLayer => some (notificationProcessInternalMessage app message.sequence)
  | some k =>
    match message.type with
    | .notificationLayer => processExpiring app message.sequence k
    | .internalLayer => none

def machine (Sound : Type) : Machine (Service Sound) (Label Sound) where
  init := .init
  next s
    | .send message => s.put message
    | .expire =>
      if s.app.displayTimer ∧ ¬s.expired then
        some { s with app := { s.app with displayTimer := false }, expired := true }
      else none
    | .callback =>
      if s.expired then
        { s with expired := false }.put ⟨sequenceDisplayOff, .notificationLayer⟩
      else none
    | .process expiry =>
      match s.queue with
      | [] => none
      | message :: queue =>
        if expiry.isSome ∧ s.expired then none
        else
          (processOne s.app message expiry).map fun app =>
            ⟨app, queue, s.expired || expiry.isSome⟩

/-- The app waits for a message, and none is under way. -/
def Idle (s : Service Sound) : Prop := s.queue = [] ∧ s.expired = false

def Timed (app : NotificationApp Sound) : Prop :=
  app.displayTimer = true ↔ 0 < app.lights .backlight

/-- What a sequence leaves the backlight at: on by its last display message or by the internal
layer. A sequence that is reset must leave it on; one that is not must leave it off where it has
stopped the timer, and else as the timer ran before. Without a display message nothing changes. -/
def KeepsTimed (app : NotificationApp Sound) (message : NotificationAppMessage Sound) : Prop :=
  match message.type, lastValue .backlight message.sequence with
  | _, none => Timed app
  | .notificationLayer, some value =>
    let on := 0 < value ∨ 0 < app.display.internal
    (.doNotReset ∉ message.sequence → on) ∧
      (.doNotReset ∈ message.sequence →
        ((app.displayTimer = true ∧ .ledDisplay 0 ∉ message.sequence) ↔ on))
  | .internalLayer, some value =>
    if app.display.index = .internal then app.displayTimer = true ↔ 0 < value else Timed app

/-- The condition on the message after which the app is idle. -/
def Keeps (s : Service Sound) : Label Sound → Prop
  | .process none => s.expired = false → ∀ message, s.queue = [message] → KeepsTimed s.app message
  | _ => True

variable {s s' : Service Sound} {l : Label Sound} {app : NotificationApp Sound}
  {sequence : List (NotificationMessage Sound)}

theorem lastValue_isSome (h : .ledDisplay 0 ∈ sequence) :
    (lastValue .backlight sequence).isSome := by
  rw [lastValue, List.getLast?_isSome]
  exact List.ne_nil_of_mem (List.mem_filterMap.mpr ⟨_, h, rfl⟩)

/-- The values of the settings after `notification_app_alloc` leave every value as it is. -/
theorem timed_notification (hsettings : app.settings = ⟨id, id⟩) :
    Timed (notificationProcessNotificationMessage app sequence).app ↔
      KeepsTimed app ⟨sequence, .notificationLayer⟩ := by
  have hscale : app.settings.displayBrightness = app.settings.rgbLedBrightness := by rw [hsettings]
  have hplayed := played hscale sequence
  have hfinal := hplayed.finish hscale
  have htimer : (notificationProcessNotificationMessage app sequence).app.displayTimer = true ↔
      .doNotReset ∉ sequence ∧ (lastValue .backlight sequence).isSome ∨
        app.displayTimer = true ∧ .ledDisplay 0 ∉ sequence := by
    rw [notificationProcessNotificationMessage, finish_displayTimer, hplayed.reset,
      hplayed.maskDisplay]
    exact or_congr_right (foldl_displayTimer _ _)
  unfold Timed KeepsTimed
  cases hlast : lastValue .backlight sequence with
  | none =>
    have hzero : .ledDisplay 0 ∉ sequence := by
      intro hmem
      have hsome := lastValue_isSome hmem
      rw [hlast] at hsome
      cases hsome
    rw [htimer, hlast, notificationProcessNotificationMessage, hfinal.noDisplay hlast]
    simp only [Option.isSome_none, Bool.false_eq_true, and_false, false_or, hzero,
      not_false_eq_true, and_true]
    exact Iff.rfl
  | some value =>
    have hon : 0 < (notificationProcessNotificationMessage app sequence).app.lights .backlight ↔
        0 < value ∨ 0 < app.display.internal := by
      rw [notificationProcessNotificationMessage, hfinal.display value hlast]
      split
      · next hpos =>
        refine iff_of_true ?_ (.inl hpos)
        rw [NotificationSettings.scale, if_pos rfl, hsettings]
        exact hpos
      · next hpos => exact (or_iff_right hpos).symm
    rw [htimer, hon, hlast]
    simp only [Option.isSome_some, and_true]
    by_cases hreset : .doNotReset ∈ sequence
    · simp only [hreset, not_true_eq_false, false_or, false_implies, true_and, true_implies]
    · simp only [hreset, not_false_eq_true, true_or, true_iff, true_implies, false_implies,
        and_true]

theorem timed_internal (hsettings : app.settings = ⟨id, id⟩) :
    Timed (notificationProcessInternalMessage app sequence) ↔
      KeepsTimed app ⟨sequence, .internalLayer⟩ := by
  obtain ⟨-, htimer, -, hlight⟩ := processInternal_spec app sequence
  unfold Timed KeepsTimed
  rw [htimer, hlight]
  cases lastValue .backlight sequence with
  | none => rfl
  | some value =>
    simp only
    split
    · rw [hsettings]
      rfl
    · rfl

theorem timed_process (hsettings : app.settings = ⟨id, id⟩) {message : NotificationAppMessage Sound}
    {app' : NotificationApp Sound} (h : processOne app message none = some app') :
    Timed app' ↔ KeepsTimed app message := by
  obtain ⟨sequence, type⟩ := message
  cases type with
  | notificationLayer => exact Option.some.inj h ▸ timed_notification hsettings
  | internalLayer => exact Option.some.inj h ▸ timed_internal hsettings

theorem settings_process {message : NotificationAppMessage Sound} {expiry : Option ℕ}
    {app' : NotificationApp Sound} (h : processOne app message expiry = some app') :
    app'.settings = app.settings := by
  obtain ⟨sequence, type⟩ := message
  cases expiry with
  | none =>
    cases type with
    | notificationLayer =>
      obtain rfl := Option.some.inj h
      exact (finish_settings _).trans (foldl_settings _ _)
    | internalLayer =>
      obtain rfl := Option.some.inj h
      exact (processInternal_spec app sequence).1
  | some k =>
    cases type with
    | notificationLayer =>
      simp only [processOne, processExpiring] at h
      split at h
      · obtain rfl := Option.some.inj h
        exact (finish_settings _).trans ((foldl_settings _ _).trans (foldl_settings _ _))
      · cases h
    | internalLayer => cases h

theorem settings_next (hsettings : s.app.settings = ⟨id, id⟩)
    (hs : (machine Sound).next s l = some s') : s'.app.settings = ⟨id, id⟩ := by
  cases l with
  | send message =>
    simp only [machine, put] at hs
    split at hs
    · exact Option.some.inj hs ▸ hsettings
    · cases hs
  | expire =>
    simp only [machine] at hs
    split at hs
    · exact Option.some.inj hs ▸ hsettings
    · cases hs
  | callback =>
    simp only [machine, put] at hs
    split at hs
    · split at hs
      · exact Option.some.inj hs ▸ hsettings
      · cases hs
    · cases hs
  | process expiry =>
    simp only [machine] at hs
    split at hs
    · cases hs
    · split at hs
      · cases hs
      · obtain ⟨app', happ, rfl⟩ := Option.map_eq_some_iff.mp hs
        exact (settings_process happ).trans hsettings

/-- A step leads to a state in which the timer runs where the backlight is on, if the app is idle
there, exactly under the condition. -/
theorem timed_next (hsettings : s.app.settings = ⟨id, id⟩)
    (hs : (machine Sound).next s l = some s') : (Idle s' → Timed s'.app) ↔ s.Keeps l := by
  have hput {s s' : Service Sound} {message : NotificationAppMessage Sound}
      (h : s.put message = some s') : ¬Idle s' := by
    simp only [put] at h
    split at h
    · obtain rfl := Option.some.inj h
      exact fun hidle => List.append_ne_nil_of_right_ne_nil _ (List.cons_ne_nil _ _) hidle.1
    · cases h
  cases l with
  | send message => exact iff_of_true (fun hidle => absurd hidle (hput hs)) trivial
  | expire =>
    simp only [machine] at hs
    split at hs
    · obtain rfl := Option.some.inj hs
      exact iff_of_true (fun hidle => (by cases hidle.2)) trivial
    · cases hs
  | callback =>
    simp only [machine] at hs
    split at hs
    · exact iff_of_true (fun hidle => absurd hidle (hput hs)) trivial
    · cases hs
  | process expiry =>
    simp only [machine] at hs
    cases hqueue : s.queue with
    | nil =>
      rw [hqueue] at hs
      cases hs
    | cons message queue =>
      rw [hqueue] at hs
      simp only at hs
      split at hs
      · cases hs
      · obtain ⟨app', happ, rfl⟩ := Option.map_eq_some_iff.mp hs
        cases expiry with
        | some k =>
          refine iff_of_true (fun hidle => ?_) trivial
          have hexpired := hidle.2
          simp only [Option.isSome_some, Bool.or_true] at hexpired
          cases hexpired
        | none =>
          have htimed := timed_process hsettings happ
          simp only [Keeps, Idle, Option.isSome_none, Bool.or_false, hqueue, List.cons.injEq]
          constructor
          · rintro h hexpired message' ⟨rfl, hnil⟩
            exact htimed.mp (h ⟨hnil, hexpired⟩)
          · rintro h ⟨hnil, hexpired⟩
            exact htimed.mpr (h hexpired message ⟨rfl, hnil⟩)

end Service

/-- In every run in which each message after which the app is idle meets the condition, the display
timer runs where the backlight is on, whenever the app is idle. From every state of such a run the
next step leads to a state of that kind if and only if it meets the condition. -/
theorem backlight_timer {s : Service Sound}
    (hreach : (Service.machine Sound).ReachableWith Service.Keeps s) :
    (s.Idle → Service.Timed s.app) ∧ ∀ l s', (Service.machine Sound).next s l = some s' →
      ((s'.Idle → Service.Timed s'.app) ↔ s.Keeps l) := by
  have hinv : s.app.settings = ⟨id, id⟩ ∧ (s.Idle → Service.Timed s.app) := by
    refine hreach.invariant
      (P := fun s => s.app.settings = ⟨id, id⟩ ∧ (s.Idle → Service.Timed s.app))
      ⟨rfl, fun _ => iff_of_false Bool.false_ne_true (by decide : ¬(0 : UInt8) < 0)⟩ ?_
    rintro t l t' ⟨hsettings, -⟩ hkeeps hs
    exact ⟨Service.settings_next hsettings hs, (Service.timed_next hsettings hs).mpr hkeeps⟩
  exact ⟨hinv.2, fun _ _ => Service.timed_next hinv.1⟩

/-- The service switches the display on and waits. -/
theorem backlight_timer_on : ∃ s : Service Unit, s.Idle ∧ 0 < s.app.lights .backlight ∧
    Service.Timed s.app := by
  have hsent : (Service.machine Unit).ReachableWith Service.Keeps
      ⟨Service.init.app, [⟨sequenceDisplayOn, .notificationLayer⟩], false⟩ :=
    Machine.ReachableWith.init.step (l := .send ⟨sequenceDisplayOn, .notificationLayer⟩) trivial rfl
  have hon : (Service.machine Unit).ReachableWith Service.Keeps
      ⟨(notificationProcessNotificationMessage Service.init.app sequenceDisplayOn).app, [],
        false⟩ := by
    refine hsent.step (l := .process none) ?_ rfl
    rintro - message hmessage
    obtain rfl := List.cons.inj hmessage |>.1
    exact ⟨fun _ => .inl (by decide : (0 : UInt8) < 0xFF), fun h => absurd h (by decide)⟩
  exact ⟨_, ⟨rfl, rfl⟩, (by decide : (0 : UInt8) < 0xFF), (backlight_timer hon).1 ⟨rfl, rfl⟩⟩

/-- After `sequence_display_off` the display is off and the timer runs. -/
theorem backlight_timer_off : ¬∀ s : Service Unit, (Service.machine Unit).Reachable s →
    s.Idle → Service.Timed s.app := by
  intro h
  have hsent : (Service.machine Unit).Reachable
      ⟨Service.init.app, [⟨sequenceDisplayOff, .notificationLayer⟩], false⟩ :=
    Machine.Reachable.step (l := .send ⟨sequenceDisplayOff, .notificationLayer⟩) .init rfl
  have hoff := hsent.step (l := .process none) rfl
  exact absurd ((h _ hoff ⟨rfl, rfl⟩).mp rfl) (by decide : ¬(0 : UInt8) < 0)

end FlipperZero.Notification
