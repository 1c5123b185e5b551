import Mathlib.Data.List.FinRange
import Mathlib.Logic.Function.Basic

/-! # The notification service

Every light has an internal and a notification layer. A sequence of messages is played on the
notification layers; values of the three LEDs are kept until a delay or the end of the sequence.
What the brightness settings, which are floating point factors, make of a value is a parameter.
-/

namespace FlipperZero.Notification

inductive Light where
  | red
  | green
  | blue
  | backlight
deriving DecidableEq, Repr

inductive NotificationLedLayerIndex where
  | internal
  | notification
deriving DecidableEq, Repr

structure NotificationLedLayer where
  internal : UInt8
  notification : UInt8
  index : NotificationLedLayerIndex
deriving DecidableEq, Repr

abbrev notificationLedCount : ℕ := 3

def ledLight : Fin notificationLedCount → Light
  | 0 => .red
  | 1 => .green
  | 2 => .blue

variable {Sound : Type}

inductive NotificationMessage (Sound : Type) where
  | vibro (on : Bool)
  | soundOn (sound : Sound)
  | soundOff
  | ledRed (value : UInt8)
  | ledGreen (value : UInt8)
  | ledBlue (value : UInt8)
  | delay (length : ℕ)
  | ledDisplay (value : UInt8)
  | doNotReset
deriving DecidableEq, Repr

structure NotificationSettings where
  displayBrightness : UInt8 → UInt8
  rgbLedBrightness : UInt8 → UInt8

structure NotificationApp (Sound : Type) where
  /-- The display timer is running. -/
  displayTimer : Bool
  display : NotificationLedLayer
  led : Fin notificationLedCount → NotificationLedLayer
  settings : NotificationSettings
  /-- What the lights, the vibration motor and the speaker have been set to. -/
  lights : Light → UInt8
  vibro : Bool
  sound : Option Sound

structure ResetMask where
  led : Fin notificationLedCount → Bool
  vibro : Bool
  sound : Bool
  display : Bool

def minimalDelay : ℕ := 100

namespace NotificationLedLayer

variable (layer : NotificationLedLayer)

def current : UInt8 :=
  match layer.index with
  | .internal => layer.internal
  | .notification => layer.notification

def applyNotification (value : UInt8) : NotificationLedLayer :=
  { layer with index := .notification, notification := value }

def resetNotification : NotificationLedLayer :=
  { layer with notification := 0, index := .internal }

end NotificationLedLayer

namespace NotificationApp

variable (app : NotificationApp Sound)

/-- Store a layer of the display and set its light. -/
def putDisplay (layer : NotificationLedLayer) : NotificationApp Sound :=
  { app with
    display := layer
    lights := Function.update app.lights .backlight layer.current }

def putLed (i : Fin notificationLedCount) (layer : NotificationLedLayer) : NotificationApp Sound :=
  { app with
    led := Function.update app.led i layer
    lights := Function.update app.lights (ledLight i) layer.current }

def isAnyLedLayerInternalAndNotEmpty : Bool :=
  ((app.led 0).index = .internal || (app.led 1).index = .internal ||
      (app.led 2).index = .internal) &&
    ((app.led 0).internal ≠ 0 || (app.led 1).internal ≠ 0 || (app.led 2).internal ≠ 0)

/-- The LEDs are scaled by the brightness of the display. -/
def applyNotificationLeds (values : Fin notificationLedCount → UInt8) : NotificationApp Sound :=
  (List.finRange notificationLedCount).foldl
    (fun app i =>
      app.putLed i ((app.led i).applyNotification (app.settings.displayBrightness (values i)))) app

def ledOffValues : Fin notificationLedCount → UInt8 := fun _ => 0

def resetNotificationLayer (mask : ResetMask) : NotificationApp Sound :=
  let app := (List.finRange notificationLedCount).foldl
    (fun app i => if mask.led i then app.putLed i (app.led i).resetNotification else app) app
  { app with
    vibro := if mask.vibro then false else app.vibro
    sound := if mask.sound then none else app.sound
    displayTimer := if mask.display then true else app.displayTimer }

end NotificationApp

/-- The local variables of the loop over the messages, and what the lights showed during each
delay, the newest first. -/
structure Loop (Sound : Type) where
  app : NotificationApp Sound
  ledActive : Bool
  ledValues : Fin notificationLedCount → UInt8
  resetNotifications : Bool
  resetMask : ResetMask
  delays : List (ℕ × (Light → UInt8))

namespace Loop

variable (l : Loop Sound)

def start (app : NotificationApp Sound) : Loop Sound where
  app := app
  ledActive := false
  ledValues _ := 0
  resetNotifications := true
  resetMask := ⟨fun _ => false, false, false, false⟩
  delays := []

def delay (length : ℕ) : Loop Sound := { l with delays := (length, l.app.lights) :: l.delays }

def applyLeds (values : Fin notificationLedCount → UInt8) : Loop Sound :=
  { l with app := l.app.applyNotificationLeds values }

def sent : Loop Sound :=
  { l with ledActive := false, resetMask := { l.resetMask with led := fun _ => true } }

/-- The lights go out for a moment when they showed something. -/
def blink : Loop Sound :=
  if l.app.isAnyLedLayerInternalAndNotEmpty then
    (l.applyLeds NotificationApp.ledOffValues).delay minimalDelay
  else l

/-- Keep the value of an LED; it is sent on a delay or after the sequence. -/
def storeLed (i : Fin notificationLedCount) (value : UInt8) : Loop Sound :=
  { l with
    ledActive := true
    ledValues := Function.update l.ledValues i value
    resetMask := { l.resetMask with led := Function.update l.resetMask.led i true } }

def processMessage : NotificationMessage Sound → Loop Sound
  | .ledDisplay value =>
    let app :=
      if 0 < value then
        l.app.putDisplay (l.app.display.applyNotification (l.app.settings.displayBrightness value))
      else { l.app.putDisplay l.app.display.resetNotification with displayTimer := false }
    { l with app := app, resetMask := { l.resetMask with display := true } }
  | .ledRed value => l.storeLed 0 value
  | .ledGreen value => l.storeLed 1 value
  | .ledBlue value => l.storeLed 2 value
  | .vibro on =>
    { l with
      app := { l.app with vibro := on }, resetMask := { l.resetMask with vibro := true } }
  | .soundOn sound =>
    { l with
      app := { l.app with sound := some sound }, resetMask := { l.resetMask with sound := true } }
  | .soundOff =>
    { l with
      app := { l.app with sound := none }, resetMask := { l.resetMask with sound := true } }
  | .delay length =>
    if l.ledActive then ((l.blink.applyLeds l.ledValues).sent).delay length else l.delay length
  | .doNotReset => { l with resetNotifications := false }

/-- After the last message; here the lights go out after the values have been sent. -/
def finish : Loop Sound :=
  let l :=
    if l.ledActive then
      let sent := (l.applyLeds l.ledValues).sent
      if l.app.isAnyLedLayerInternalAndNotEmpty then
        (sent.applyLeds NotificationApp.ledOffValues).delay minimalDelay
      else sent
    else l
  if l.resetNotifications then { l with app := l.app.resetNotificationLayer l.resetMask } else l

end Loop

def processMessages (app : NotificationApp Sound) (sequence : List (NotificationMessage Sound)) :
    Loop Sound :=
  sequence.foldl Loop.processMessage (Loop.start app)

def notificationProcessNotificationMessage (app : NotificationApp Sound)
    (sequence : List (NotificationMessage Sound)) : Loop Sound :=
  (processMessages app sequence).finish

end FlipperZero.Notification
