import FlipperZero.Notification.Basic

/-! # What the lights show

The display follows its messages at once. The three LEDs are driven together: the values they
were given are sent by the next delay or at the end, where a sequence that resets gives each
light back to its internal layer.
-/

namespace FlipperZero.Notification

variable {Sound : Type}

section Sequences

def valueFor (light : Light) : NotificationMessage Sound → Option UInt8
  | .ledDisplay value => if light = .backlight then some value else none
  | .ledRed value => if light = .red then some value else none
  | .ledGreen value => if light = .green then some value else none
  | .ledBlue value => if light = .blue then some value else none
  | _ => none

/-- The last value that a sequence gives to a light. -/
def lastValue (light : Light) (p : List (NotificationMessage Sound)) : Option UInt8 :=
  (p.filterMap (valueFor light)).getLast?

def isDelay : NotificationMessage Sound → Bool
  | .delay _ => true
  | _ => false

def untilDelay (p : List (NotificationMessage Sound)) : List (NotificationMessage Sound) :=
  (p.reverse.dropWhile (!isDelay ·)).reverse

def afterDelay (p : List (NotificationMessage Sound)) : List (NotificationMessage Sound) :=
  (p.reverse.takeWhile (!isDelay ·)).reverse

def HasLed (p : List (NotificationMessage Sound)) : Prop :=
  ∃ i, (lastValue (ledLight i) p).isSome

instance (p : List (NotificationMessage Sound)) : Decidable (HasLed p) :=
  inferInstanceAs (Decidable (∃ i, (lastValue (ledLight i) p).isSome))

variable {p q : List (NotificationMessage Sound)} {m : NotificationMessage Sound} {light : Light}

theorem lastValue_append : lastValue light (p ++ q) = (lastValue light q).or (lastValue light p) := by
  simp [lastValue, List.getLast?_append]

theorem lastValue_singleton : lastValue light [m] = valueFor light m := by
  unfold lastValue
  cases h : valueFor light m <;> simp [h]

theorem lastValue_concat :
    lastValue light (p ++ [m]) = (valueFor light m).or (lastValue light p) := by
  rw [lastValue_append, lastValue_singleton]

theorem hasLed_append : HasLed (p ++ q) ↔ HasLed p ∨ HasLed q := by
  simp only [HasLed, lastValue_append, Option.isSome_or, Bool.or_eq_true, ← exists_or]
  exact exists_congr fun _ => or_comm

theorem until_append_after (p : List (NotificationMessage Sound)) :
    untilDelay p ++ afterDelay p = p := by
  rw [untilDelay, afterDelay, ← List.reverse_append, List.takeWhile_append_dropWhile,
    List.reverse_reverse]

theorem untilDelay_delay (n : ℕ) : untilDelay (p ++ [NotificationMessage.delay n]) =
    p ++ [NotificationMessage.delay n] := by
  simp [untilDelay, isDelay]

theorem afterDelay_delay (n : ℕ) : afterDelay (p ++ [NotificationMessage.delay n]) = [] := by
  simp [afterDelay, isDelay]

theorem untilDelay_concat (h : isDelay m = false) : untilDelay (p ++ [m]) = untilDelay p := by
  simp [untilDelay, h]

theorem afterDelay_concat (h : isDelay m = false) :
    afterDelay (p ++ [m]) = afterDelay p ++ [m] := by
  simp [afterDelay, h]

theorem lastValue_until (h : ¬ HasLed (afterDelay p)) (i : Fin notificationLedCount) :
    lastValue (ledLight i) (untilDelay p) = lastValue (ledLight i) p := by
  conv_rhs => rw [← until_append_after p]
  have hnone : lastValue (ledLight i) (afterDelay p) = none := by
    by_contra hne
    exact h ⟨i, Option.isSome_iff_ne_none.mpr hne⟩
  rw [lastValue_append, hnone, Option.none_or]

theorem hasLed_until (h : ¬ HasLed (afterDelay p)) : HasLed (untilDelay p) ↔ HasLed p := by
  conv_rhs => rw [← until_append_after p]
  rw [hasLed_append]
  exact (or_iff_left h).symm

end Sequences

theorem ledLight_injective : Function.Injective ledLight := by
  intro i j
  revert i j
  decide

theorem ledLight_ne_backlight (i : Fin notificationLedCount) : ledLight i ≠ .backlight := by
  revert i
  decide

section Writes

variable (app : NotificationApp Sound) (values : Fin notificationLedCount → UInt8)

@[simp] theorem applyNotificationLeds_led (i : Fin notificationLedCount) :
    (app.applyNotificationLeds values).led i =
      (app.led i).applyNotification (app.settings.displayBrightness (values i)) := by
  match i with
  | 0 => rfl
  | 1 => rfl
  | 2 => rfl

@[simp] theorem applyNotificationLeds_lights (i : Fin notificationLedCount) :
    (app.applyNotificationLeds values).lights (ledLight i) =
      app.settings.displayBrightness (values i) := by
  match i with
  | 0 => rfl
  | 1 => rfl
  | 2 => rfl

@[simp] theorem applyNotificationLeds_backlight :
    (app.applyNotificationLeds values).lights .backlight = app.lights .backlight := rfl

@[simp] theorem applyNotificationLeds_display :
    (app.applyNotificationLeds values).display = app.display := rfl

@[simp] theorem applyNotificationLeds_settings :
    (app.applyNotificationLeds values).settings = app.settings := rfl

theorem applyNotificationLeds_displayTimer :
    (app.applyNotificationLeds values).displayTimer = app.displayTimer := rfl

@[simp] theorem resetNotificationLayer_lights (mask : ResetMask) (i : Fin notificationLedCount) :
    (app.resetNotificationLayer mask).lights (ledLight i) =
      if mask.led i then (app.led i).internal else app.lights (ledLight i) := by
  have hrange : List.finRange notificationLedCount = [0, 1, 2] := rfl
  unfold NotificationApp.resetNotificationLayer
  simp only [hrange, List.foldl]
  generalize hred : mask.led 0 = red
  generalize hgreen : mask.led 1 = green
  generalize hblue : mask.led 2 = blue
  match i with
  | 0 => rw [hred]; cases red <;> cases green <;> cases blue <;> rfl
  | 1 => rw [hgreen]; cases red <;> cases green <;> cases blue <;> rfl
  | 2 => rw [hblue]; cases red <;> cases green <;> cases blue <;> rfl

@[simp] theorem resetNotificationLayer_backlight (mask : ResetMask) :
    (app.resetNotificationLayer mask).lights .backlight = app.lights .backlight := by
  have hrange : List.finRange notificationLedCount = [0, 1, 2] := rfl
  unfold NotificationApp.resetNotificationLayer
  simp only [hrange, List.foldl]
  cases mask.led 0 <;> cases mask.led 1 <;> cases mask.led 2 <;> rfl

theorem resetNotificationLayer_displayTimer {mask : ResetMask} (h : mask.display = true) :
    (app.resetNotificationLayer mask).displayTimer = true := if_pos h

theorem isAny_congr {app app' : NotificationApp Sound} (h : ∀ i, app.led i = app'.led i) :
    app.isAnyLedLayerInternalAndNotEmpty = app'.isAnyLedLayerInternalAndNotEmpty := by
  simp only [NotificationApp.isAnyLedLayerInternalAndNotEmpty, h]

theorem isAny_eq_false {app : NotificationApp Sound} (h : ∀ i, (app.led i).index = .notification) :
    app.isAnyLedLayerInternalAndNotEmpty = false := by
  simp [NotificationApp.isAnyLedLayerInternalAndNotEmpty, h]

end Writes

def NotificationSettings.scale (settings : NotificationSettings) (light : Light) : UInt8 → UInt8 :=
  if light = .backlight then settings.displayBrightness else settings.rgbLedBrightness

/-- The layer of the display after a part of a sequence. -/
def playedDisplay (a : NotificationApp Sound) (p : List (NotificationMessage Sound)) :
    NotificationLedLayer :=
  match lastValue .backlight p with
  | none => a.display
  | some value =>
    if 0 < value then a.display.applyNotification (a.settings.scale .backlight value)
    else a.display.resetNotification

/-- The layer of an LED after a part of a sequence. -/
def playedLed (a : NotificationApp Sound) (p : List (NotificationMessage Sound))
    (i : Fin notificationLedCount) : NotificationLedLayer :=
  if HasLed (untilDelay p) then
    (a.led i).applyNotification
      (a.settings.scale (ledLight i) ((lastValue (ledLight i) (untilDelay p)).getD 0))
  else a.led i

/-- The lights after a part `p` of a sequence: the display shows its last value and, when this is
zero, its internal layer; the LEDs show the last values given before the last delay. -/
structure Shows (a : NotificationApp Sound) (p : List (NotificationMessage Sound))
    (lights : Light → UInt8) : Prop where
  display : ∀ value, lastValue .backlight p = some value →
    lights .backlight =
      if 0 < value then a.settings.scale .backlight value else a.display.internal
  noDisplay : lastValue .backlight p = none → lights .backlight = a.lights .backlight
  led : HasLed (untilDelay p) → ∀ i, lights (ledLight i) =
    a.settings.scale (ledLight i) ((lastValue (ledLight i) (untilDelay p)).getD 0)
  noLed : ¬ HasLed (untilDelay p) → ∀ i, lights (ledLight i) = a.lights (ledLight i)

structure Played (a : NotificationApp Sound) (p : List (NotificationMessage Sound))
    (l : Loop Sound) : Prop where
  settings : l.app.settings = a.settings
  active : l.ledActive = true ↔ HasLed (afterDelay p)
  values : ∀ i, l.ledValues i = (lastValue (ledLight i) p).getD 0
  reset : l.resetNotifications = true ↔ .doNotReset ∉ p
  maskLed : ∀ i, l.resetMask.led i = true → HasLed p
  maskSent : HasLed (untilDelay p) → ∀ i, l.resetMask.led i = true
  maskDisplay : l.resetMask.display = true ↔ (lastValue .backlight p).isSome
  display : l.app.display = playedDisplay a p
  led : ∀ i, l.app.led i = playedLed a p i
  lights : Shows a p l.app.lights
  delays : ∀ e ∈ l.delays,
    (∃ q n, q ++ [NotificationMessage.delay n] <+: p ∧ e.1 = n ∧
      Shows a (q ++ [NotificationMessage.delay n]) e.2) ∨
      e.1 = minimalDelay ∧ ∀ i, e.2 (ledLight i) = a.settings.scale (ledLight i) 0

variable {a : NotificationApp Sound} {l : Loop Sound} {p : List (NotificationMessage Sound)}
variable {m : NotificationMessage Sound} {lights : Light → UInt8}

theorem hasLed_concat_iff (h : ∀ i, valueFor (ledLight i) m = none) :
    HasLed (p ++ [m]) ↔ HasLed p := by
  simp [HasLed, lastValue_concat, h]

theorem Shows.concat (h : Shows a p lights) (hm : isDelay m = false)
    (hb : valueFor .backlight m = none) : Shows a (p ++ [m]) lights where
  display value hv := by
    apply h.display
    simpa [lastValue_concat, hb] using hv
  noDisplay hv := by
    apply h.noDisplay
    simpa [lastValue_concat, hb] using hv
  led hled := by
    rw [untilDelay_concat hm] at hled ⊢
    exact h.led hled
  noLed hled := by
    rw [untilDelay_concat hm] at hled
    exact h.noLed hled

theorem applyNotification_congr {x y : NotificationLedLayer} (h : x.internal = y.internal)
    (value : UInt8) : x.applyNotification value = y.applyNotification value := by
  simp [NotificationLedLayer.applyNotification, h]

theorem resetNotification_congr {x y : NotificationLedLayer} (h : x.internal = y.internal) :
    x.resetNotification = y.resetNotification := by
  simp [NotificationLedLayer.resetNotification, h]

theorem playedDisplay_internal (a : NotificationApp Sound) (p : List (NotificationMessage Sound)) :
    (playedDisplay a p).internal = a.display.internal := by
  unfold playedDisplay
  split
  · rfl
  · split <;> rfl

theorem playedLed_internal (a : NotificationApp Sound) (p : List (NotificationMessage Sound))
    (i : Fin notificationLedCount) : (playedLed a p i).internal = (a.led i).internal := by
  unfold playedLed
  split <;> rfl

namespace Played

theorem start (a : NotificationApp Sound) : Played a [] (Loop.start a) where
  settings := rfl
  active := by simp [Loop.start, HasLed, afterDelay, lastValue]
  values _ := rfl
  reset := by simp [Loop.start]
  maskLed i hi := by cases hi
  maskSent h := by simp [HasLed, untilDelay, lastValue] at h
  maskDisplay := by simp [Loop.start, lastValue]
  display := rfl
  led i := by simp [Loop.start, playedLed, HasLed, untilDelay, lastValue]
  lights := by
    constructor
    · intro value hv
      cases hv
    · exact fun _ => rfl
    · intro h
      simp [HasLed, untilDelay, lastValue] at h
    · exact fun _ _ => rfl
  delays e he := by cases he

theorem earlier (h : Played a p l) (m : NotificationMessage Sound) :
    ∀ e ∈ l.delays,
      (∃ q n, q ++ [NotificationMessage.delay n] <+: p ++ [m] ∧ e.1 = n ∧
        Shows a (q ++ [NotificationMessage.delay n]) e.2) ∨
        e.1 = minimalDelay ∧ ∀ i, e.2 (ledLight i) = a.settings.scale (ledLight i) 0 := by
  intro e he
  rcases h.delays e he with ⟨q, n, hq, hn, hs⟩ | hmin
  · exact .inl ⟨q, n, hq.trans (List.prefix_append p [m]), hn, hs⟩
  · exact .inr hmin

/-- A message that gives no light a value and is no delay changes nothing of what is shown. -/
theorem silent (h : Played a p l) (hv : ∀ light, valueFor light m = none) (hm : isDelay m = false)
    (hr : m ≠ .doNotReset) : Played a (p ++ [m]) l where
  settings := h.settings
  active := by
    rw [afterDelay_concat hm, hasLed_concat_iff fun i => hv _]
    exact h.active
  values i := by
    rw [h.values, lastValue_concat, hv, Option.none_or]
  reset := by simp [h.reset, hr.symm]
  maskLed i hi := (hasLed_concat_iff fun i => hv _).mpr (h.maskLed i hi)
  maskSent hled := by
    rw [untilDelay_concat hm] at hled
    exact h.maskSent hled
  maskDisplay := by rw [h.maskDisplay, lastValue_concat, hv, Option.none_or]
  display := by rw [h.display, playedDisplay, playedDisplay, lastValue_concat, hv, Option.none_or]
  led i := by rw [h.led, playedLed, playedLed, untilDelay_concat hm]
  lights := h.lights.concat hm (hv _)
  delays := h.earlier m

theorem doNotReset (h : Played a p l) :
    Played a (p ++ [NotificationMessage.doNotReset]) (l.processMessage .doNotReset) where
  settings := h.settings
  active := by
    rw [afterDelay_concat rfl, hasLed_concat_iff fun i => rfl]
    exact h.active
  values i := by
    rw [lastValue_concat]
    exact h.values i
  reset := by simp [Loop.processMessage]
  maskLed i hi := (hasLed_concat_iff fun i => rfl).mpr (h.maskLed i hi)
  maskSent hled := by
    rw [untilDelay_concat rfl] at hled
    exact h.maskSent hled
  maskDisplay := by
    rw [lastValue_concat]
    exact h.maskDisplay
  display := by
    rw [playedDisplay, lastValue_concat]
    exact h.display
  led i := by
    rw [playedLed, untilDelay_concat rfl]
    exact h.led i
  lights := h.lights.concat rfl rfl
  delays := h.earlier _

theorem ledDisplay (h : Played a p l) (value : UInt8) :
    Played a (p ++ [NotificationMessage.ledDisplay value]) (l.processMessage (.ledDisplay value)) := by
  have hled : ∀ i, valueFor (ledLight i) (.ledDisplay value : NotificationMessage Sound) = none :=
    fun i => if_neg (ledLight_ne_backlight i)
  have hlast : lastValue .backlight (p ++ [NotificationMessage.ledDisplay value]) = some value := by
    rw [lastValue_concat]
    rfl
  have hscale : l.app.settings.displayBrightness value = a.settings.scale .backlight value := by
    rw [h.settings]
    rfl
  have hdisplay : (l.processMessage (.ledDisplay value)).app.display =
      playedDisplay a (p ++ [NotificationMessage.ledDisplay value]) := by
    rw [playedDisplay, hlast]
    dsimp only [Loop.processMessage]
    split
    · rw [hscale]
      exact applyNotification_congr (by rw [h.display, playedDisplay_internal]) _
    · exact resetNotification_congr (by rw [h.display, playedDisplay_internal])
  have hlights : (l.processMessage (.ledDisplay value)).app.lights =
      Function.update l.app.lights .backlight
        (playedDisplay a (p ++ [NotificationMessage.ledDisplay value])).current := by
    rw [← hdisplay]
    dsimp only [Loop.processMessage]
    split <;> rfl
  have happ : (l.processMessage (.ledDisplay value)).app.settings = l.app.settings ∧
      (l.processMessage (.ledDisplay value)).app.led = l.app.led := by
    dsimp only [Loop.processMessage]
    split <;> exact ⟨rfl, rfl⟩
  refine ⟨happ.1.trans h.settings, ?_, ?_, ?_, ?_, ?_, ?_, hdisplay, ?_, ?_, h.earlier _⟩
  · rw [afterDelay_concat rfl, hasLed_concat_iff hled]
    exact h.active
  · intro i
    rw [lastValue_concat, hled, Option.none_or]
    exact h.values i
  · simp only [List.mem_append, List.mem_singleton, reduceCtorEq, or_false]
    exact h.reset
  · exact fun i hi => (hasLed_concat_iff hled).mpr (h.maskLed i hi)
  · intro hsent
    rw [untilDelay_concat rfl] at hsent
    exact h.maskSent hsent
  · simp [Loop.processMessage, hlast]
  · intro i
    rw [happ.2, playedLed, untilDelay_concat rfl]
    exact h.led i
  · rw [hlights]
    constructor
    · intro value' hv
      obtain rfl := Option.some.inj (hlast.symm.trans hv)
      rw [Function.update_self, playedDisplay, hlast]
      dsimp only
      split <;> rfl
    · intro hv
      rw [hlast] at hv
      cases hv
    · intro hsent i
      rw [untilDelay_concat rfl] at hsent ⊢
      rw [Function.update_of_ne (ledLight_ne_backlight i)]
      exact h.lights.led hsent i
    · intro hsent i
      rw [untilDelay_concat rfl] at hsent
      rw [Function.update_of_ne (ledLight_ne_backlight i)]
      exact h.lights.noLed hsent i

theorem storeLed (h : Played a p l) {i : Fin notificationLedCount} {value : UInt8}
    (hval : ∀ j, valueFor (ledLight j) m = if j = i then some value else none)
    (hb : valueFor .backlight m = none) (hm : isDelay m = false) (hr : m ≠ .doNotReset) :
    Played a (p ++ [m]) (l.storeLed i value) := by
  have hhas : HasLed [m] := ⟨i, by simp [lastValue_singleton, hval]⟩
  refine ⟨h.settings, ?_, ?_, ?_, ?_, ?_, ?_, ?_, ?_, h.lights.concat hm hb, h.earlier m⟩
  · rw [afterDelay_concat hm, hasLed_append]
    exact ⟨fun _ => .inr hhas, fun _ => rfl⟩
  · intro j
    rw [lastValue_concat, hval]
    by_cases hj : j = i
    · subst hj
      simp [Loop.storeLed]
    · simp [Loop.storeLed, hj, h.values]
  · simp only [List.mem_append, List.mem_singleton, hr.symm, or_false]
    exact h.reset
  · exact fun _ _ => hasLed_append.mpr (.inr hhas)
  · intro hsent j
    rw [untilDelay_concat hm] at hsent
    by_cases hj : j = i
    · subst hj
      simp [Loop.storeLed]
    · simpa [Loop.storeLed, hj] using h.maskSent hsent j
  · rw [lastValue_concat, hb, Option.none_or]
    exact h.maskDisplay
  · rw [playedDisplay, lastValue_concat, hb, Option.none_or]
    exact h.display
  · intro j
    rw [playedLed, untilDelay_concat hm]
    exact h.led j

theorem quietDelay (h : Played a p l) (hactive : l.ledActive ≠ true) (n : ℕ) :
    Played a (p ++ [NotificationMessage.delay n]) (l.delay n) := by
  have hafter : ¬ HasLed (afterDelay p) := fun hled => hactive (h.active.mpr hled)
  have hv : ∀ light, valueFor light (.delay n : NotificationMessage Sound) = none := fun _ => rfl
  have hlast : ∀ light, lastValue light (p ++ [NotificationMessage.delay n]) =
      lastValue light p := fun light => by
    rw [lastValue_concat, hv, Option.none_or]
  have huntil : HasLed (untilDelay (p ++ [NotificationMessage.delay n])) ↔ HasLed (untilDelay p) := by
    rw [untilDelay_delay, hasLed_concat_iff fun i => hv _, hasLed_until hafter]
  have hshows : Shows a (p ++ [NotificationMessage.delay n]) l.app.lights := by
    constructor
    · intro value hvalue
      exact h.lights.display value ((hlast _).symm.trans hvalue)
    · intro hvalue
      exact h.lights.noDisplay ((hlast _).symm.trans hvalue)
    · intro hled i
      rw [untilDelay_delay, hlast, ← lastValue_until hafter]
      exact h.lights.led (huntil.mp hled) i
    · intro hled
      exact h.lights.noLed fun hno => hled (huntil.mpr hno)
  refine ⟨h.settings, ?_, ?_, ?_, ?_, ?_, ?_, ?_, ?_, hshows, ?_⟩
  · rw [afterDelay_delay]
    exact ⟨fun ha => absurd ha hactive, fun hled => by simp [HasLed, lastValue] at hled⟩
  · intro i
    rw [hlast]
    exact h.values i
  · simp only [List.mem_append, List.mem_singleton, reduceCtorEq, or_false]
    exact h.reset
  · exact fun i hi => (hasLed_concat_iff fun i => hv _).mpr (h.maskLed i hi)
  · exact fun hled => h.maskSent (huntil.mp hled)
  · rw [hlast]
    exact h.maskDisplay
  · rw [playedDisplay, hlast]
    exact h.display
  · intro i
    rw [playedLed, untilDelay_delay, hlast, ← lastValue_until hafter, ← untilDelay_delay,
      if_congr huntil rfl rfl]
    exact h.led i
  · intro e he
    rcases List.mem_cons.mp he with rfl | he
    · exact .inl ⟨p, n, List.prefix_rfl, rfl, hshows⟩
    · exact h.earlier _ e he

end Played

/-- The same as far as the LEDs are not concerned. -/
structure Similar (x y : NotificationApp Sound) : Prop where
  settings : x.settings = y.settings
  display : x.display = y.display
  backlight : x.lights .backlight = y.lights .backlight
  internal : ∀ i, (x.led i).internal = (y.led i).internal

namespace Similar

variable {x y : NotificationApp Sound}

theorem refl (x : NotificationApp Sound) : Similar x x := ⟨rfl, rfl, rfl, fun _ => rfl⟩

theorem applyNotificationLeds (h : Similar x y) (values : Fin notificationLedCount → UInt8) :
    Similar (x.applyNotificationLeds values) y where
  settings := (applyNotificationLeds_settings x values).trans h.settings
  display := (applyNotificationLeds_display x values).trans h.display
  backlight := (applyNotificationLeds_backlight x values).trans h.backlight
  internal i := by
    rw [applyNotificationLeds_led, NotificationLedLayer.applyNotification]
    exact h.internal i

end Similar

namespace Loop

variable (l : Loop Sound)

theorem app_applyLeds (values : Fin notificationLedCount → UInt8) :
    (l.applyLeds values).app = l.app.applyNotificationLeds values := rfl

theorem app_sent : l.sent.app = l.app := rfl

theorem app_delay (length : ℕ) : (l.delay length).app = l.app := rfl

end Loop

namespace Played

theorem blink (h : Played a p l) (hscale : a.settings.displayBrightness = a.settings.rgbLedBrightness) :
    Similar l.blink.app l.app ∧ ∀ e ∈ l.blink.delays, e ∈ l.delays ∨
      e.1 = minimalDelay ∧ ∀ i, e.2 (ledLight i) = a.settings.scale (ledLight i) 0 := by
  unfold Loop.blink
  split
  · refine ⟨(Similar.refl _).applyNotificationLeds _, ?_⟩
    intro e he
    rcases List.mem_cons.mp he with rfl | he
    · refine .inr ⟨rfl, fun i => ?_⟩
      rw [NotificationSettings.scale, if_neg (ledLight_ne_backlight i), ← hscale, ← h.settings]
      exact applyNotificationLeds_lights ..
    · exact .inl he
  · exact ⟨.refl _, fun e he => .inl he⟩

theorem sends (h : Played a p l)
    (hscale : a.settings.displayBrightness = a.settings.rgbLedBrightness)
    {x : NotificationApp Sound} (hx : Similar x l.app) (i : Fin notificationLedCount) :
    (x.applyNotificationLeds l.ledValues).led i = (a.led i).applyNotification
        (a.settings.scale (ledLight i) ((lastValue (ledLight i) p).getD 0)) ∧
      (x.applyNotificationLeds l.ledValues).lights (ledLight i) =
        a.settings.scale (ledLight i) ((lastValue (ledLight i) p).getD 0) := by
  have hvalue : x.settings.displayBrightness (l.ledValues i) =
      a.settings.scale (ledLight i) ((lastValue (ledLight i) p).getD 0) := by
    rw [hx.settings, h.settings, h.values, NotificationSettings.scale,
      if_neg (ledLight_ne_backlight i), hscale]
  constructor
  · rw [applyNotificationLeds_led, hvalue]
    exact applyNotification_congr (by rw [hx.internal, h.led, playedLed_internal]) _
  · rw [applyNotificationLeds_lights, hvalue]

theorem sendingDelay (h : Played a p l) (hactive : l.ledActive = true)
    (hscale : a.settings.displayBrightness = a.settings.rgbLedBrightness) (n : ℕ) :
    Played a (p ++ [NotificationMessage.delay n]) (((l.blink.applyLeds l.ledValues).sent).delay n) := by
  have hafter : HasLed (afterDelay p) := h.active.mp hactive
  have hled : HasLed p := by
    rw [← until_append_after p]
    exact hasLed_append.mpr (.inr hafter)
  have hv : ∀ light, valueFor light (.delay n : NotificationMessage Sound) = none := fun _ => rfl
  have hlast : ∀ light, lastValue light (p ++ [NotificationMessage.delay n]) =
      lastValue light p := fun light => by
    rw [lastValue_concat, hv, Option.none_or]
  have huntil : HasLed (untilDelay (p ++ [NotificationMessage.delay n])) := by
    rw [untilDelay_delay]
    exact hasLed_append.mpr (.inl hled)
  obtain ⟨hsim, hdelays⟩ := h.blink hscale
  have hsends := h.sends hscale hsim
  have hsent := hsim.applyNotificationLeds l.ledValues
  have hblink : l.blink.ledValues = l.ledValues ∧ l.blink.resetMask = l.resetMask ∧
      l.blink.resetNotifications = l.resetNotifications := by
    unfold Loop.blink
    split <;> exact ⟨rfl, rfl, rfl⟩
  have hshows : Shows a (p ++ [NotificationMessage.delay n])
      (l.blink.app.applyNotificationLeds l.ledValues).lights := by
    constructor
    · intro value hvalue
      rw [applyNotificationLeds_backlight, hsim.backlight]
      exact h.lights.display value ((hlast _).symm.trans hvalue)
    · intro hvalue
      rw [applyNotificationLeds_backlight, hsim.backlight]
      exact h.lights.noDisplay ((hlast _).symm.trans hvalue)
    · intro _ i
      rw [untilDelay_delay, hlast]
      exact (hsends i).2
    · exact fun hno => absurd huntil hno
  refine ⟨hsent.settings.trans h.settings, ?_, ?_, ?_, ?_, ?_, ?_, ?_, ?_, hshows, ?_⟩
  · rw [afterDelay_delay]
    constructor
    · rintro ⟨⟩
    · intro hno
      simp [HasLed, lastValue] at hno
  · intro i
    rw [hlast, ← h.values]
    exact congrFun hblink.1 i
  · simp only [List.mem_append, List.mem_singleton, reduceCtorEq, or_false, ← h.reset,
      ← hblink.2.2]
    rfl
  · exact fun _ _ => hasLed_append.mpr (.inl hled)
  · exact fun _ _ => rfl
  · rw [hlast, ← h.maskDisplay, ← hblink.2.1]
    rfl
  · rw [playedDisplay, hlast]
    exact hsent.display.trans h.display
  · intro i
    rw [playedLed, if_pos huntil, untilDelay_delay, hlast]
    exact (hsends i).1
  · intro e he
    rcases List.mem_cons.mp he with rfl | he
    · exact .inl ⟨p, n, List.prefix_rfl, rfl, hshows⟩
    · rcases hdelays e he with he | hmin
      · exact h.earlier _ e he
      · exact .inr hmin

theorem processMessage (h : Played a p l)
    (hscale : a.settings.displayBrightness = a.settings.rgbLedBrightness)
    (m : NotificationMessage Sound) : Played a (p ++ [m]) (l.processMessage m) := by
  cases m with
  | vibro on =>
    have hs := h.silent (m := .vibro on) (fun _ => rfl) rfl (by simp)
    exact ⟨hs.1, hs.2, hs.3, hs.4, hs.5, hs.6, hs.7, hs.8, hs.9, hs.10, hs.11⟩
  | soundOn sound =>
    have hs := h.silent (m := .soundOn sound) (fun _ => rfl) rfl (by simp)
    exact ⟨hs.1, hs.2, hs.3, hs.4, hs.5, hs.6, hs.7, hs.8, hs.9, hs.10, hs.11⟩
  | soundOff =>
    have hs := h.silent (m := .soundOff) (fun _ => rfl) rfl (by simp)
    exact ⟨hs.1, hs.2, hs.3, hs.4, hs.5, hs.6, hs.7, hs.8, hs.9, hs.10, hs.11⟩
  | ledRed value =>
    refine h.storeLed (fun j => ?_) rfl rfl (by simp)
    match j with
    | 0 => rfl
    | 1 => rfl
    | 2 => rfl
  | ledGreen value =>
    refine h.storeLed (fun j => ?_) rfl rfl (by simp)
    match j with
    | 0 => rfl
    | 1 => rfl
    | 2 => rfl
  | ledBlue value =>
    refine h.storeLed (fun j => ?_) rfl rfl (by simp)
    match j with
    | 0 => rfl
    | 1 => rfl
    | 2 => rfl
  | delay n =>
    by_cases hactive : l.ledActive = true
    · have hdelay := h.sendingDelay hactive hscale n
      simpa [Loop.processMessage, hactive] using hdelay
    · have hdelay := h.quietDelay hactive n
      simpa [Loop.processMessage, hactive] using hdelay
  | ledDisplay value => exact h.ledDisplay value
  | doNotReset => exact h.doNotReset

theorem foldl (hscale : a.settings.displayBrightness = a.settings.rgbLedBrightness)
    (q : List (NotificationMessage Sound)) (h : Played a p l) :
    Played a (p ++ q) (q.foldl Loop.processMessage l) := by
  induction q generalizing p l with
  | nil => simpa using h
  | cons m q ih => simpa using ih (h.processMessage hscale m)

end Played

theorem played (hscale : a.settings.displayBrightness = a.settings.rgbLedBrightness)
    (p : List (NotificationMessage Sound)) : Played a p (processMessages a p) :=
  (Played.start a).foldl hscale p

/-- The end of the sequence finds an LED that showed its internal layer until now. -/
def Swallowed (a : NotificationApp Sound) (p : List (NotificationMessage Sound)) : Prop :=
  a.isAnyLedLayerInternalAndNotEmpty = true ∧ ¬ HasLed (untilDelay p)

instance (a : NotificationApp Sound) (p : List (NotificationMessage Sound)) :
    Decidable (Swallowed a p) :=
  inferInstanceAs (Decidable (_ ∧ _))

/-- The lights after a sequence: the display as its last message left it, with the timer running
unless it is not to be reset; the LEDs, once one was given a value, back at their internal layers
or at their last values. -/
structure Final (a : NotificationApp Sound) (p : List (NotificationMessage Sound))
    (app : NotificationApp Sound) : Prop where
  display : ∀ value, lastValue .backlight p = some value →
    app.lights .backlight =
      if 0 < value then a.settings.scale .backlight value else a.display.internal
  noDisplay : lastValue .backlight p = none → app.lights .backlight = a.lights .backlight
  timer : (lastValue .backlight p).isSome → .doNotReset ∉ p → app.displayTimer = true
  reset : HasLed p → .doNotReset ∉ p → ∀ i, app.lights (ledLight i) = (a.led i).internal
  keep : HasLed p → .doNotReset ∈ p → ¬ Swallowed a p → ∀ i, app.lights (ledLight i) =
    a.settings.scale (ledLight i) ((lastValue (ledLight i) p).getD 0)
  noLed : ¬ HasLed p → ∀ i, app.lights (ledLight i) = a.lights (ledLight i)

/-- The loop after the values kept at the end of the sequence have been sent. -/
def Loop.flush (l : Loop Sound) : Loop Sound :=
  if l.ledActive then
    if l.app.isAnyLedLayerInternalAndNotEmpty then
      (((l.applyLeds l.ledValues).sent).applyLeds NotificationApp.ledOffValues).delay minimalDelay
    else (l.applyLeds l.ledValues).sent
  else l

theorem Loop.finish_eq (l : Loop Sound) : l.finish =
    if l.flush.resetNotifications then
      { l.flush with app := l.flush.app.resetNotificationLayer l.flush.resetMask }
    else l.flush := rfl

namespace Played

theorem isAny (h : Played a p l) :
    l.app.isAnyLedLayerInternalAndNotEmpty = true ↔ Swallowed a p := by
  by_cases hled : HasLed (untilDelay p)
  · have hindex : ∀ i, (l.app.led i).index = .notification := by
      intro i
      rw [h.led, playedLed, if_pos hled]
      rfl
    simp [isAny_eq_false hindex, Swallowed, hled]
  · have hsame : ∀ i, l.app.led i = a.led i := by
      intro i
      rw [h.led, playedLed, if_neg hled]
    simp [isAny_congr hsame, Swallowed, hled]

theorem flush_frame (h : Played a p l) :
    Similar l.flush.app l.app ∧ l.flush.resetNotifications = l.resetNotifications ∧
      l.flush.resetMask.display = l.resetMask.display ∧
      (HasLed p → ∀ i, l.flush.resetMask.led i = true) ∧
      (¬ HasLed p → ∀ i, l.flush.resetMask.led i ≠ true) := by
  unfold Loop.flush
  split
  · next hactive =>
    have hled : HasLed p := by
      rw [← until_append_after p]
      exact hasLed_append.mpr (.inr (h.active.mp hactive))
    have hsent := (Similar.refl l.app).applyNotificationLeds l.ledValues
    split
    · refine ⟨?_, rfl, rfl, fun _ _ => rfl, fun hno => absurd hled hno⟩
      rw [Loop.app_delay, Loop.app_applyLeds, Loop.app_sent, Loop.app_applyLeds]
      exact hsent.applyNotificationLeds _
    · refine ⟨?_, rfl, rfl, fun _ _ => rfl, fun hno => absurd hled hno⟩
      rw [Loop.app_sent, Loop.app_applyLeds]
      exact hsent
  · next hactive =>
    have hafter : ¬ HasLed (afterDelay p) := fun hled => hactive (h.active.mpr hled)
    refine ⟨.refl _, rfl, rfl, ?_, ?_⟩
    · exact fun hled => h.maskSent ((hasLed_until hafter).mpr hled)
    · exact fun hno i hi => hno (h.maskLed i hi)

theorem flush_leds (h : Played a p l)
    (hscale : a.settings.displayBrightness = a.settings.rgbLedBrightness) :
    (HasLed p → ¬ Swallowed a p → ∀ i, l.flush.app.lights (ledLight i) =
      a.settings.scale (ledLight i) ((lastValue (ledLight i) p).getD 0)) ∧
    (¬ HasLed p → ∀ i, l.flush.app.lights (ledLight i) = a.lights (ledLight i)) := by
  unfold Loop.flush
  split
  · next hactive =>
    have hled : HasLed p := by
      rw [← until_append_after p]
      exact hasLed_append.mpr (.inr (h.active.mp hactive))
    split
    · next hany =>
      exact ⟨fun _ hno => absurd (h.isAny.mp hany) hno, fun hno => absurd hled hno⟩
    · refine ⟨fun _ _ i => ?_, fun hno => absurd hled hno⟩
      exact (h.sends hscale ⟨rfl, rfl, rfl, fun _ => rfl⟩ i).2
  · next hactive =>
    have hafter : ¬ HasLed (afterDelay p) := fun hled => hactive (h.active.mpr hled)
    constructor
    · intro hled _ i
      rw [← lastValue_until hafter]
      exact h.lights.led ((hasLed_until hafter).mpr hled) i
    · exact fun hno => h.lights.noLed fun hled => hno ((hasLed_until hafter).mp hled)

theorem finish (h : Played a p l)
    (hscale : a.settings.displayBrightness = a.settings.rgbLedBrightness) :
    Final a p l.finish.app := by
  obtain ⟨hsim, hreset, hdisplay, hmask, hnomask⟩ := h.flush_frame
  obtain ⟨hkeep, hnoled⟩ := h.flush_leds hscale
  have hback : l.finish.app.lights .backlight = l.app.lights .backlight := by
    rw [Loop.finish_eq]
    split
    · exact (resetNotificationLayer_backlight ..).trans hsim.backlight
    · exact hsim.backlight
  have hfinish : (.doNotReset ∉ p → l.finish.app =
      l.flush.app.resetNotificationLayer l.flush.resetMask) ∧
      (.doNotReset ∈ p → l.finish.app = l.flush.app) := by
    rw [Loop.finish_eq, hreset]
    constructor
    · intro hno
      rw [if_pos (h.reset.mpr hno)]
    · intro hmem
      rw [if_neg fun hr => h.reset.mp hr hmem]
  constructor
  · intro value hvalue
    rw [hback]
    exact h.lights.display value hvalue
  · intro hvalue
    rw [hback]
    exact h.lights.noDisplay hvalue
  · intro hsome hno
    rw [hfinish.1 hno]
    apply resetNotificationLayer_displayTimer
    rw [hdisplay]
    exact h.maskDisplay.mpr hsome
  · intro hled hno i
    rw [hfinish.1 hno, resetNotificationLayer_lights, if_pos (hmask hled i), hsim.internal, h.led,
      playedLed_internal]
  · intro hled hmem hns i
    rw [hfinish.2 hmem]
    exact hkeep hled hns i
  · intro hled i
    by_cases hmem : .doNotReset ∈ p
    · rw [hfinish.2 hmem]
      exact hnoled hled i
    · rw [hfinish.1 hmem, resetNotificationLayer_lights, if_neg (hnomask hled i)]
      exact hnoled hled i

theorem flush_delays (h : Played a p l)
    (hscale : a.settings.displayBrightness = a.settings.rgbLedBrightness) :
    ∀ e ∈ l.flush.delays, e ∈ l.delays ∨
      e.1 = minimalDelay ∧ ∀ i, e.2 (ledLight i) = a.settings.scale (ledLight i) 0 := by
  unfold Loop.flush
  split
  · split
    · intro e he
      rcases List.mem_cons.mp he with rfl | he
      · refine .inr ⟨rfl, fun i => ?_⟩
        rw [NotificationSettings.scale, if_neg (ledLight_ne_backlight i), ← hscale, ← h.settings]
        exact applyNotificationLeds_lights ..
      · exact .inl he
    · exact fun e he => .inl he
  · exact fun e he => .inl he

end Played

theorem finish_delays (l : Loop Sound) : l.finish.delays = l.flush.delays := by
  rw [Loop.finish_eq]
  split <;> rfl

/-- Where the two brightness settings scale alike: between any two messages, during every delay,
apart from the moment in which the LEDs are out, and after the sequence. -/
theorem notification_semantics (app : NotificationApp Sound)
    (hscale : app.settings.displayBrightness = app.settings.rgbLedBrightness)
    (sequence : List (NotificationMessage Sound)) :
    (∀ p, p <+: sequence → Shows app p (processMessages app p).app.lights) ∧
      (∀ e ∈ (notificationProcessNotificationMessage app sequence).delays,
        (∃ p n, p ++ [NotificationMessage.delay n] <+: sequence ∧ e.1 = n ∧
          Shows app (p ++ [NotificationMessage.delay n]) e.2) ∨
          e.1 = minimalDelay ∧ ∀ i, e.2 (ledLight i) = app.settings.scale (ledLight i) 0) ∧
      Final app sequence (notificationProcessNotificationMessage app sequence).app := by
  have h := played (a := app) hscale sequence
  refine ⟨fun p _ => (played hscale p).lights, ?_, h.finish hscale⟩
  intro e he
  rw [notificationProcessNotificationMessage, finish_delays] at he
  rcases h.flush_delays hscale e he with he | hmin
  · exact h.delays e he
  · exact .inr hmin

section Runs

/-- All lights are out and the settings leave every value as it is. -/
def dark : NotificationApp Unit where
  displayTimer := false
  display := ⟨0, 0, .internal⟩
  led _ := ⟨0, 0, .internal⟩
  settings := ⟨id, id⟩
  lights _ := 0
  vibro := false
  sound := none

theorem notification_semantics_blinks :
    Final dark [.ledDisplay 255, .ledRed 255, .delay 10, .ledGreen 7]
      (notificationProcessNotificationMessage dark
        [.ledDisplay 255, .ledRed 255, .delay 10, .ledGreen 7]).app :=
  (notification_semantics dark rfl _).2.2

/-- An LED does not yet show a value that it was just given; one that is not given any keeps what
an earlier sequence left, whatever its internal layer; the display goes back to its internal layer
when it is given zero. Two slips: the values kept at the end go out again when an internal layer
showed something, and the LEDs are scaled by the brightness of the display. -/
theorem not_notification_semantics :
    (processMessages dark [.ledRed 255]).app.lights .red ≠ 255 ∧
      (notificationProcessNotificationMessage
        (notificationProcessNotificationMessage dark [.ledRed 255, .doNotReset]).app
        [.vibro false]).app.lights .red ≠ 0 ∧
      (notificationProcessNotificationMessage { dark with display := ⟨7, 0, .internal⟩ }
        [.ledDisplay 0, .doNotReset]).app.lights .backlight ≠ 0 ∧
      (notificationProcessNotificationMessage { dark with led := fun _ => ⟨7, 0, .internal⟩ }
        [.ledRed 255, .doNotReset]).app.lights .red ≠ 255 ∧
      (processMessages { dark with settings := ⟨fun value => value / 2, id⟩ }
        [.ledRed 200, .delay 10]).app.lights .red ≠ 200 := by
  decide

end Runs

end FlipperZero.Notification
