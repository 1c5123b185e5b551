import FlipperZero.Firmware.InterruptManager
import Mathlib.Data.List.Induction

/-! # The LF-RFID application

The scenes of the application with the callbacks that the reader and the emulator register. Scenes
start and stop the reader and the emulator as they are entered and left, except the one that writes:
it starts the reader as it handles an event, and does not stop it as it is left.
-/

namespace FlipperZero.LfRfid.App

open Firmware.InterruptManager

inductive Scene where
  | exit
  | start
  | readNormal
  | readIndala
  | emulateIndala
  | emulateHid
  | emulateEm
  | tune
  | write
deriving DecidableEq, Repr

inductive Event where
  | tick
  | back
  | menuSelected (index : ℕ)
  | nextScene
deriving DecidableEq, Repr

inductive Callback where
  | comparatorTrigger
  | timerUpdate
deriving DecidableEq, Repr

inductive Context where
  | reader
  | tuneReader
  | emulator
deriving DecidableEq, Repr

abbrev Slot := InterruptCallbackItem Callback Context

structure LfrfidApp where
  previousScenesList : List Scene
  currentScene : Scene
  /-- The slot of `InterruptTypeComparatorTrigger`. -/
  comparator : Slot
  /-- The slot of `InterruptTypeTimerUpdate`. -/
  timer : Slot
  /-- Of the scene that writes. -/
  timingIndex : ℕ
deriving DecidableEq

/-- `RfidReader::start`, as far as the manager checks it. -/
def readerStart (context : Context) (app : LfrfidApp) : Option LfrfidApp :=
  (apiInterruptAdd .comparatorTrigger context app.comparator).map fun slot =>
    { app with comparator := slot }

/-- `RfidReader::stop`. -/
def readerStop (app : LfrfidApp) : Option LfrfidApp :=
  (apiInterruptRemove .comparatorTrigger app.comparator).map fun slot =>
    { app with comparator := slot }

/-- `RfidTimerEmulator::start`. -/
def emulatorStart (app : LfrfidApp) : Option LfrfidApp :=
  (apiInterruptAdd .timerUpdate .emulator app.timer).map fun slot => { app with timer := slot }

/-- `RfidTimerEmulator::stop`. -/
def emulatorStop (app : LfrfidApp) : Option LfrfidApp :=
  (apiInterruptRemove .timerUpdate app.timer).map fun slot => { app with timer := slot }

def onEnter (app : LfrfidApp) : Option LfrfidApp :=
  match app.currentScene with
  | .exit | .start => some app
  | .readNormal | .readIndala => readerStart .reader app
  | .emulateIndala | .emulateHid | .emulateEm => emulatorStart app
  | .tune => readerStart .tuneReader app
  | .write => some { app with timingIndex := 0 }

def onExit (app : LfrfidApp) : Option LfrfidApp :=
  match app.currentScene with
  | .exit | .start | .write => some app
  | .readNormal | .readIndala | .tune => readerStop app
  | .emulateIndala | .emulateHid | .emulateEm => emulatorStop app

def switchTo (app : LfrfidApp) (scene : Scene) : Option LfrfidApp :=
  (onExit app).bind fun app => onEnter { app with currentScene := scene }

def switchToNextScene (app : LfrfidApp) (next : Scene) : Option LfrfidApp :=
  let app := { app with previousScenesList := app.currentScene :: app.previousScenesList }
  if next ≠ .exit then switchTo app next else some app

def destination : ℕ → Option Scene
  | 0 => some .write
  | 1 => some .readNormal
  | 2 => some .readIndala
  | 3 => some .emulateEm
  | 4 => some .emulateHid
  | 5 => some .emulateIndala
  | 6 => some .tune
  | _ => none

/-- `LfrfidSceneStart::on_event`. -/
def sceneStartOnEvent (app : LfrfidApp) : Event → Option (LfrfidApp × Bool)
  | .menuSelected index =>
    match destination index with
    | some scene => (switchToNextScene app scene).map fun app => (app, true)
    | none => some (app, true)
  | _ => some (app, false)

/-- `LfrfidSceneWrite::on_event`, when the reader has read back what was written or not. -/
def sceneWriteOnEvent (app : LfrfidApp) (match_ : Bool) : Option (LfrfidApp × Bool) :=
  let written := if app.timingIndex = 0 then
      ((readerStop app).bind (readerStart .reader)).map fun app => (app, false)
    else some (app, match_)
  written.map fun (app, readed) =>
    if readed then (app, false)
    else
      let index := app.timingIndex + 1
      ({ app with timingIndex := if index = 4 then 0 else index }, false)

def onEvent (app : LfrfidApp) (event : Event) (match_ : Bool) : Option (LfrfidApp × Bool) :=
  match app.currentScene with
  | .start => sceneStartOnEvent app event
  | .write => sceneWriteOnEvent app match_
  | _ => some (app, false)

inductive Outcome where
  | running (app : LfrfidApp)
  | exited (app : LfrfidApp)
  /-- A `furi_check` has failed. -/
  | crashed
deriving DecidableEq

def Outcome.of : Option LfrfidApp → Outcome
  | some app => .running app
  | none => .crashed

/-- `switch_to_previous_scene`, which ends the run at the scene `exit`. -/
def switchToPreviousScene (app : LfrfidApp) : Outcome :=
  match app.previousScenesList with
  | [] => .crashed
  | .exit :: rest =>
    match onExit { app with previousScenesList := rest } with
    | some app => .exited app
    | none => .crashed
  | scene :: rest => Outcome.of (switchTo { app with previousScenesList := rest } scene)

/-- One round of the loop of `LfrfidApp::run`. -/
def handle (app : LfrfidApp) (event : Event) (match_ : Bool) : Outcome :=
  match onEvent app event match_ with
  | none => .crashed
  | some (app, consumed) =>
    if !consumed && event = .back then switchToPreviousScene app else .running app

def Outcome.handle : Outcome → Event × Bool → Outcome
  | .running app, (event, match_) => App.handle app event match_
  | outcome, _ => outcome

def begin : LfrfidApp :=
  { previousScenesList := [.exit], currentScene := .start, comparator := apiInterruptInit
    timer := apiInterruptInit, timingIndex := 0 }

/-- The application after some events, each with what the reader would have read back. -/
def run (events : List (Event × Bool)) : Outcome := events.foldl Outcome.handle (.running begin)

/-- The scenes that have handled an event so far, and the one that handles the next. -/
structure Visits where
  handled : List Scene
  current : Scene

def follow : Scene → Event → Scene
  | .exit, _ => .exit
  | .start, .menuSelected index => (destination index).getD .start
  | .start, .back => .exit
  | .start, _ => .start
  | _, .back => .start
  | scene, _ => scene

def Visits.after (visits : Visits) (event : Event) : Visits :=
  ⟨visits.handled ++ [visits.current], follow visits.current event⟩

def visits (events : List Event) : Visits := events.foldl Visits.after ⟨[], .start⟩

def Scene.reader : Scene → Option Context
  | .readNormal | .readIndala => some .reader
  | .tune => some .tuneReader
  | _ => none

def Scene.emulator : Scene → Option Context
  | .emulateIndala | .emulateHid | .emulateEm => some .emulator
  | _ => none

def slotOf (callback : Callback) : Option Context → Slot
  | some context => ⟨some callback, some context, true⟩
  | none => apiInterruptInit

def leftRunning (handled : List Scene) : Option Context :=
  if .write ∈ handled then some .reader else none

def Clash (visits : Visits) : Prop :=
  ∃ scene : Scene, scene.reader.isSome ∧
    [.write, scene].Sublist (visits.handled ++ [visits.current])

structure Consistent (visits : Visits) (app : LfrfidApp) : Prop where
  currentScene : app.currentScene = visits.current
  notExit : visits.current ≠ .exit
  previousScenesList : app.previousScenesList =
    if visits.current = .start then [.exit] else [.start, .exit]
  comparator : app.comparator =
    slotOf .comparatorTrigger (visits.current.reader.or (leftRunning visits.handled))
  timer : app.timer = slotOf .timerUpdate visits.current.emulator
  /-- Since it has been entered, the scene that writes has handled as many events. -/
  timingIndex : visits.current = .write → app.timingIndex ≠ 0 → .write ∈ visits.handled

/-- What has become of the application after some scenes. -/
inductive Agrees (visits : Visits) : Outcome → Prop
  | running {app : LfrfidApp} (h : Consistent visits app) (hc : ¬ Clash visits) :
      Agrees visits (.running app)
  | exited {app : LfrfidApp} (h : visits.current = .exit) (hc : ¬ Clash visits)
      (comparator : app.comparator = slotOf .comparatorTrigger (leftRunning visits.handled))
      (timer : app.timer = apiInterruptInit) : Agrees visits (.exited app)
  | crashed (h : Clash visits) : Agrees visits .crashed

variable {v : Visits} {app app' : LfrfidApp} {scene : Scene} {handled : List Scene}

@[simp] theorem apiInterruptAdd_slotOf (callback : Callback) (context : Context)
    (running : Option Context) : apiInterruptAdd callback context (slotOf callback running) =
      if running.isNone then some (slotOf callback (some context)) else none := by
  cases running <;> rfl

@[simp] theorem apiInterruptRemove_slotOf (callback : Callback) (running : Option Context) :
    apiInterruptRemove callback (slotOf callback running) = some (slotOf callback none) := by
  cases running with
  | none => rfl
  | some context => cases callback <;> rfl

theorem leftRunning_concat (h : scene ≠ .write) :
    leftRunning (handled ++ [scene]) = leftRunning handled := by
  simp [leftRunning, Ne.symm h]

theorem leftRunning_write : leftRunning (handled ++ [.write]) = some .reader := by
  simp [leftRunning]

theorem pair_sublist_concat {a b c : Scene} {l : List Scene} :
    [a, b].Sublist (l ++ [c]) ↔ [a, b].Sublist l ∨ a ∈ l ∧ b = c := by
  constructor
  · intro h
    obtain ⟨l₁, l₂, heq, h₁, h₂⟩ := List.sublist_append_iff.mp h
    rcases List.sublist_singleton.mp h₂ with rfl | rfl
    · rw [List.append_nil] at heq
      exact .inl (heq ▸ h₁)
    · obtain ⟨rfl, rfl⟩ : l₁ = [a] ∧ c = b := by
        cases l₁ with
        | nil => simp at heq
        | cons x l₁ => cases l₁ <;> simp_all
      exact .inr ⟨List.singleton_sublist.mp h₁, rfl⟩
  · rintro (h | ⟨ha, rfl⟩)
    · exact h.trans (List.sublist_append_left _ _)
    · exact (List.singleton_sublist.mpr ha).append (List.Sublist.refl [b])

theorem clash_after (event : Event) : Clash (v.after event) ↔
    Clash v ∨ (follow v.current event).reader.isSome ∧ .write ∈ v.handled ++ [v.current] := by
  constructor
  · rintro ⟨scene, hreader, hsub⟩
    rcases pair_sublist_concat.mp hsub with hsub | ⟨hmem, rfl⟩
    · exact .inl ⟨scene, hreader, hsub⟩
    · exact .inr ⟨hreader, hmem⟩
  · rintro (⟨scene, hreader, hsub⟩ | ⟨hreader, hmem⟩)
    · exact ⟨scene, hreader, pair_sublist_concat.mpr (.inl hsub)⟩
    · exact ⟨_, hreader, pair_sublist_concat.mpr (.inr ⟨hmem, rfl⟩)⟩

theorem leftRunning_of_not_clash (hc : ¬ Clash v) (h : v.current.reader.isSome) :
    leftRunning v.handled = none := by
  by_contra hne
  have hmem : .write ∈ v.handled := by
    by_contra hmem
    exact hne (if_neg hmem)
  exact hc ⟨v.current, h, pair_sublist_concat.mpr (.inr ⟨hmem, rfl⟩)⟩

theorem not_clash_after (event : Event) (hc : ¬ Clash v)
    (h : (follow v.current event).reader = none) : ¬ Clash (v.after event) := by
  rw [clash_after]
  simp [hc, h]

theorem Consistent.stay (h : Consistent v app) (hc : ¬ Clash v) (event : Event)
    (hwrite : v.current ≠ .write) (hfollow : follow v.current event = v.current) :
    Consistent (v.after event) app ∧ ¬ Clash (v.after event) := by
  obtain ⟨handled, current⟩ := v
  obtain ⟨hscene, hexit, hstack, hcomparator, htimer, htiming⟩ := h
  dsimp only at *
  refine ⟨⟨?_, ?_, ?_, ?_, ?_, ?_⟩, ?_⟩
  · simp [Visits.after, hfollow, hscene]
  · simpa [Visits.after, hfollow] using hexit
  · simp [Visits.after, hfollow, hstack]
  · simp [Visits.after, hfollow, hcomparator, leftRunning_concat hwrite]
  · simp [Visits.after, hfollow, htimer]
  · simp [Visits.after, hfollow, hwrite]
  · rw [clash_after]
    rintro (hclash | ⟨hreader, hmem⟩)
    · exact hc hclash
    · have hleft := leftRunning_of_not_clash hc (hfollow ▸ hreader)
      simp_all [leftRunning]

/-- The scenes that the menu leads to, except the one that writes. -/
def Scene.runs (scene : Scene) : Prop := scene ≠ .exit ∧ scene ≠ .start ∧ scene ≠ .write

theorem Consistent.leave (h : Consistent v app) (hc : ¬ Clash v) (hruns : v.current.runs) :
    Agrees (v.after .back) (switchToPreviousScene app) := by
  obtain ⟨handled, current⟩ := v
  obtain ⟨previous, scene, comparator, timer, timingIndex⟩ := app
  obtain ⟨hscene, -, hstack, hcomparator, htimer, -⟩ := h
  obtain ⟨hexit, hstart, hwrite⟩ := hruns
  dsimp only at *
  have hfollow : follow current .back = .start := by cases current <;> simp_all [follow]
  subst hscene hcomparator htimer
  rw [if_neg hstart] at hstack
  subst hstack
  have hleft : leftRunning (handled ++ [scene]) = leftRunning handled := leftRunning_concat hwrite
  have hreader := leftRunning_of_not_clash hc
  dsimp only at hreader
  have hnot := not_clash_after .back hc (by rw [hfollow]; rfl)
  have hcons (app : LfrfidApp) (hscene : app.currentScene = .start)
      (hstack : app.previousScenesList = [.exit])
      (hcomparator : app.comparator = slotOf .comparatorTrigger (leftRunning handled))
      (htimer : app.timer = slotOf .timerUpdate none) :
      Agrees (Visits.after ⟨handled, scene⟩ .back) (.running app) := by
    refine .running ⟨?_, ?_, ?_, ?_, ?_, ?_⟩ hnot <;> simp [Visits.after, *, Scene.reader,
      Scene.emulator]
  cases scene with
  | exit => exact absurd rfl hexit
  | start => exact absurd rfl hstart
  | write => exact absurd rfl hwrite
  | readNormal | readIndala | tune =>
    specialize hreader rfl
    refine hcons _ rfl rfl ?_ rfl
    rw [hreader]
    rfl
  | emulateIndala | emulateHid | emulateEm => exact hcons _ rfl rfl rfl rfl

theorem Consistent.enter (h : Consistent v app) (hc : ¬ Clash v) (hstart : v.current = .start)
    {index : ℕ} (hdest : destination index = some scene) :
    Agrees (v.after (.menuSelected index)) (Outcome.of (switchToNextScene app scene)) := by
  obtain ⟨handled, current⟩ := v
  obtain ⟨previous, current', comparator, timer, timingIndex⟩ := app
  obtain ⟨hscene, -, hstack, hcomparator, htimer, -⟩ := h
  dsimp only at *
  subst hstart hscene hcomparator htimer
  rw [if_pos rfl] at hstack
  subst hstack
  have hfollow : follow .start (.menuSelected index) = scene := by simp [follow, hdest]
  have hdests : scene ≠ .exit ∧ scene ≠ .start := by
    constructor <;>
    · rintro rfl
      unfold destination at hdest
      split at hdest <;> cases hdest
  obtain ⟨hexit, hstart⟩ := hdests
  have hleft : leftRunning (handled ++ [.start]) = leftRunning handled :=
    leftRunning_concat nofun
  have hclash := clash_after (v := ⟨handled, .start⟩) (.menuSelected index)
  simp only [hfollow, hc, false_or] at hclash
  have hcons (app : LfrfidApp) (hscene : app.currentScene = scene)
      (hstack : app.previousScenesList = [.start, .exit])
      (hcomparator : app.comparator =
        slotOf .comparatorTrigger (scene.reader.or (leftRunning handled)))
      (htimer : app.timer = slotOf .timerUpdate scene.emulator)
      (htiming : scene = .write → app.timingIndex = 0)
      (hnot : scene.reader.isSome → leftRunning handled = none) :
      Agrees (Visits.after ⟨handled, .start⟩ (.menuSelected index)) (.running app) := by
    refine .running ⟨?_, ?_, ?_, ?_, ?_, ?_⟩ ?_
    · simp [Visits.after, hfollow, hscene]
    · simp [Visits.after, hfollow, hexit]
    · simp [Visits.after, hfollow, hstart, hstack]
    · simp [Visits.after, hfollow, hleft, hcomparator]
    · simp [Visits.after, hfollow, htimer]
    · intro hwrite hne
      exact absurd (htiming (hfollow ▸ hwrite)) hne
    · rw [hclash]
      rintro ⟨hreader, hmem⟩
      have := hnot hreader
      simp_all [leftRunning]
  have hcrash (hreader : scene.reader.isSome) (hne : leftRunning handled ≠ none) :
      Agrees (Visits.after ⟨handled, .start⟩ (.menuSelected index)) .crashed := by
    refine .crashed (hclash.mpr ⟨hreader, ?_⟩)
    by_contra hmem
    rw [← hleft] at hne
    exact hne (if_neg hmem)
  cases scene with
  | exit => exact absurd rfl hexit
  | start => exact absurd rfl hstart
  | write => exact hcons _ rfl rfl rfl rfl (fun _ => rfl) nofun
  | readNormal | readIndala | tune =>
    cases hrunning : leftRunning handled with
    | none => exact hcons _ rfl rfl rfl rfl nofun (fun _ => hrunning)
    | some context => exact hcrash rfl (by simp [hrunning])
  | emulateIndala | emulateHid | emulateEm => exact hcons _ rfl rfl rfl rfl nofun nofun

theorem sceneWriteOnEvent_of_ne {app : LfrfidApp} (hindex : app.timingIndex ≠ 0) (read : Bool) :
    ∃ timingIndex, App.sceneWriteOnEvent app read = some ({ app with timingIndex }, false) := by
  cases read with
  | true => exact ⟨app.timingIndex, by simp [App.sceneWriteOnEvent, hindex]⟩
  | false =>
    exact ⟨if app.timingIndex + 1 = 4 then 0 else app.timingIndex + 1,
      by simp [App.sceneWriteOnEvent, hindex]⟩

theorem Consistent.sceneWriteOnEvent (h : Consistent v app) (hwrite : v.current = .write)
    (read : Bool) : ∃ app', App.sceneWriteOnEvent app read = some (app', false) ∧
      app'.currentScene = .write ∧ app'.previousScenesList = [.start, .exit] ∧
      app'.comparator = slotOf .comparatorTrigger (some .reader) ∧
      app'.timer = slotOf .timerUpdate none := by
  obtain ⟨handled, current⟩ := v
  obtain ⟨previous, scene, comparator, timer, timingIndex⟩ := app
  obtain ⟨hscene, -, hstack, hcomparator, htimer, htiming⟩ := h
  dsimp only at *
  subst hwrite hscene hcomparator htimer
  rw [if_neg nofun] at hstack
  subst hstack
  by_cases hzero : timingIndex = 0
  · subst hzero
    refine ⟨⟨[.start, .exit], .write, slotOf .comparatorTrigger (some .reader),
      slotOf .timerUpdate none, 1⟩, ?_, rfl, rfl, rfl, rfl⟩
    simp [App.sceneWriteOnEvent, readerStop, readerStart, Scene.emulator]
  · have hleft : leftRunning handled = some .reader := if_pos (htiming rfl hzero)
    obtain ⟨index, hevent⟩ := @sceneWriteOnEvent_of_ne ⟨_, _, _, _, timingIndex⟩ hzero read
    refine ⟨_, hevent, rfl, rfl, ?_, rfl⟩
    dsimp only
    rw [hleft]
    rfl

theorem Consistent.write (h : Consistent v app) (hc : ¬ Clash v) (hwrite : v.current = .write)
    (event : Event) (read : Bool) : Agrees (v.after event) (App.handle app event read) := by
  obtain ⟨app', hevent, hscene', hstack', hcomparator', htimer'⟩ :=
    h.sceneWriteOnEvent hwrite read
  obtain ⟨handled, current⟩ := v
  have hscene := h.currentScene
  dsimp only at hwrite hscene
  subst hwrite
  have hon : onEvent app event read = some (app', false) := by
    rw [onEvent, hscene]
    exact hevent
  have hreader : (follow .write event).reader = none := by cases event <;> rfl
  have hnot := not_clash_after event hc hreader
  have hleft : leftRunning (handled ++ [.write]) = some .reader := leftRunning_write
  rw [App.handle, hon]
  by_cases hback : event = .back
  · subst hback
    obtain ⟨previous, scene, comparator, timer, timingIndex⟩ := app'
    dsimp only at hscene' hstack' hcomparator' htimer'
    subst hscene' hstack' hcomparator' htimer'
    refine .running ⟨rfl, nofun, rfl, ?_, rfl, nofun⟩ hnot
    rw [Visits.after, hleft]
    rfl
  · have hfollow : follow .write event = .write := by cases event <;> simp_all [follow]
    simp only [Bool.not_false, hback, decide_false, Bool.and_false, Bool.false_eq_true, if_false]
    refine .running ⟨?_, ?_, ?_, ?_, ?_, ?_⟩ hnot
    · simp [Visits.after, hfollow, hscene']
    · simp [Visits.after, hfollow]
    · simp [Visits.after, hfollow, hstack']
    · rw [Visits.after, hleft, hfollow, hcomparator']
      rfl
    · simp [Visits.after, hfollow, htimer', Scene.emulator]
    · simp [Visits.after]

theorem Consistent.handle (h : Consistent v app) (hc : ¬ Clash v) (event : Event) (read : Bool) :
    Agrees (v.after event) (App.handle app event read) := by
  by_cases hwrite : v.current = .write
  · exact h.write hc hwrite event read
  · by_cases hstart : v.current = .start
    · have hstay (hfollow : follow .start event = .start)
          (hhandle : App.handle app event read = .running app) :
          Agrees (v.after event) (App.handle app event read) := by
        obtain ⟨h', hc'⟩ := h.stay hc event hwrite (hstart ▸ hfollow)
        rw [hhandle]
        exact .running h' hc'
      have hscene := h.currentScene.trans hstart
      cases event with
      | tick | nextScene => exact hstay rfl (by simp [App.handle, onEvent, hscene, sceneStartOnEvent])
      | back =>
        have hnot := not_clash_after .back hc (by rw [hstart]; rfl)
        have hstack := h.previousScenesList
        rw [if_pos hstart] at hstack
        have hexit : App.handle app .back read = .exited { app with previousScenesList := [] } := by
          simp [App.handle, onEvent, hscene, sceneStartOnEvent, switchToPreviousScene, hstack,
            onExit]
        rw [hexit]
        refine .exited ?_ hnot ?_ ?_
        · rw [Visits.after, hstart]
          rfl
        · rw [Visits.after, leftRunning_concat hwrite, h.comparator, hstart]
          rfl
        · rw [h.timer, hstart]
          rfl
      | menuSelected index =>
        cases hdest : destination index with
        | none =>
          refine hstay (by simp [follow, hdest]) ?_
          simp [App.handle, onEvent, hscene, sceneStartOnEvent, hdest]
        | some scene =>
          have hagrees := h.enter hc hstart hdest
          rw [App.handle, onEvent, hscene]
          simp only [sceneStartOnEvent, hdest]
          cases hswitch : switchToNextScene app scene with
          | none => simpa [hswitch, Outcome.of] using hagrees
          | some app' => simpa [hswitch, Outcome.of] using hagrees
    · have hon : onEvent app event read = some (app, false) := by
        rw [onEvent, h.currentScene]
        cases hcurrent : v.current <;> simp_all
      rw [App.handle, hon]
      by_cases hback : event = .back
      · subst hback
        exact h.leave hc ⟨h.notExit, hstart, hwrite⟩
      · obtain ⟨h', hc'⟩ := h.stay hc event hwrite (by
          cases event <;> cases hcurrent : v.current <;> simp_all [follow])
        simpa [hback] using Agrees.running h' hc'

theorem Agrees.handle {outcome : Outcome} (h : Agrees v outcome) (event : Event) (read : Bool) :
    Agrees (v.after event) (outcome.handle (event, read)) := by
  cases h with
  | running h hc => exact h.handle hc event read
  | exited h hc hcomparator htimer =>
    refine .exited ?_ (not_clash_after event hc ?_) ?_ htimer
    · rw [Visits.after, h]
      rfl
    · rw [h]
      rfl
    · rw [Visits.after, leftRunning_concat (by simp [h])]
      exact hcomparator
  | crashed h => exact .crashed ((clash_after event).mpr (.inl h))

theorem agrees_run (events : List (Event × Bool)) :
    Agrees (visits (events.map Prod.fst)) (run events) := by
  induction events using List.reverseRecOn with
  | nil =>
    refine .running ⟨rfl, nofun, rfl, rfl, rfl, nofun⟩ ?_
    rintro ⟨scene, hreader, hsub⟩
    have := hsub.length_le
    simp [visits] at this
  | append_singleton events event ih =>
    have hvisits : visits ((events ++ [event]).map Prod.fst) =
        (visits (events.map Prod.fst)).after event.1 := by
      simp [visits, List.foldl_append]
    rw [hvisits, run, List.foldl_append]
    exact ih.handle event.1 event.2

/-- The application runs the reader or the emulator of its scene, and besides it the reader that
the scene that writes has left running: the slots of their interrupts hold that and nothing else.
A check fails exactly when a scene with a reader is entered after the scene that writes, and when
the application exits its emulator is stopped, but not the reader that has been left running. -/
theorem lfrfid_runs (events : List (Event × Bool)) :
    let visited := visits (events.map Prod.fst)
    (run events = .crashed ↔ Clash visited) ∧
    (∀ app, run events = .running app →
      app.currentScene = visited.current ∧
      app.comparator = slotOf .comparatorTrigger
        (visited.current.reader.or (leftRunning visited.handled)) ∧
      app.timer = slotOf .timerUpdate visited.current.emulator) ∧
    ∀ app, run events = .exited app →
      visited.current = .exit ∧
      app.comparator = slotOf .comparatorTrigger (leftRunning visited.handled) ∧
      app.timer = apiInterruptInit := by
  intro visited
  have h : Agrees visited (run events) := agrees_run events
  clear_value visited
  generalize run events = outcome at h ⊢
  cases h with
  | running h hc =>
    refine ⟨⟨Outcome.noConfusion, fun hclash => absurd hclash hc⟩, ?_,
      fun _ => Outcome.noConfusion⟩
    rintro _ ⟨⟩
    exact ⟨h.currentScene, h.comparator, h.timer⟩
  | exited h hc hcomparator htimer =>
    refine ⟨⟨Outcome.noConfusion, fun hclash => absurd hclash hc⟩,
      fun _ => Outcome.noConfusion, ?_⟩
    rintro _ ⟨⟩
    exact ⟨h, hcomparator, htimer⟩
  | crashed h =>
    refine ⟨⟨fun _ => h, fun _ => rfl⟩, ?_, ?_⟩
    · rintro _ ⟨⟩
    · rintro _ ⟨⟩

end FlipperZero.LfRfid.App
