import FlipperZero.AppLoader.Basic
import FlipperZero.Gui.ViewDispatcher

/-! # Starting applications from the idle screen

The GUI service calls the idle view, which sets up the one scene thread and starts it. The
application takes the keys over as long as its own view port is up; before and after that they reach
the idle view again.
-/

namespace FlipperZero.Dolphin

open Lib Gui
open AppLoader (FuriThread FuriThreadState FlipperApplication)

def flipperScene : FlipperApplication := ⟨0, "Scenes", 1024⟩

def flipperArchive : FlipperApplication := ⟨1, "Archive", 4096⟩

def InputEvent.startsApp (event : InputEvent) : Option FlipperApplication :=
  if event = ⟨.right, .short⟩ then some flipperScene
  else if event = ⟨.down, .short⟩ then some flipperArchive
  else none

/-- How far the scene thread is in `furi_thread_body`. -/
inductive SceneAppPc where
  | body
  | running
  | returned
deriving DecidableEq, Repr

/-- Where the GUI service is in the input callback of the idle view, up to the end of
`furi_thread_start`. -/
inductive SceneGuiPc where
  | idle
  | input (event : InputEvent)
  | setName (app : FlipperApplication)
  | setStackSize (app : FlipperApplication)
  | setCallback (app : FlipperApplication)
  | threadStart
  | threadNew
deriving DecidableEq, Repr

structure SceneSystem where
  thread : FuriThread
  app : Option SceneAppPc
  /-- The view port of the application gets the keys. -/
  viewPort : Bool
  gui : SceneGuiPc
  locked : Bool
  /-- An assertion of the thread did not hold; where it is not checked, a thread that was not
  stopped was changed. -/
  misused : Bool

namespace SceneSystem

variable (s : SceneSystem)

def furiAssert (p : Bool) (s' : SceneSystem) : SceneSystem :=
  if p then s' else { s with misused := true }

def isStopped : Bool := s.thread.state = .stopped

def guiNext (created : Bool) : SceneGuiPc → Option SceneSystem
  | .idle => none
  | .input event =>
    match InputEvent.startsApp event, s.locked with
    | some app, false => some { s with gui := .setName app }
    | _, _ => some { s with gui := .idle }
  | .setName app =>
    some (s.furiAssert s.isStopped
      { s with gui := .setStackSize app, thread := { s.thread with name := some app.name } })
  | .setStackSize app =>
    some (s.furiAssert s.isStopped
      { s with gui := .setCallback app, thread := { s.thread with stackSize := app.stackSize } })
  | .setCallback app =>
    some (s.furiAssert s.isStopped
      { s with gui := .threadStart, thread := { s.thread with callback := some app.app } })
  | .threadStart =>
    some (s.furiAssert (s.thread.callback.isSome && s.isStopped)
      { s with gui := .threadNew, thread := { s.thread with state := .starting } })
  | .threadNew =>
    if created then some { s with gui := .idle, app := some .body }
    else
      some (s.furiAssert (s.thread.state = .starting)
        { s with gui := .idle, thread := { s.thread with state := .stopped } })

/-- A step of the scene thread; a running application raises and lowers its view port. -/
def appNext (up : Bool) : Option SceneAppPc → Option SceneSystem
  | none => none
  | some .body =>
    some (s.furiAssert (s.thread.state = .starting)
      { s with app := some .running, thread := { s.thread with state := .running } })
  | some .running => some { s with viewPort := up }
  | some .returned =>
    some (s.furiAssert (s.thread.state = .running)
      { s with app := none, thread := { s.thread with state := .stopped } })

inductive Label where
  | key (event : InputEvent)
  /-- The next step of the GUI service; a thread is created if there is memory for it. -/
  | gui (created : Bool)
  | app (up : Bool)
  /-- The application has lowered its view port and returns. -/
  | appReturn
  /-- The lock menu locks the idle view, or the lock handler unlocks it. -/
  | lock (locked : Bool)
deriving DecidableEq, Repr

def next (l : Label) : Option SceneSystem :=
  if s.misused then none
  else
    match l with
    | .key event =>
      if s.gui = .idle then
        some (if s.viewPort then s else { s with gui := .input event })
      else none
    | .gui created => s.guiNext created s.gui
    | .app up => s.appNext up s.app
    | .appReturn =>
      if s.app = some .running ∧ s.viewPort = false then some { s with app := some .returned }
      else none
    | .lock locked => if s.gui = .idle then some { s with locked := locked } else none

def machine : Machine SceneSystem Label where
  init := ⟨FuriThread.alloc, none, false, .idle, false, false⟩
  next := next

/-- No key that starts an application reaches the idle view while one is on its way up or down. -/
def Keeps : Label → Prop
  | .key event => (InputEvent.startsApp event).isSome → s.locked = false → s.viewPort = false →
      s.app = none
  | _ => True

instance : ∀ l, Decidable (s.Keeps l)
  | .key event => inferInstanceAs (Decidable ((InputEvent.startsApp event).isSome → _))
  | .gui _ | .app _ | .appReturn | .lock _ => instDecidableTrue

def expected : Option SceneAppPc → SceneGuiPc → FuriThreadState
  | some .body, _ => .starting
  | some .running, _ | some .returned, _ => .running
  | none, .threadNew => .starting
  | none, _ => .stopped

def Starting : SceneGuiPc → Prop
  | .idle => False
  | .input event => (InputEvent.startsApp event).isSome ∧ s.locked = false
  | _ => True

structure Sound : Prop where
  safe : s.misused = false
  state : s.thread.state = expected s.app s.gui
  starting : s.Starting s.gui → s.app = none
  callback : s.gui = .threadStart → s.thread.callback.isSome
  viewPort : s.viewPort → s.app = some .running

variable {s : SceneSystem} {s' : SceneSystem} {l : Label}

theorem sound_init : machine.init.Sound := by
  constructor
  · rfl
  · rfl
  · rintro ⟨⟩
  · rintro ⟨⟩
  · rintro ⟨⟩

@[simp] theorem furiAssert_true : s.furiAssert true s' = s' := rfl

namespace Sound

theorem isStopped_of_app_eq_none (h : s.Sound) (happ : s.app = none) (hgui : s.gui ≠ .threadNew) :
    s.isStopped = true := by
  have hstate := h.state
  rw [happ] at hstate
  unfold isStopped
  cases hpc : s.gui with
  | threadNew => exact absurd hpc hgui
  | idle | input | setName | setStackSize | setCallback | threadStart =>
    rw [hpc] at hstate
    exact decide_eq_true hstate

theorem start_next (h : s.Sound) {pc pc' : SceneGuiPc} {thread : FuriThread} (hpc : s.gui = pc)
    (hstart : s.Starting pc) (hnew : pc ≠ .threadNew) (hnew' : pc' ≠ .threadNew)
    (hstate : thread.state = s.thread.state)
    (hcallback : pc' = .threadStart → thread.callback.isSome) :
    ({ s with gui := pc', thread := thread } : SceneSystem).Sound := by
  have happ : s.app = none := h.starting (hpc ▸ hstart)
  have hstopped := of_decide_eq_true (h.isStopped_of_app_eq_none happ (hpc ▸ hnew))
  constructor
  · exact h.safe
  · show thread.state = expected s.app pc'
    rw [hstate, hstopped, happ]
    cases pc' with
    | threadNew => exact absurd rfl hnew'
    | idle | input | setName | setStackSize | setCallback | threadStart => rfl
  · intro _
    exact happ
  · exact hcallback
  · exact h.viewPort

theorem guiNext (h : s.Sound) {created : Bool} (hs : s.guiNext created s.gui = some s') :
    s'.Sound := by
  cases hgui : s.gui with
  | idle =>
    rw [hgui] at hs
    cases hs
  | input event =>
    rw [hgui, SceneSystem.guiNext] at hs
    split at hs
    · next app happ hlocked =>
      obtain rfl := Option.some.inj hs
      have hstart : Starting s (.input event) := ⟨happ ▸ rfl, hlocked⟩
      exact h.start_next hgui hstart (by rintro ⟨⟩) (by rintro ⟨⟩) rfl (by rintro ⟨⟩)
    · obtain rfl := Option.some.inj hs
      constructor
      · exact h.safe
      · rw [h.state, hgui]
        cases happ : s.app with
        | none => rfl
        | some pc => cases pc <;> rfl
      · rintro ⟨⟩
      · rintro ⟨⟩
      · exact h.viewPort
  | setName app =>
    have happ : s.app = none := h.starting (hgui ▸ trivial)
    rw [hgui, SceneSystem.guiNext, h.isStopped_of_app_eq_none happ (hgui ▸ by rintro ⟨⟩)] at hs
    obtain rfl := Option.some.inj hs
    exact h.start_next hgui trivial (by rintro ⟨⟩) (by rintro ⟨⟩) rfl (by rintro ⟨⟩)
  | setStackSize app =>
    have happ : s.app = none := h.starting (hgui ▸ trivial)
    rw [hgui, SceneSystem.guiNext, h.isStopped_of_app_eq_none happ (hgui ▸ by rintro ⟨⟩)] at hs
    obtain rfl := Option.some.inj hs
    exact h.start_next hgui trivial (by rintro ⟨⟩) (by rintro ⟨⟩) rfl (by rintro ⟨⟩)
  | setCallback app =>
    have happ : s.app = none := h.starting (hgui ▸ trivial)
    rw [hgui, SceneSystem.guiNext, h.isStopped_of_app_eq_none happ (hgui ▸ by rintro ⟨⟩)] at hs
    obtain rfl := Option.some.inj hs
    exact h.start_next hgui trivial (by rintro ⟨⟩) (by rintro ⟨⟩) rfl fun _ => rfl
  | threadStart =>
    have happ : s.app = none := h.starting (hgui ▸ trivial)
    rw [hgui, SceneSystem.guiNext, h.isStopped_of_app_eq_none happ (hgui ▸ by rintro ⟨⟩),
      h.callback hgui] at hs
    obtain rfl := Option.some.inj hs
    constructor
    · exact h.safe
    · simp only [happ]
      rfl
    · intro _
      exact happ
    · rintro ⟨⟩
    · exact h.viewPort
  | threadNew =>
    have happ : s.app = none := h.starting (hgui ▸ trivial)
    have hstate := h.state
    simp only [hgui, happ, expected] at hstate
    rw [hgui, SceneSystem.guiNext] at hs
    split at hs
    · obtain rfl := Option.some.inj hs
      constructor
      · exact h.safe
      · exact hstate
      · rintro ⟨⟩
      · rintro ⟨⟩
      · intro hup
        cases happ ▸ h.viewPort hup
    · rw [decide_eq_true hstate] at hs
      obtain rfl := Option.some.inj hs
      constructor
      · exact h.safe
      · simp only [happ]
        rfl
      · rintro ⟨⟩
      · rintro ⟨⟩
      · exact h.viewPort

theorem appNext (h : s.Sound) {up : Bool} (hs : s.appNext up s.app = some s') : s'.Sound := by
  have hidle : s.app ≠ none → ¬s.Starting s.gui := fun happ hstart => happ (h.starting hstart)
  have hcallback : s.app ≠ none → s.gui ≠ .threadStart :=
    fun happ hgui => hidle happ (hgui ▸ trivial)
  have hstate := h.state
  cases happ : s.app with
  | none =>
    rw [happ] at hs
    cases hs
  | some pc =>
    have hsome : s.app ≠ none := by
      rw [happ]
      rintro ⟨⟩
    cases pc with
    | body =>
      simp only [happ, expected] at hstate
      rw [happ, SceneSystem.appNext, decide_eq_true hstate] at hs
      obtain rfl := Option.some.inj hs
      constructor
      · exact h.safe
      · rfl
      · intro hstart
        exact absurd hstart (hidle hsome)
      · intro hgui
        exact absurd hgui (hcallback hsome)
      · intro _
        rfl
    | running =>
      rw [happ] at hs
      obtain rfl := Option.some.inj hs
      constructor
      · exact h.safe
      · exact h.state
      · intro hstart
        exact absurd hstart (hidle hsome)
      · intro hgui
        exact absurd hgui (hcallback hsome)
      · intro _
        exact happ
    | returned =>
      simp only [happ, expected] at hstate
      rw [happ, SceneSystem.appNext, decide_eq_true hstate] at hs
      obtain rfl := Option.some.inj hs
      constructor
      · exact h.safe
      · cases hgui : s.gui with
        | idle | input | setName | setStackSize | setCallback | threadStart => rfl
        | threadNew => exact absurd (hgui ▸ trivial) (hidle hsome)
      · intro _
        rfl
      · intro hgui
        exact absurd hgui (hcallback hsome)
      · intro hup
        cases happ ▸ h.viewPort hup

theorem next (h : s.Sound) (hkeeps : s.Keeps l) (hs : machine.next s l = some s') :
    s'.Sound := by
  simp only [machine, SceneSystem.next, h.safe, Bool.false_eq_true, if_false] at hs
  cases l with
  | key event =>
    simp only [Option.ite_none_right_eq_some] at hs
    obtain ⟨hgui, hs⟩ := hs
    obtain rfl := Option.some.inj hs
    split
    · exact h
    · next hup =>
      constructor
      · rfl
      · simp only [h.state, hgui]
        cases happ : s.app with
        | none => rfl
        | some pc => cases pc <;> rfl
      · rintro ⟨hstart, hlocked⟩
        exact hkeeps hstart hlocked (Bool.eq_false_iff.mpr hup)
      · rintro ⟨⟩
      · exact h.viewPort
  | gui created => exact h.guiNext hs
  | app up => exact h.appNext hs
  | appReturn =>
    simp only [Option.ite_none_right_eq_some] at hs
    obtain ⟨⟨happ, hdown⟩, hs⟩ := hs
    obtain rfl := Option.some.inj hs
    constructor
    · rfl
    · simp only [h.state, happ]
      rfl
    · intro hstart
      cases happ ▸ h.starting hstart
    · exact h.callback
    · intro hup
      cases hdown ▸ hup
  | lock locked =>
    simp only [Option.ite_none_right_eq_some] at hs
    obtain ⟨hgui, hs⟩ := hs
    obtain rfl := Option.some.inj hs
    constructor
    · rfl
    · exact h.state
    · intro hstart
      cases hgui ▸ hstart
    · exact h.callback
    · exact h.viewPort

end Sound

theorem misused_of_not_keeps (h : s.Sound) (hkeeps : ¬s.Keeps l)
    (hs : machine.next s l = some s') :
    ∃ s'', machine.exec s' [.gui true, .gui true] = some s'' ∧ s''.misused := by
  cases l with
  | key event =>
    simp only [Keeps, Classical.not_imp, Option.isSome_iff_exists] at hkeeps
    obtain ⟨⟨app, hstart⟩, hlocked, hup, happ⟩ := hkeeps
    have hstate : s.thread.state ≠ .stopped := by
      rw [h.state]
      cases hpc : s.app with
      | none => exact absurd hpc happ
      | some pc => cases pc <;> rintro ⟨⟩
    simp only [machine, SceneSystem.next, h.safe, Bool.false_eq_true, if_false,
      Option.ite_none_right_eq_some] at hs
    obtain ⟨hgui, hs⟩ := hs
    obtain rfl := Option.some.inj hs
    have hinput : machine.next { s with gui := .input event, misused := false } (.gui true) =
        some { s with gui := .setName app, misused := false } := by
      simp only [machine, SceneSystem.next, guiNext, hstart, hlocked]
      rfl
    have hname : machine.next { s with gui := .setName app, misused := false } (.gui true) =
        some { s with gui := .setName app, misused := true } := by
      simp only [machine, SceneSystem.next, guiNext, isStopped, decide_eq_false hstate]
      rfl
    rw [if_neg (Bool.eq_false_iff.mp hup)]
    exact ⟨_, (Machine.exec_cons hinput).trans (Machine.exec_cons hname), rfl⟩
  | gui | app | appReturn | lock => exact absurd trivial hkeeps

end SceneSystem

/-- In every run that meets the condition the scene thread is changed and started only while it is
stopped. After any other step of such a run the GUI service, if it goes on at once, changes a thread
that is not. -/
theorem dolphin_switch_to_app_stopped {s : SceneSystem}
    (hreach : SceneSystem.machine.ReachableWith SceneSystem.Keeps s) :
    s.misused = false ∧ ∀ l s', SceneSystem.machine.next s l = some s' → ¬s.Keeps l →
      ∃ s'', SceneSystem.machine.exec s' [.gui true, .gui true] = some s'' ∧ s''.misused := by
  have hsound : s.Sound := hreach.invariant (P := SceneSystem.Sound) SceneSystem.sound_init
    fun _ _ _ h hkeeps hs => h.next hkeeps hs
  exact ⟨hsound.safe, fun l s' hs hkeeps => SceneSystem.misused_of_not_keeps hsound hkeeps hs⟩

/-- Right starts the scenes; it is pressed again after they have returned and before their thread is
stopped. -/
theorem dolphin_switch_to_app_stopped_returned : ∃ s s' s'' : SceneSystem,
    s.app = some .returned ∧ s.misused = false ∧
    SceneSystem.machine.next s (.key ⟨.right, .short⟩) = some s' ∧
    SceneSystem.machine.exec s' [.gui true, .gui true] = some s'' ∧ s''.misused := by
  have hrun : ∃ s s' : SceneSystem, SceneSystem.machine.execWith SceneSystem.Keeps
      SceneSystem.machine.init
        (SceneSystem.Label.key ⟨.right, .short⟩ :: List.replicate 6 (SceneSystem.Label.gui true) ++
          [SceneSystem.Label.app true, SceneSystem.Label.app true,
            SceneSystem.Label.key ⟨.right, .short⟩, SceneSystem.Label.app false,
            SceneSystem.Label.appReturn]) = some s ∧
      SceneSystem.machine.next s (.key ⟨.right, .short⟩) = some s' ∧ s.app = some .returned ∧
      ¬s.Keeps (.key ⟨.right, .short⟩) := ⟨_, _, rfl, rfl, rfl, by decide⟩
  obtain ⟨s, s', hexec, hs, happ, hkeeps⟩ := hrun
  have hreach := Machine.execWith_reachableWith .init hexec
  obtain ⟨hsafe, hstart⟩ := dolphin_switch_to_app_stopped hreach
  obtain ⟨s'', hexec', hmisused⟩ := hstart _ s' hs hkeeps
  exact ⟨s, s', s'', happ, hsafe, hs, hexec', hmisused⟩

/-- The key is pressed again before the view port of the application is up. -/
theorem dolphin_switch_to_app_stopped_again :
    ¬∀ s : SceneSystem, SceneSystem.machine.Reachable s → s.misused = false := by
  intro h
  have hrun : ∃ s : SceneSystem, SceneSystem.machine.exec SceneSystem.machine.init
      (SceneSystem.Label.key ⟨.right, .short⟩ :: List.replicate 6 (SceneSystem.Label.gui true) ++
        [SceneSystem.Label.app true, SceneSystem.Label.key ⟨.right, .short⟩,
          SceneSystem.Label.gui true, SceneSystem.Label.gui true]) =
        some s ∧ s.misused = true :=
    ⟨_, rfl, rfl⟩
  obtain ⟨s, hs, hmisused⟩ := hrun
  have hsafe := h s (Machine.exec_reachable .init hs)
  rw [hmisused] at hsafe
  cases hsafe

end FlipperZero.Dolphin
