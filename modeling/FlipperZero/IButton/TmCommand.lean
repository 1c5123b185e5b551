import FlipperZero.IButton.SceneStack
import FlipperZero.Lib.Machine

/-! # The tm command beside the application

The thread of the command line switches to a scene by itself and waits for its
result; the application handles its events at the same time. The number of a scene
run is carried with the result that the run sends.
-/

namespace FlipperZero.IButton.App

open Lib

inductive TmCommand where
  | read
  | write
  | emulate
  deriving DecidableEq, Repr

def TmCommand.scene : TmCommand → Scene
  | .read => .sceneCliRead
  | .write => .sceneCliWrite
  | .emulate => .sceneCliEmulate

inductive AppPc where
  | receiveEvent
  /-- An event was received and the current scene is to handle it. -/
  | onEvent (event : Event)
  /-- In `on_event` of a scene that was looked up in the run with this number. -/
  | handle (scene : Scene) (run : ℕ) (event : Event)
  /-- In `timeout--` of a scene of the command line, between the read and the write. -/
  | countDown (scene : Scene) (run timeout : ℕ)
  /-- The scene is to ask the key worker and to decide. -/
  | poll (scene : Scene) (run : ℕ) (event : Event) (timeout : ℕ)
  /-- In `cli_send_event` of the scene run with this number. -/
  | cliSendEvent (result : CliEvent) (run : ℕ) (work : Work)
  | work (work : Work)
  /-- `run` has left its loop. -/
  | leave
  /-- `run` has returned and the application is to be deleted. -/
  | delete
  | deleted
  deriving DecidableEq, Repr

inductive CliPc where
  | idle
  /-- In `switch_to_next_scene` to a scene, with the run that it has entered. -/
  | switch (scene : Scene) (run : ℕ) (work : Work)
  /-- In `osMessageQueueGet`. -/
  | wait (scene : Scene) (run : ℕ)
  deriving DecidableEq, Repr

/-- A command that started one run and got its result from another or the same. -/
structure Reply where
  asked : ℕ
  run : ℕ
  result : CliEvent
  deriving DecidableEq, Repr

structure State where
  stage : Stage
  app : AppPc
  cli : CliPc
  /-- The queue of one result, here with the run that sent it. -/
  cliEventResult : Option (CliEvent × ℕ)
  /-- The runs that sent results. -/
  sent : List ℕ
  replies : List Reply
  /-- The ticks that were counted down since the command made its last step of a switch. -/
  ticks : ℕ

inductive Label where
  | line (command : TmCommand)
  | switch (loaded : Bool)
  | reply
  | receiveEvent (event : Event)
  /-- `run` looks the current scene up and calls its `on_event`. -/
  | lookup
  | timeout
  | onEvent (answers : Answers)
  | cliSendEvent
  | work (loaded : Bool)
  | leave
  | delete
  deriving DecidableEq, Repr

def AppPc.of : Work → AppPc
  | .idle => .receiveEvent
  | .exit => .leave
  | w => .work w

def AppPc.handled (result : Option CliEvent) (run : ℕ) (work : Work) : AppPc :=
  match result with
  | some result => .cliSendEvent result run work
  | none => .of work

def CliPc.of (scene : Scene) (run : ℕ) : Work → CliPc
  | .idle | .exit => .wait scene run
  | w => .switch scene run w

/-- The command is there and `run` is about to enter the first scene. -/
def State.init : State where
  stage := .init
  app := .work .onEnter
  cli := .idle
  cliEventResult := none
  sent := []
  replies := []
  ticks := 0

def State.lookup (s : State) (event : Event) : State :=
  let scene := s.stage.currentScene
  { s with app := .handle scene (lastRun scene s.stage.calls) event }

def State.readTimeout (s : State) (scene : Scene) (run : ℕ) (event : Event) : State :=
  let timeout := s.stage.timeout scene
  { s with app :=
      if scene.isCli = true ∧ event = .tick then .countDown scene run timeout
      else .poll scene run event timeout }

def State.writeTimeout (s : State) (scene : Scene) (run timeout : ℕ) : State :=
  { s with
    stage := { s.stage with
      timeout := Function.update s.stage.timeout scene (timeoutAfter timeout) }
    ticks := s.ticks + 1
    app := .poll scene run .tick timeout }

def decided (answers : Answers) (scene : Scene) (run : ℕ) (event : Event) (timeout : ℕ) :
    AppPc :=
  let handling := onEvent answers timeout scene event
  AppPc.handled handling.cliSendEvent run (handling.after event)

def State.switch (s : State) (scene : Scene) (run : ℕ) (w : Work) (loaded : Bool) :
    Option State :=
  (w.step s.stage loaded).map fun (stage, w') =>
    { s with
      stage := stage
      cli := .of scene (if w = .onEnter then enters stage.calls else run) w'
      ticks := 0 }

def next (s : State) : Label → Option State
  | .line command =>
    match s.cli with
    | .idle =>
      if s.app = .deleted then none
      else some { s with cli := .switch command.scene 0 (switchToNextScene command.scene) }
    | _ => none
  | .switch loaded =>
    match s.cli with
    | .switch scene run w => s.switch scene run w loaded
    | _ => none
  | .reply =>
    match s.cli, s.cliEventResult with
    | .wait _ asked, some (result, run) =>
      some { s with
        cli := .idle
        cliEventResult := none
        replies := ⟨asked, run, result⟩ :: s.replies }
    | _, _ => none
  | .receiveEvent event =>
    if s.app = .receiveEvent then some { s with app := .onEvent event } else none
  | .lookup =>
    match s.app with
    | .onEvent event => some (s.lookup event)
    | _ => none
  | .timeout =>
    match s.app with
    | .handle scene run event => some (s.readTimeout scene run event)
    | .countDown scene run timeout => some (s.writeTimeout scene run timeout)
    | _ => none
  | .onEvent answers =>
    match s.app with
    | .poll scene run event timeout =>
      some { s with app := decided answers scene run event timeout }
    | _ => none
  | .cliSendEvent =>
    match s.app, s.cliEventResult with
    | .cliSendEvent result run w, none =>
      some { s with cliEventResult := some (result, run), sent := run :: s.sent, app := .of w }
    | _, _ => none
  | .work loaded =>
    match s.app with
    | .work w => (w.step s.stage loaded).map fun (stage, w') =>
      { s with stage := stage, app := .of w' }
    | _ => none
  | .leave =>
    if s.app = .leave then
      some { s with
        stage := { s.stage with calls := .onExit s.stage.currentScene :: s.stage.calls }
        app := .delete }
    else none
  | .delete => if s.app = .delete then some { s with app := .deleted } else none

/-- What each label does, and when it can be done. -/
inductive Next (s : State) : Label → State → Prop
  | line {command : TmCommand} (hidle : s.cli = .idle) (happ : s.app ≠ .deleted) :
      Next s (.line command)
        { s with cli := .switch command.scene 0 (switchToNextScene command.scene) }
  | switch {loaded : Bool} {scene : Scene} {run : ℕ} {w w' : Work} {stage : Stage}
      (hcli : s.cli = .switch scene run w) (hstep : w.step s.stage loaded = some (stage, w')) :
      Next s (.switch loaded) { s with
        stage := stage
        cli := .of scene (if w = .onEnter then enters stage.calls else run) w'
        ticks := 0 }
  | reply {scene : Scene} {asked run : ℕ} {result : CliEvent} (hwait : s.cli = .wait scene asked)
      (hqueue : s.cliEventResult = some (result, run)) :
      Next s .reply { s with
        cli := .idle
        cliEventResult := none
        replies := ⟨asked, run, result⟩ :: s.replies }
  | receiveEvent {event : Event} (happ : s.app = .receiveEvent) :
      Next s (.receiveEvent event) { s with app := .onEvent event }
  | lookup {event : Event} (happ : s.app = .onEvent event) : Next s .lookup (s.lookup event)
  | readTimeout {scene : Scene} {run : ℕ} {event : Event} (happ : s.app = .handle scene run event) :
      Next s .timeout (s.readTimeout scene run event)
  | writeTimeout {scene : Scene} {run timeout : ℕ} (happ : s.app = .countDown scene run timeout) :
      Next s .timeout (s.writeTimeout scene run timeout)
  | onEvent {answers : Answers} {scene : Scene} {run timeout : ℕ} {event : Event}
      (happ : s.app = .poll scene run event timeout) :
      Next s (.onEvent answers) { s with app := decided answers scene run event timeout }
  | cliSendEvent {result : CliEvent} {run : ℕ} {w : Work}
      (happ : s.app = .cliSendEvent result run w) (hqueue : s.cliEventResult = none) :
      Next s .cliSendEvent
        { s with cliEventResult := some (result, run), sent := run :: s.sent, app := .of w }
  | work {loaded : Bool} {w w' : Work} {stage : Stage} (happ : s.app = .work w)
      (hstep : w.step s.stage loaded = some (stage, w')) :
      Next s (.work loaded) { s with stage := stage, app := .of w' }
  | leave (happ : s.app = .leave) :
      Next s .leave { s with
        stage := { s.stage with calls := .onExit s.stage.currentScene :: s.stage.calls }
        app := .delete }
  | delete (happ : s.app = .delete) : Next s .delete { s with app := .deleted }

theorem next_cases {s s' : State} {l : Label} (h : next s l = some s') : Next s l s' := by
  cases l with
  | line command =>
    simp only [next] at h
    split at h
    · next hidle =>
      split at h
      · cases h
      · next happ => exact Option.some.inj h ▸ .line hidle happ
    · cases h
  | switch loaded =>
    simp only [next] at h
    split at h
    · next scene run w hcli =>
      obtain ⟨⟨stage, w'⟩, hstep, rfl⟩ := Option.map_eq_some_iff.mp h
      exact .switch hcli hstep
    · cases h
  | reply =>
    simp only [next] at h
    split at h
    · next hwait hqueue => exact Option.some.inj h ▸ .reply hwait hqueue
    · cases h
  | receiveEvent event =>
    simp only [next] at h
    split at h
    · next happ => exact Option.some.inj h ▸ .receiveEvent happ
    · cases h
  | lookup =>
    simp only [next] at h
    split at h
    · next happ => exact Option.some.inj h ▸ .lookup happ
    · cases h
  | timeout =>
    simp only [next] at h
    split at h
    · next happ => exact Option.some.inj h ▸ .readTimeout happ
    · next happ => exact Option.some.inj h ▸ .writeTimeout happ
    · cases h
  | onEvent answers =>
    simp only [next] at h
    split at h
    · next happ => exact Option.some.inj h ▸ .onEvent happ
    · cases h
  | cliSendEvent =>
    simp only [next] at h
    split at h
    · next happ hqueue => exact Option.some.inj h ▸ .cliSendEvent happ hqueue
    · cases h
  | work loaded =>
    simp only [next] at h
    split at h
    · next w happ =>
      obtain ⟨⟨stage, w'⟩, hstep, rfl⟩ := Option.map_eq_some_iff.mp h
      exact .work happ hstep
    · cases h
  | leave =>
    simp only [next] at h
    split at h
    · next happ => exact Option.some.inj h ▸ .leave happ
    · cases h
  | delete =>
    simp only [next] at h
    split at h
    · next happ => exact Option.some.inj h ▸ .delete happ
    · cases h

def machine : Machine State Label where
  init := .init
  next := next

/-- The application thread is not inside a switch, in the sending of a result or in the count-down
of a time limit. -/
def AppPc.AtRest : AppPc → Prop
  | .receiveEvent | .onEvent _ | .handle .. | .poll .. => True
  | _ => False

/-- The command line is inside its switch, from the first access on. -/
def CliPc.Switching : CliPc → Prop
  | .switch scene _ w => w ≠ .pushFront scene
  | _ => False

instance : (app : AppPc) → Decidable app.AtRest
  | .receiveEvent | .onEvent _ | .handle .. | .poll .. => .isTrue trivial
  | .countDown .. | .cliSendEvent .. | .work _ | .leave | .delete | .deleted => .isFalse id

instance : (cli : CliPc) → Decidable cli.Switching
  | .switch scene _ w => inferInstanceAs (Decidable (w ≠ .pushFront scene))
  | .idle | .wait .. => .isFalse id

/-- The scene was looked up in the last run, and no command has begun a switch since. -/
def State.Runs (s : State) (scene : Scene) (run : ℕ) : Prop :=
  ¬ s.cli.Switching ∧ s.stage.currentScene = scene ∧ enters s.stage.calls = run

instance (s : State) (scene : Scene) (run : ℕ) : Decidable (s.Runs scene run) :=
  inferInstanceAs (Decidable (_ ∧ _))

def State.InTurn (s : State) (answers : Answers) : AppPc → Prop
  | .poll scene run event timeout =>
    decided answers scene run event timeout = .receiveEvent ∨ s.Runs scene run
  | _ => True

/-- One thread at a time switches scenes, and no command is left without the application: the
command line switches while the application is at rest, no switch comes between the look-up of a
scene and its result or its switch, and the application is deleted while no command runs. -/
def Apart (s : State) : Label → Prop
  | .switch _ => s.app.AtRest
  | .onEvent answers => s.InTurn answers s.app
  | .delete => s.cli = .idle
  | _ => True

instance (s : State) (answers : Answers) : (app : AppPc) → Decidable (s.InTurn answers app)
  | .poll .. => inferInstanceAs (Decidable (_ ∨ _))
  | .receiveEvent | .onEvent _ | .handle .. | .countDown .. | .cliSendEvent .. | .work _ | .leave
  | .delete | .deleted => .isTrue trivial

instance (s : State) : (l : Label) → Decidable (Apart s l)
  | .switch _ => inferInstanceAs (Decidable s.app.AtRest)
  | .onEvent answers => inferInstanceAs (Decidable (s.InTurn answers s.app))
  | .delete => inferInstanceAs (Decidable (s.cli = .idle))
  | .line _ | .reply | .receiveEvent _ | .lookup | .timeout | .cliSendEvent | .work _ | .leave =>
    .isTrue trivial

def State.works (s : State) : List Work :=
  (match s.app with
    | .work w => [w]
    | _ => []) ++
  match s.cli with
    | .switch _ _ w => [w]
    | _ => []

structure NoInterference (s : State) : Prop where
  alternate : (entered s.stage.calls).isSome
  popped : ∀ w ∈ s.works, w.Pops → s.stage.previousScenesList ≠ []
  current : ∀ scene run, s.cli = .wait scene run → s.cliEventResult = none →
    s.stage.currentScene = scene
  own : ∀ reply ∈ s.replies, reply.run = reply.asked
  once : ∀ reply ∈ s.replies, s.sent.count reply.asked = 1
  pending : ∀ scene run, s.cli = .wait scene run →
    s.sent.count run = s.cliEventResult.toList.length
  answered : ∀ scene run, s.cli = .wait scene run → s.cliEventResult = none → s.ticks ≤ 51
  deleted : s.app = .deleted → s.cli = .idle

end FlipperZero.IButton.App
