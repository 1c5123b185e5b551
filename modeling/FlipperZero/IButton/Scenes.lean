import Mathlib.Algebra.Group.Nat.Defs
import Mathlib.Data.List.Basic

/-! # The scenes of the iButton application

Each scene answers an event with a result for the command line, a switch to another
scene and whether it consumed the event. A switch is a sequence of accesses to the
members of the application; the thread that makes it stands before one of them.
-/

namespace FlipperZero.IButton.App

inductive Scene where
  | sceneExit
  | sceneStart
  | sceneRead
  | sceneCliRead
  | sceneReadNotKeyError
  | sceneReadCRCError
  | sceneReadSuccess
  | sceneReadedKeyMenu
  | sceneWrite
  | sceneCliWrite
  | sceneWriteSuccess
  | sceneEmulate
  | sceneCliEmulate
  | sceneSavedKeyMenu
  | sceneDeleteConfirm
  | sceneDeleteSuccess
  | sceneSaveName
  | sceneSaveSuccess
  | sceneInfo
  | sceneSelectKey
  | sceneAddType
  | sceneAddValue
  deriving DecidableEq, Repr

inductive CliEvent where
  | cliReadSuccess
  | cliReadCRCError
  | cliReadNotKeyError
  | cliWriteSuccess
  | cliWriteFail
  | cliTimeout
  | cliInterrupt
  deriving DecidableEq, Repr

inductive KeyReaderError where
  | empty
  | crcError
  | notAreKey
  | ok
  deriving DecidableEq, Repr

inductive KeyWriterError where
  | ok
  | sameKey
  | noDetect
  | cannotWrite
  deriving DecidableEq, Repr

inductive DialogExResult where
  | left
  | center
  | right
  deriving DecidableEq, Repr

inductive Event where
  | tick
  | back
  | menuSelected (menuIndex : ℕ)
  | dialogResult (result : DialogExResult)
  | textEditResult
  | byteEditResult
  deriving DecidableEq, Repr

/-- What the key worker and the file system answer while an event is handled. -/
structure Answers where
  read : KeyReaderError
  write : KeyWriterError
  saveKey : Bool
  deleteKey : Bool
  deriving DecidableEq, Repr

/-- What a thread has still to do of a switch between scenes. -/
inductive Work where
  /-- Nothing: the functions of the switch have returned. -/
  | idle
  /-- Nothing: `switch_to_previous_scene` has told `run` to leave its loop. -/
  | exit
  /-- At the start of `switch_to_next_scene`. -/
  | pushFront (next : Scene)
  /-- Before `scenes[current_scene]->on_exit`. -/
  | onExit (next : Scene)
  /-- Before `current_scene = next`. -/
  | setCurrent (next : Scene)
  /-- Before `scenes[current_scene]->on_enter`. -/
  | onEnter
  /-- In `on_enter` of a scene of the command line, before `timeout = 50`. -/
  | setTimeout (scene : Scene)
  /-- In `on_enter` of `SceneSelectKey`, which waits for `load_key`. -/
  | loadKey
  /-- In the loop of `search_and_switch_to_previous_scene`, before `front`. -/
  | searchFront (scenesList : List Scene)
  | searchPop (scenesList : List Scene) (previous : Scene)
  /-- At the start of `switch_to_previous_scene`; `run` is whether `run` called it. -/
  | previousFront (run : Bool)
  | previousPop (previous : Scene) (run : Bool)
  deriving DecidableEq, Repr

def switchToNextScene (next : Scene) : Work := .pushFront next

def searchAndSwitchToPreviousScene (scenesList : List Scene) : Work := .searchFront scenesList

/-- Every caller outside `run` drops the result. -/
def switchToPreviousScene : Work := .previousFront false

/-- What `on_event` does: a result is sent before the switch is made. -/
structure Handling where
  cliSendEvent : Option CliEvent
  work : Work
  consumed : Bool
  deriving DecidableEq, Repr

def Handling.switch (work : Work) : Handling := ⟨none, work, true⟩

def Handling.stay : Handling := ⟨none, .idle, true⟩

def Handling.ignore : Handling := ⟨none, .idle, false⟩

/-- A scene of the command line sends its result and goes back to the start. -/
def Handling.finish (result : CliEvent) : Handling :=
  ⟨some result, searchAndSwitchToPreviousScene [.sceneStart], true⟩

/-- The scenes that `cli_cmd_callback` switches to. -/
def Scene.isCli : Scene → Bool
  | .sceneCliRead | .sceneCliWrite | .sceneCliEmulate => true
  | _ => false

section OnEvent

variable (answers : Answers)

def sceneStartOnEvent : Event → Handling
  | .menuSelected 0 => .switch (switchToNextScene .sceneRead)
  | .menuSelected 1 => .switch (switchToNextScene .sceneSelectKey)
  | .menuSelected 2 => .switch (switchToNextScene .sceneAddType)
  | .menuSelected _ => .stay
  | _ => .ignore

def sceneReadOnEvent : Event → Handling
  | .tick =>
    match answers.read with
    | .empty => .stay
    | .ok => .switch (switchToNextScene .sceneReadSuccess)
    | .crcError => .switch (switchToNextScene .sceneReadCRCError)
    | .notAreKey => .switch (switchToNextScene .sceneReadNotKeyError)
  | _ => .ignore

/-- The three scenes that offer what to do with the key that was read. -/
def readDialogOnEvent : Event → Handling
  | .dialogResult .right => .switch (switchToNextScene .sceneReadedKeyMenu)
  | .dialogResult _ => .switch switchToPreviousScene
  | _ => .ignore

def sceneReadSuccessOnEvent : Event → Handling := readDialogOnEvent

def sceneReadCRCErrorOnEvent : Event → Handling := readDialogOnEvent

def sceneReadNotKeyErrorOnEvent : Event → Handling := readDialogOnEvent

def sceneReadedKeyMenuOnEvent : Event → Handling
  | .menuSelected 0 => .switch (switchToNextScene .sceneWrite)
  | .menuSelected 1 => .switch (switchToNextScene .sceneEmulate)
  | .menuSelected 2 => .switch (switchToNextScene .sceneSaveName)
  | .menuSelected 3 => .switch (searchAndSwitchToPreviousScene [.sceneRead])
  | .menuSelected _ => .stay
  | .back => .switch (searchAndSwitchToPreviousScene [.sceneStart])
  | _ => .ignore

def sceneWriteOnEvent : Event → Handling
  | .tick =>
    match answers.write with
    | .ok | .sameKey => .switch (switchToNextScene .sceneWriteSuccess)
    | .noDetect | .cannotWrite => .stay
  | _ => .ignore

def sceneWriteSuccessOnEvent : Event → Handling
  | .back => .switch (searchAndSwitchToPreviousScene [.sceneReadedKeyMenu, .sceneStart])
  | _ => .ignore

def sceneEmulateOnEvent : Event → Handling
  | .tick => .stay
  | _ => .ignore

def sceneSavedKeyMenuOnEvent : Event → Handling
  | .menuSelected 0 => .switch (switchToNextScene .sceneEmulate)
  | .menuSelected 1 => .switch (switchToNextScene .sceneWrite)
  | .menuSelected 2 => .switch (switchToNextScene .sceneAddValue)
  | .menuSelected 3 => .switch (switchToNextScene .sceneDeleteConfirm)
  | .menuSelected 4 => .switch (switchToNextScene .sceneInfo)
  | .menuSelected _ => .stay
  | _ => .ignore

def sceneDeleteConfirmOnEvent : Event → Handling
  | .dialogResult .right =>
    if answers.deleteKey then .switch (switchToNextScene .sceneDeleteSuccess) else .stay
  | .dialogResult _ => .switch switchToPreviousScene
  | _ => .ignore

def sceneDeleteSuccessOnEvent : Event → Handling
  | .back => .switch (searchAndSwitchToPreviousScene [.sceneSelectKey])
  | _ => .ignore

def saveScenesList : List Scene := [.sceneReadedKeyMenu, .sceneSavedKeyMenu, .sceneAddType]

def sceneSaveNameOnEvent : Event → Handling
  | .textEditResult =>
    if answers.saveKey then .switch (switchToNextScene .sceneSaveSuccess)
    else .switch (searchAndSwitchToPreviousScene saveScenesList)
  | _ => .ignore

def sceneSaveSuccessOnEvent : Event → Handling
  | .back => .switch (searchAndSwitchToPreviousScene saveScenesList)
  | _ => .ignore

def sceneInfoOnEvent : Event → Handling
  | .dialogResult _ => .switch switchToPreviousScene
  | _ => .ignore

def sceneSelectKeyOnEvent : Event → Handling := fun _ => .ignore

def sceneAddTypeOnEvent : Event → Handling
  | .menuSelected _ => .switch (switchToNextScene .sceneAddValue)
  | _ => .ignore

def sceneAddValueOnEvent : Event → Handling
  | .byteEditResult => .switch (switchToNextScene .sceneSaveName)
  | _ => .ignore

/-- The common part of the scenes of the command line, with `timeout` before its decrement. -/
def cliOnEvent (timeout : ℕ) (poll : Handling) : Event → Handling
  | .tick => if timeout = 0 then .finish .cliTimeout else poll
  | .back => ⟨some .cliInterrupt, .idle, false⟩
  | _ => .ignore

def sceneCliReadOnEvent (timeout : ℕ) : Event → Handling :=
  cliOnEvent timeout <|
    match answers.read with
    | .empty => .stay
    | .ok => .finish .cliReadSuccess
    | .crcError => .finish .cliReadCRCError
    | .notAreKey => .finish .cliReadNotKeyError

def sceneCliWriteOnEvent (timeout : ℕ) : Event → Handling :=
  cliOnEvent timeout <|
    match answers.write with
    | .ok | .sameKey => .finish .cliWriteSuccess
    | .noDetect => .stay
    | .cannotWrite => .finish .cliWriteFail

def sceneCliEmulateOnEvent (timeout : ℕ) : Event → Handling :=
  cliOnEvent timeout .stay

/-- `scenes[scene]->on_event`; there is no scene object for `SceneExit`. -/
def onEvent (timeout : ℕ) : Scene → Event → Handling
  | .sceneExit => fun _ => .ignore
  | .sceneStart => sceneStartOnEvent
  | .sceneRead => sceneReadOnEvent answers
  | .sceneCliRead => sceneCliReadOnEvent answers timeout
  | .sceneReadNotKeyError => sceneReadNotKeyErrorOnEvent
  | .sceneReadCRCError => sceneReadCRCErrorOnEvent
  | .sceneReadSuccess => sceneReadSuccessOnEvent
  | .sceneReadedKeyMenu => sceneReadedKeyMenuOnEvent
  | .sceneWrite => sceneWriteOnEvent answers
  | .sceneCliWrite => sceneCliWriteOnEvent answers timeout
  | .sceneWriteSuccess => sceneWriteSuccessOnEvent
  | .sceneEmulate => sceneEmulateOnEvent
  | .sceneCliEmulate => sceneCliEmulateOnEvent timeout
  | .sceneSavedKeyMenu => sceneSavedKeyMenuOnEvent
  | .sceneDeleteConfirm => sceneDeleteConfirmOnEvent answers
  | .sceneDeleteSuccess => sceneDeleteSuccessOnEvent
  | .sceneSaveName => sceneSaveNameOnEvent answers
  | .sceneSaveSuccess => sceneSaveSuccessOnEvent
  | .sceneInfo => sceneInfoOnEvent
  | .sceneSelectKey => sceneSelectKeyOnEvent
  | .sceneAddType => sceneAddTypeOnEvent
  | .sceneAddValue => sceneAddValueOnEvent

end OnEvent

/-- The decrement `timeout--` of a `uint16_t`. -/
def timeoutAfter (timeout : ℕ) : ℕ := (timeout + (2 ^ 16 - 1)) % 2 ^ 16

/-- What `run` has to do after an event: Back goes to the previous scene unless consumed. -/
def Handling.after (handling : Handling) (event : Event) : Work :=
  if handling.consumed = false ∧ event = .back then .previousFront true else handling.work

inductive Call where
  | onEnter (scene : Scene)
  | onExit (scene : Scene)
  deriving DecidableEq, Repr

/-- The members that a switch reads and writes; `calls` has the last call first. -/
structure Stage where
  currentScene : Scene
  previousScenesList : List Scene
  timeout : Scene → ℕ
  calls : List Call

def Stage.init : Stage where
  currentScene := .sceneStart
  previousScenesList := [.sceneExit]
  timeout _ := 0
  calls := []

/-- The rest of `on_enter` that is seen by the other members. -/
def onEnterWork (scene : Scene) : Work :=
  if scene.isCli then .setTimeout scene
  else if scene = .sceneSelectKey then .loadKey
  else .idle

/-- One access of a switch; `loaded` is what `load_key` returns. An empty list has no front. -/
def Work.step (s : Stage) (loaded : Bool) : Work → Option (Stage × Work)
  | .idle | .exit => none
  | .pushFront next => some
    ({ s with previousScenesList := s.currentScene :: s.previousScenesList },
      if next ≠ .sceneExit then .onExit next else .idle)
  | .onExit next => some ({ s with calls := .onExit s.currentScene :: s.calls }, .setCurrent next)
  | .setCurrent next => some ({ s with currentScene := next }, .onEnter)
  | .onEnter => some
    ({ s with calls := .onEnter s.currentScene :: s.calls }, onEnterWork s.currentScene)
  | .setTimeout scene => some ({ s with timeout := Function.update s.timeout scene 50 }, .idle)
  | .loadKey => some
    (s, if loaded then switchToNextScene .sceneSavedKeyMenu else switchToPreviousScene)
  | .searchFront scenesList => s.previousScenesList.head?.map fun previous =>
    (s, .searchPop scenesList previous)
  | .searchPop scenesList previous =>
    match s.previousScenesList with
    | [] => none
    | _ :: previousScenesList => some
      ({ s with previousScenesList := previousScenesList },
        if scenesList.any fun element => previous = element ∨ previous = .sceneStart then
          .onExit previous
        else .searchFront scenesList)
  | .previousFront run => s.previousScenesList.head?.map fun previous =>
    (s, .previousPop previous run)
  | .previousPop previous run =>
    match s.previousScenesList with
    | [] => none
    | _ :: previousScenesList => some
      ({ s with previousScenesList := previousScenesList },
        if previous = .sceneExit then (if run then .exit else .idle) else .onExit previous)

/-- The thread is before a `front` or `pop_front` of the list. -/
def Work.Pops : Work → Prop
  | .searchFront _ | .searchPop _ _ | .previousFront _ | .previousPop _ _ => True
  | _ => False

end FlipperZero.IButton.App
