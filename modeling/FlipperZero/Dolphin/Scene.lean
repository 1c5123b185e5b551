import FlipperZero.AppLoader.Basic
import FlipperZero.Gui.ViewDispatcher
import FlipperZero.Lib.Machine

/-! # The scenes of the dolphin

The task of the scenes moves the dolphin at every tick and hands the keys of the user to it. Left,
right and OK take the dolphin over; when nobody steers it any more it picks its own actions again.
The GUI draws between any two of these steps, and drawing uses the thing next to the dolphin and
writes texts into buffers of its own.
-/

namespace FlipperZero.Dolphin

open Lib Gui
open AppLoader (FlipperApplication)

namespace Actions

abbrev sleep : ℕ := 0

abbrev idle : ℕ := 1

abbrev walk : ℕ := 2

abbrev emote : ℕ := 3

abbrev interact : ℕ := 4

abbrev mindcontrol : ℕ := 5

end Actions

def defaultTimeout : List ℕ := [300, 100, 100, 50, 10, 50]

def actionsNum : ℕ := 5

def speedX : ℤ := 2

def dolphinCenter : ℤ := 48

def dolphinDefaultY : ℤ := 20

def worldWidth : ℕ := 2048

def sceneZoom : ℤ := 9

/-- How many texts `emotes_list` has. -/
def emotesNum : ℕ := 70

def dialoguesList : List String := ["Let's hack!\n\nbla bla bla\nbla bla.."]

def actionStr : List String := ["Sleep", "Idle", "Walk", "Emote", "Use", "MC"]

def flipperSceneApps : List FlipperApplication :=
  [⟨0, "Passport", 1024⟩, ⟨1, "Music player", 1024⟩, ⟨2, "Floopper Bloopper", 1024⟩]

def clamp (x upper lower : ℤ) : ℤ := min upper (max x lower)

structure Vec2 where
  x : ℤ
  y : ℤ

structure SceneState where
  player : Vec2
  /-- Only the x of the position and of the speed is used. -/
  playerGlobal : ℤ
  playerV : ℤ
  playerFlipped : Bool
  usePending : Bool
  debug : Bool
  playerAnim : ℤ
  sceneId : ℕ
  emoteId : ℕ
  previousEmote : ℕ
  dialogueId : ℕ
  actionTimeout : ℕ
  poi : ℕ
  action : ℕ
  nextAction : ℕ
  prevAction : ℕ
  zoomV : ℤ
  zoom : ℤ
  dialogProgress : ℕ
  /-- The applications that were started. -/
  started : List FlipperApplication

namespace SceneState

/-- What `random` returns at each place of a tick that calls it. -/
structure Rolls where
  chance : ℕ
  next : ℕ
  poi : ℕ
  sleepPoi : ℕ
  action : ℕ
  emote : ℕ

def alloc (random : ℕ) : SceneState where
  player := ⟨dolphinCenter, dolphinDefaultY⟩
  playerGlobal := (random % worldWidth / 4 : ℕ)
  playerV := 0
  playerFlipped := false
  usePending := false
  debug := false
  playerAnim := 0
  sceneId := 0
  emoteId := 0
  previousEmote := 0
  dialogueId := 0
  actionTimeout := 0
  poi := 0
  action := Actions.sleep
  nextAction := Actions.sleep
  prevAction := Actions.sleep
  zoomV := 0
  zoom := 0
  dialogProgress := 0
  started := []

section Control

def inputDebug (input : InputEvent) (s : SceneState) : SceneState :=
  if input.type = .short ∧ input.key = .up then { s with debug := !s.debug } else s

def inputTakeOver (input : InputEvent) (s : SceneState) : SceneState :=
  if input.type = .press ∧ (input.key = .left ∨ input.key = .right ∨ input.key = .ok) then
    { s with action := Actions.mindcontrol }
  else s

def inputZoom (input : InputEvent) (s : SceneState) : SceneState :=
  if input.type = .press then
    if input.key = .down then { s with zoomV := speedX } else s
  else if input.type = .release then
    if input.key = .down then { s with zoomV := -speedX * 2, dialogProgress := 0 } else s
  else s

def inputMindcontrol (input : InputEvent) (s : SceneState) : SceneState :=
  if s.action = Actions.mindcontrol then
    if input.type = .press then
      if input.key = .right then { s with playerFlipped := false, playerV := speedX }
      else if input.key = .left then { s with playerFlipped := true, playerV := -speedX }
      else s
    else if input.type = .release then
      if input.key = .right ∨ input.key = .left then { s with playerV := 0 } else s
    else if input.type = .short then
      if input.key = .ok then
        { s with
          prevAction := Actions.mindcontrol
          action := Actions.interact
          usePending := true
          actionTimeout := 0 }
      else s
    else s
  else s

def handleUserInput (input : InputEvent) (s : SceneState) : SceneState :=
  inputMindcontrol input (inputZoom input (inputTakeOver input (inputDebug input s)))

end Control

section Tick

def coordinates (s : SceneState) : SceneState :=
  let playerGlobal := clamp (s.playerGlobal + s.playerV) worldWidth 0
  { s with
    playerGlobal
    zoom := clamp (s.zoom + s.zoomV) sceneZoom 0
    player :=
      ⟨clamp (s.player.x - s.zoomV * (speedX * 2)) dolphinCenter 0,
        clamp (s.player.y - (s.zoomV * speedX).tdiv 2) dolphinDefaultY 3⟩
    playerAnim := (playerGlobal.tdiv 10).tmod 2 }

/-- The loop is left after one pass, and not entered when the old value is 999. -/
def rollNew (prev max random : ℕ) : ℕ := if 999 = prev then 999 else random % max

/-- `none` stands for an access beyond a table, here and below. -/
def proceedAction (random : ℕ) (s : SceneState) : Option SceneState :=
  let prevAction := s.action
  let action :=
    if prevAction ≠ s.nextAction then s.nextAction else rollNew s.nextAction actionsNum random % 256
  defaultTimeout[action]?.map fun actionTimeout => { s with prevAction, action, actionTimeout }

def goToPoi (s : SceneState) : SceneState :=
  if s.playerGlobal < s.poi then { s with playerFlipped := false, playerV := speedX / 2 }
  else if s.playerGlobal > s.poi then { s with playerFlipped := true, playerV := -speedX / 2 }
  else s

def rollPoi (random : ℕ) (s : SceneState) : SceneState :=
  { s with poi := rollNew (s.playerGlobal % 65536).toNat (worldWidth / 4) random % 256 }

def holdTimeout (s : SceneState) : Option SceneState :=
  if s.action = Actions.mindcontrol ∧ s.playerV ≠ 0 then
    defaultTimeout[s.action]?.map fun actionTimeout => { s with actionTimeout }
  else some s

def countDown (r : Rolls) (s : SceneState) : SceneState :=
  if 0 < s.actionTimeout then { s with actionTimeout := s.actionTimeout - 1 }
  else if 500 < r.chance % 1000 then
    rollPoi r.poi { s with nextAction := rollNew s.prevAction actionsNum r.next % 256 }
  else s

def actionHandler (r : Rolls) (s : SceneState) : Option SceneState := s.holdTimeout.map (countDown r)

def timeUp (r : Rolls) (s : SceneState) : Option SceneState :=
  if s.actionTimeout = 0 then s.proceedAction r.action else some s

def updateInteract (r : Rolls) (s : SceneState) : Option SceneState :=
  if s.actionTimeout = 0 then
    if s.prevAction = Actions.mindcontrol then some { s with action := Actions.mindcontrol }
    else s.proceedAction r.action
  else some s

def updateWalk (r : Rolls) (s : SceneState) : Option SceneState :=
  if s.playerGlobal = s.poi then { s with playerV := 0 }.proceedAction r.action
  else some s.goToPoi

/-- Goes on with the case of `INTERACT` when the time is not up. -/
def updateEmote (r : Rolls) (s : SceneState) : Option SceneState :=
  let s := { s with playerFlipped := false }
  if s.actionTimeout = 0 then
    (s.proceedAction r.action).map fun s =>
      { s with emoteId := rollNew s.previousEmote emotesNum r.emote % 256 }
  else s.updateInteract r

/-- Goes on with the default case, unless the dolphin is at its place. -/
def updateSleep (r : Rolls) (s : SceneState) : Option SceneState :=
  if s.poi ≠ 154 then { s with poi := 154 }.timeUp r
  else if s.playerGlobal ≠ s.poi then s.goToPoi.timeUp r
  else
    let s := { s with playerV := 0 }
    if s.actionTimeout = 0 then (s.rollPoi r.sleepPoi).proceedAction r.action else some s

def updateAction (r : Rolls) (s : SceneState) : Option SceneState :=
  if s.action = Actions.walk then s.updateWalk r
  else if s.action = Actions.emote then s.updateEmote r
  else if s.action = Actions.interact then s.updateInteract r
  else if s.action = Actions.sleep then s.updateSleep r
  else s.timeUp r

def updateState (r : Rolls) (s : SceneState) : Option SceneState :=
  (s.actionHandler r).bind (updateAction r)

def tickHandler (r : Rolls) (s : SceneState) : Option SceneState := s.coordinates.updateState r

end Tick

section Items

structure Item where
  layer : ℕ
  timeout : ℕ
  x : ℤ
  actionName : String
  callback : SceneState → Option SceneState

def startApp (index : ℕ) (s : SceneState) : Option SceneState :=
  flipperSceneApps[index]?.map fun app => { s with started := s.started ++ [app] }

def smashTv (s : SceneState) : Option SceneState := some { s with playerFlipped := true }

def sofaSit (s : SceneState) : Option SceneState := some { s with playerGlobal := 154 }

def inspectPainting (s : SceneState) : Option SceneState :=
  if s.usePending then s.startApp 0 else some s

def pcCallback (s : SceneState) : Option SceneState :=
  if s.usePending then s.startApp 1 else some s

def tv : Item := ⟨7, 10, 160, "Use", smashTv⟩

def painting : Item := ⟨3, 20, 160, "Inspect", inspectPainting⟩

def sofa : Item := ⟨4, 100, 250, "Sit", sofaSit⟩

def pc : Item := ⟨4, 100, 400, "Use", pcCallback⟩

def home : List Item := [tv, sofa, painting, pc]

def scenes : List (List Item) := [home]

def getScene (s : SceneState) : Option (List Item) := scenes[s.sceneId]?

def rel (s : SceneState) (item : Item) : ℤ :=
  dolphinCenter + 32 / 2 - ((item.x - s.playerGlobal) * item.layer).tdiv 7 - item.layer

def isNearby (s : SceneState) : Option (Option Item) :=
  s.getScene.map fun current => current.find? fun item => (s.rel item).natAbs ≤ 32 / 2

def activateItemCallback (s : SceneState) : Option SceneState :=
  s.isNearby.bind fun near =>
    match near with
    | some near =>
      if s.usePending then
        (near.callback { s with actionTimeout := near.timeout }).map fun s =>
          { s with usePending := false }
      else near.callback s
    | none => some s

end Items

section Draw

/-- What drawing does that the language leaves undefined in some cases: a store in a buffer of some
size, and a remainder. -/
inductive Access where
  | store (size index : ℕ)
  | remainder (divisor : ℕ)
  deriving DecidableEq, Repr

def Access.Defined : Access → Prop
  | .store size index => index < size
  | .remainder divisor => divisor ≠ 0

instance : DecidablePred Access.Defined
  | .store size index => inferInstanceAs (Decidable (index < size))
  | .remainder divisor => inferInstanceAs (Decidable (divisor ≠ 0))

/-- A text of dots that grows by one character at a time. -/
def drawDots (length : ℕ) (visible : Prop) [Decidable visible] (s : SceneState) :
    SceneState × List Access :=
  if visible then
    if s.dialogProgress < length then
      let dialogProgress := if s.actionTimeout % 10 = 0 then s.dialogProgress + 1 else s.dialogProgress
      ({ s with dialogProgress }, [.store (length + 1) (dialogProgress + 1)])
    else (s, [])
  else ({ s with dialogProgress := 0 }, [])

def drawSleepEmote (s : SceneState) : SceneState × List Access :=
  s.drawDots "zZzZ..".length (s.playerGlobal = 154 ∧ s.actionTimeout % 100 < 50)

def drawIdleEmote (s : SceneState) : SceneState × List Access :=
  s.drawDots "...".length (s.actionTimeout % 100 < 50)

def drawDialog (s : SceneState) : Option (SceneState × List Access) :=
  dialoguesList[s.dialogueId]?.map fun dialogue =>
    if s.dialogProgress ≤ dialogue.length then
      let dialogProgress :=
        (if s.actionTimeout % 2 = 0 then s.dialogProgress + 1 else s.dialogProgress) % 256
      ({ s with dialogProgress }, [.store 64 dialogue.length, .store 64 dialogProgress,
        .store 64 (dialogProgress - 1)])
    else (s, [.store 64 dialogue.length, .store 64 (min dialogue.length 63)])

def glitch (timeout : ℕ) (name : String) : List Access :=
  (List.range timeout).flatMap fun g =>
    [.remainder g, .remainder name.length, .store 32 (g * 23 % name.length)]

def drawHint (glitching : Bool) (s : SceneState) : Option (List Access) :=
  s.isNearby.map fun near =>
    match near with
    | some near =>
      .store 32 near.actionName.length :: if glitching then glitch s.actionTimeout near.actionName else []
    | none => []

def debugText (s : SceneState) : Option String :=
  actionStr[s.action]?.map fun action =>
    "x:" ++ toString s.playerGlobal ++ ">" ++ toString s.poi ++ " " ++ toString s.actionTimeout ++ " " ++
      action

def drawDebug (s : SceneState) : Option (List Access) :=
  if s.debug then s.debugText.map fun text => [.store 64 text.length] else some []

def drawAction (s : SceneState) : Option (SceneState × List Access) :=
  if s.zoom = sceneZoom then s.drawDialog
  else if s.action = Actions.emote then if s.emoteId < emotesNum then some (s, []) else none
  else if s.action = Actions.mindcontrol then
    (s.drawHint (45 < s.actionTimeout)).map fun accesses => (s, accesses)
  else if s.action = Actions.interact then s.activateItemCallback.map fun s => (s, [])
  else if s.action = Actions.sleep then some s.drawSleepEmote
  else if s.action = Actions.idle then some s.drawIdleEmote
  else some (s, [])

/-- The drawing of the items and of the dolphin changes nothing that is read again. -/
def renderState (s : SceneState) : Option (SceneState × List Access) :=
  s.drawDebug.bind fun accesses =>
    s.drawAction.map fun (s, accesses') => (s, accesses ++ accesses')

end Draw

end SceneState

/-- The task and what it has been told to use. -/
structure SceneApp where
  state : SceneState
  exited : Bool
  /-- How often OK was pressed for a short time. -/
  uses : ℕ

namespace SceneApp

inductive Label where
  | key (input : InputEvent)
  | tick (rolls : SceneState.Rolls)
  /-- The GUI draws, also after the task has left. -/
  | draw

def key (input : InputEvent) (a : SceneApp) : SceneApp :=
  if input.key = .back ∧ input.type = .short then { a with exited := true }
  else
    { a with
      state := a.state.handleUserInput input
      uses := if input = ⟨.ok, .short⟩ then a.uses + 1 else a.uses }

def next (a : SceneApp) : Label → Option SceneApp
  | .key input => if a.exited then none else some (a.key input)
  | .tick r =>
    if a.exited then none else (a.state.tickHandler r).map fun state => { a with state }
  | .draw => a.state.renderState.map fun (state, _) => { a with state }

def machine (random : ℕ) : Machine SceneApp Label where
  init := ⟨.alloc random, false, 0⟩
  next := next

end SceneApp

end FlipperZero.Dolphin
