import FlipperZero.IButton.TmCommand
import Mathlib.Data.List.Nodup
import Mathlib.Order.Nat

/-! # Commands and scenes that do not interfere

A command that switches while the application is at rest takes the current scene from
it, and only the scene of the command can give it back. The phases say who may touch the
stack of scenes; the books say which results were sent and taken.
-/

namespace FlipperZero.IButton.App

open Lib

variable {s s' : State} {stage : Stage} {w : Work} {app : AppPc} {scene : Scene} {run : ℕ}

/-- The application has the scenes for itself. -/
inductive Alone (stage : Stage) : AppPc → Prop
  | receiveEvent (hrests : Rests stage) (hplain : stage.currentScene.isCli = false) :
      Alone stage .receiveEvent
  | onEvent (event : Event) (hrests : Rests stage) (hplain : stage.currentScene.isCli = false) :
      Alone stage (.onEvent event)
  | handle (run : ℕ) (event : Event) (hrests : Rests stage)
      (hplain : stage.currentScene.isCli = false) :
      Alone stage (.handle stage.currentScene run event)
  | poll (run timeout : ℕ) (event : Event) (hrests : Rests stage)
      (hplain : stage.currentScene.isCli = false) :
      Alone stage (.poll stage.currentScene run event timeout)
  | work {w : Work} (hfits : Fits none stage w) : Alone stage (.work w)
  | leave (hentered : entered stage.calls = some (some stage.currentScene)) : Alone stage .leave
  | delete (hentered : entered stage.calls = some none) : Alone stage .delete
  | deleted (hentered : entered stage.calls = some none) : Alone stage .deleted

/-- The application handles events while a command has the scenes, and no time limit but the one of
the command is counted down. -/
inductive Beside (stage : Stage) (scene : Scene) : AppPc → Prop
  | receiveEvent : Beside stage scene .receiveEvent
  | onEvent (event : Event) : Beside stage scene (.onEvent event)
  | handle {scene' : Scene} (run : ℕ) (event : Event)
      (hscene : scene'.isCli = true → scene' = scene) :
      Beside stage scene (.handle scene' run event)
  | countDown (run : ℕ) : Beside stage scene (.countDown scene run (stage.timeout scene))
  | poll (scene' : Scene) (run timeout : ℕ) (event : Event) :
      Beside stage scene (.poll scene' run event timeout)

/-- The command line has no scene: no command was begun, or its result is there. -/
inductive Unbound : CliPc → Option (CliEvent × ℕ) → Prop
  | idle : Unbound .idle none
  | line {scene : Scene} (run : ℕ) (hscene : scene.isCli = true) :
      Unbound (.switch scene run (.pushFront scene)) none
  | answered (scene : Scene) (run : ℕ) (result : CliEvent) :
      Unbound (.wait scene run) (some (result, run))

/-- A command has entered its scene in the last run, which has sent nothing. -/
structure Entered (s : State) (scene : Scene) (run : ℕ) : Prop where
  isCli : scene.isCli = true
  current : s.stage.currentScene = scene
  rests : Rests s.stage
  last : run = enters s.stage.calls
  fresh : ∀ r ∈ s.sent, r < run
  queue : s.cliEventResult = none

/-- The time limit of a command runs down with its ticks; after the last one the scene is to
decide. -/
def Timed (s : State) (scene : Scene) : Prop :=
  s.stage.timeout scene + s.ticks = 50 ∨
    s.ticks = 51 ∧ ∃ run, s.app = .poll scene run .tick 0

inductive Phase (s : State) : Prop
  | free (happ : Alone s.stage s.app) (hcli : Unbound s.cli s.cliEventResult)
      (hdeleted : s.app = .deleted → s.cli = .idle)
  | switching (scene : Scene) (run : ℕ) (w : Work) (hbeside : Beside s.stage scene s.app)
      (hcli : s.cli = .switch scene run w) (hscene : scene.isCli = true)
      (hfits : Fits (some scene) s.stage w) (hpush : w ≠ .pushFront scene)
      (htimeout : ∀ scene', w ≠ .setTimeout scene')
      (hcurrent : s.stage.currentScene.isCli = true → s.stage.currentScene = scene)
      (hqueue : s.cliEventResult = none)
  | timing (scene : Scene) (run : ℕ) (hbeside : Beside s.stage scene s.app)
      (hcli : s.cli = .switch scene run (.setTimeout scene)) (hentered : Entered s scene run)
  | awaiting (scene : Scene) (run : ℕ) (hbeside : Beside s.stage scene s.app)
      (hcli : s.cli = .wait scene run) (hentered : Entered s scene run) (hticks : Timed s scene)
  | sending (scene : Scene) (run : ℕ) (result : CliEvent) (w : Work)
      (happ : s.app = .cliSendEvent result run w) (hcli : s.cli = .wait scene run)
      (hentered : Entered s scene run) (hfits : Fits none s.stage w) (hticks : s.ticks ≤ 51)

theorem alone_of (h : Fits none stage w) : Alone stage (.of w) := by
  cases w with
  | idle => exact .receiveEvent h.1 h.2
  | exit => exact .leave h.2
  | _ => exact .work h

theorem Alone.of_atRest (h : Alone stage app) (hrest : app.AtRest) :
    Rests stage ∧ stage.currentScene.isCli = false := by
  cases h with
  | receiveEvent hrests hplain => exact ⟨hrests, hplain⟩
  | onEvent event hrests hplain => exact ⟨hrests, hplain⟩
  | handle run event hrests hplain => exact ⟨hrests, hplain⟩
  | poll run timeout event hrests hplain => exact ⟨hrests, hplain⟩
  | _ => cases hrest

theorem Alone.beside (h : Alone stage app) (hrest : app.AtRest) : Beside stage scene app := by
  cases h with
  | receiveEvent => exact .receiveEvent
  | onEvent event => exact .onEvent event
  | handle run event hrests hplain =>
    refine .handle run event fun hcli => ?_
    rw [hplain] at hcli
    cases hcli
  | poll run timeout event => exact .poll _ run timeout event
  | _ => cases hrest

theorem Beside.of_atRest {stage' : Stage} (h : Beside stage scene app) (hrest : app.AtRest) :
    Beside stage' scene app := by
  cases h with
  | receiveEvent => exact .receiveEvent
  | onEvent event => exact .onEvent event
  | handle run event hscene => exact .handle run event hscene
  | countDown run => cases hrest
  | poll scene' run timeout event => exact .poll scene' run timeout event

theorem Entered.setApp (h : Entered s scene run) : Entered { s with app := app } scene run := by
  obtain ⟨hscene, hcurrent, hrests, hlast, hfresh, hqueue⟩ := h
  exact ⟨hscene, hcurrent, hrests, hlast, hfresh, hqueue⟩

theorem Timed.running (h : Timed s scene) (hne : ∀ run, s.app ≠ .poll scene run .tick 0) :
    s.stage.timeout scene + s.ticks = 50 :=
  h.resolve_right fun ⟨_, run, happ⟩ => hne run happ

theorem isCli_scene (command : TmCommand) : command.scene.isCli = true := by
  cases command <;> rfl

theorem phase_init : Phase State.init :=
  .free (.work ⟨rfl, .start, rfl⟩) .idle fun h => by cases h

theorem phase_line {command : TmCommand} (h : Phase s) (hs : next s (.line command) = some s') :
    Phase s' := by
  cases next_cases hs with
  | line hidle happ =>
    cases h with
    | free halone hcli hdeleted =>
      rw [hidle] at hcli
      generalize hq : s.cliEventResult = q at hcli
      cases hcli
      refine .free halone ?_ fun h => absurd h happ
      exact hq ▸ .line 0 (isCli_scene command)
    | _ => simp_all

theorem phase_reply (h : Phase s) (hs : next s .reply = some s') : Phase s' := by
  cases next_cases hs with
  | @reply scene asked run result hwait hqueue =>
    cases h with
    | free halone hcli hdeleted => exact .free halone .idle fun _ => rfl
    | awaiting scene' run' hrest hcli hentered => simp [hentered.queue] at hqueue
    | sending scene' run' result' w happ hcli hentered => simp [hentered.queue] at hqueue
    | _ => simp_all

theorem Phase.approach (h : Phase s) (halone : Alone s.stage s.app → Alone s.stage app)
    (hbeside : ∀ scene, (s.stage.currentScene.isCli = true → s.stage.currentScene = scene) →
      Beside s.stage scene s.app → Beside s.stage scene app)
    (hpoll : ∀ scene run event timeout, s.app ≠ .poll scene run event timeout)
    (hsend : ∀ result run w, s.app ≠ .cliSendEvent result run w) (hdeleted : app ≠ .deleted) :
    Phase { s with app := app } := by
  cases h with
  | free happ hcli => exact .free (halone happ) hcli fun h => absurd h hdeleted
  | switching scene run w hb hcli hscene hfits hpush htimeout hcurrent hqueue =>
    exact .switching scene run w (hbeside scene hcurrent hb) hcli hscene hfits hpush htimeout
      hcurrent hqueue
  | timing scene run hb hcli hentered =>
    exact .timing scene run (hbeside scene (fun _ => hentered.current) hb) hcli hentered.setApp
  | awaiting scene run hb hcli hentered hticks =>
    exact .awaiting scene run (hbeside scene (fun _ => hentered.current) hb) hcli hentered.setApp
      (.inl (hticks.running fun run => hpoll scene run .tick 0))
  | sending scene run result w happ => exact absurd happ (hsend result run w)

theorem phase_receiveEvent {event : Event} (h : Phase s)
    (hs : next s (.receiveEvent event) = some s') : Phase s' := by
  cases next_cases hs with
  | receiveEvent happ =>
    apply h.approach
    · intro halone
      obtain ⟨hrests, hplain⟩ := halone.of_atRest (by rw [happ]; trivial)
      exact .onEvent event hrests hplain
    · exact fun scene _ _ => .onEvent event
    all_goals simp [happ]

theorem phase_lookup (h : Phase s) (hs : next s .lookup = some s') : Phase s' := by
  cases next_cases hs with
  | @lookup event happ =>
    apply h.approach
    · intro halone
      obtain ⟨hrests, hplain⟩ := halone.of_atRest (by rw [happ]; trivial)
      exact .handle _ event hrests hplain
    · exact fun scene hcurrent _ => .handle _ event hcurrent
    all_goals simp [happ]

theorem phase_readTimeout {event : Event} (h : Phase s) (happ : s.app = .handle scene run event) :
    Phase (s.readTimeout scene run event) := by
  apply h.approach
  · intro halone
    rw [happ] at halone
    cases halone with
    | handle run event hrests hplain =>
      rw [if_neg (by simp [hplain])]
      exact .poll run _ event hrests hplain
  · intro scene' hcurrent hbeside
    rw [happ] at hbeside
    cases hbeside with
    | handle run event hscene =>
      split
      · next htick =>
        obtain rfl := hscene htick.1
        exact .countDown run
      · exact .poll scene run _ event
  · simp [happ]
  · simp [happ]
  · split <;> exact nofun

theorem phase_cliSendEvent (h : Phase s) (hs : next s .cliSendEvent = some s') : Phase s' := by
  cases next_cases hs with
  | @cliSendEvent result run w happ hqueue =>
    cases h with
    | free halone hcli hdeleted =>
      rw [happ] at halone
      cases halone
    | sending scene run' result' w' happ' hcli hentered hfits hticks =>
      rw [happ] at happ'
      obtain ⟨rfl, rfl, rfl⟩ := AppPc.cliSendEvent.inj happ'
      refine .free (alone_of hfits) ?_ ?_
      · rw [hcli]
        exact .answered scene run result
      · simp only
        cases w <;> nofun
    | switching _ _ _ hbeside | timing _ _ hbeside | awaiting _ _ hbeside =>
      rw [happ] at hbeside
      cases hbeside

theorem phase_work {loaded : Bool} (h : Phase s) (hs : next s (.work loaded) = some s') :
    Phase s' := by
  cases next_cases hs with
  | @work _ w w' stage happ hstep =>
    cases h with
    | free halone hcli hdeleted =>
      rw [happ] at halone
      cases halone with
      | work hfits =>
        refine .free (alone_of (fits_step hfits nofun hstep)) hcli ?_
        simp only
        cases w' <;> nofun
    | switching _ _ _ hbeside | timing _ _ hbeside | awaiting _ _ hbeside =>
      rw [happ] at hbeside
      cases hbeside
    | sending _ _ _ _ happ' => simp [happ] at happ'

theorem phase_leave (h : Phase s) (hs : next s .leave = some s') : Phase s' := by
  cases next_cases hs with
  | leave happ =>
    cases h with
    | free halone hcli hdeleted =>
      rw [happ] at halone
      cases halone with
      | leave hentered =>
        refine .free (.delete ?_) hcli nofun
        simp [entered, hentered]
    | switching _ _ _ hbeside | timing _ _ hbeside | awaiting _ _ hbeside =>
      rw [happ] at hbeside
      cases hbeside
    | sending _ _ _ _ happ' => simp [happ] at happ'

theorem phase_delete (h : Phase s) (hidle : s.cli = .idle) (hs : next s .delete = some s') :
    Phase s' := by
  cases next_cases hs with
  | delete happ =>
    cases h with
    | free halone hcli hdeleted =>
      rw [happ] at halone
      cases halone with
      | delete hentered => exact .free (.deleted hentered) hcli fun _ => hidle
    | _ => simp_all

theorem timeoutAfter_of_pos {n : ℕ} (hpos : n ≠ 0) (hle : n ≤ 50) : timeoutAfter n = n - 1 := by
  unfold timeoutAfter
  have hsplit : n + (2 ^ 16 - 1) = (n - 1) + 2 ^ 16 := by omega
  rw [hsplit, Nat.add_mod_right]
  exact Nat.mod_eq_of_lt (by omega)

theorem Entered.writeTimeout {scene' : Scene} {run' timeout : ℕ} (h : Entered s scene run) :
    Entered (s.writeTimeout scene' run' timeout) scene run := by
  obtain ⟨hscene, hcurrent, hrests, hlast, hfresh, hqueue⟩ := h
  exact ⟨hscene, hcurrent, rests_timeout.mpr hrests, hlast, hfresh, hqueue⟩

theorem Timed.writeTimeout (h : s.stage.timeout scene + s.ticks = 50) :
    Timed (s.writeTimeout scene run (s.stage.timeout scene)) scene := by
  by_cases hzero : s.stage.timeout scene = 0
  · refine .inr ⟨?_, run, by rw [hzero]; rfl⟩
    simp only [State.writeTimeout]
    omega
  · left
    simp only [State.writeTimeout, Function.update_self]
    rw [timeoutAfter_of_pos hzero (by omega)]
    omega

theorem phase_writeTimeout {timeout : ℕ} (h : Phase s)
    (happ : s.app = .countDown scene run timeout) : Phase (s.writeTimeout scene run timeout) := by
  cases h with
  | free halone =>
    rw [happ] at halone
    cases halone
  | switching scene' run' w hbeside hcli hscene hfits hpush htimeout hcurrent hqueue =>
    exact .switching scene' run' w (.poll ..) hcli hscene (fits_timeout.mpr hfits) hpush htimeout
      hcurrent hqueue
  | timing scene' run' hbeside hcli hentered =>
    exact .timing scene' run' (.poll ..) hcli hentered.writeTimeout
  | awaiting scene' run' hbeside hcli hentered hticks =>
    have hrunning := hticks.running (by simp [happ])
    rw [happ] at hbeside
    cases hbeside with
    | countDown =>
      exact .awaiting scene run' (.poll ..) hcli hentered.writeTimeout (.writeTimeout hrunning)
  | sending scene' run' result w happ' => simp [happ] at happ'

theorem phase_timeout (h : Phase s) (hs : next s .timeout = some s') : Phase s' := by
  cases next_cases hs with
  | readTimeout happ => exact phase_readTimeout h happ
  | writeTimeout happ => exact phase_writeTimeout h happ

theorem Unbound.of_switch {queue : Option (CliEvent × ℕ)}
    (h : Unbound (.switch scene run w) queue) :
    w = .pushFront scene ∧ scene.isCli = true ∧ queue = none := by
  cases h with
  | line run hscene => exact ⟨rfl, hscene, rfl⟩

/-- A switch of the command line goes on to its scene, up to the time limit of the scene. -/
inductive Onward (scene : Scene) (stage stage' : Stage) : Work → Work → Prop
  | onExit (hcurrent : stage'.currentScene = stage.currentScene) :
      Onward scene stage stage' (.pushFront scene) (.onExit scene)
  | setCurrent (hcurrent : stage'.currentScene = stage.currentScene) :
      Onward scene stage stage' (.onExit scene) (.setCurrent scene)
  | onEnter (hcurrent : stage'.currentScene = scene) :
      Onward scene stage stage' (.setCurrent scene) .onEnter
  | setTimeout (hcurrent : stage'.currentScene = scene)
      (hcalls : enters stage'.calls = enters stage.calls + 1) :
      Onward scene stage stage' .onEnter (.setTimeout scene)

theorem onward_step {stage' : Stage} {w' : Work} {loaded : Bool} (hscene : scene.isCli = true)
    (hfits : Fits (some scene) stage w) (htimeout : ∀ scene', w ≠ .setTimeout scene')
    (hstep : w.step stage loaded = some (stage', w')) : Onward scene stage stage' w w' := by
  cases w with
  | idle => cases hstep
  | exit => cases hstep
  | pushFront next =>
    obtain ⟨-, -, rfl, -, hexit⟩ := hfits
    obtain ⟨rfl, rfl⟩ : _ ∧ _ := by simpa [Work.step] using hstep
    rw [if_neg hexit]
    exact .onExit rfl
  | onExit next =>
    obtain ⟨-, -, rfl⟩ := hfits
    obtain ⟨rfl, rfl⟩ : _ ∧ _ := by simpa [Work.step] using hstep
    exact .setCurrent rfl
  | setCurrent next =>
    obtain ⟨-, -, rfl⟩ := hfits
    obtain ⟨rfl, rfl⟩ : _ ∧ _ := by simpa [Work.step] using hstep
    exact .onEnter rfl
  | onEnter =>
    obtain ⟨-, -, hcurrent⟩ := hfits
    obtain ⟨rfl, rfl⟩ : _ ∧ _ := by simpa [Work.step] using hstep
    obtain rfl : stage.currentScene = scene := hcurrent
    have hwork : onEnterWork stage.currentScene = .setTimeout stage.currentScene := if_pos hscene
    rw [hwork]
    exact .setTimeout rfl rfl
  | setTimeout scene' => exact absurd rfl (htimeout scene')
  | loadKey => cases hfits.1
  | searchFront scenesList => cases hfits.1
  | searchPop scenesList previous => cases hfits.1
  | previousFront run => cases hfits.1
  | previousPop previous run => cases hfits.1

theorem phase_onward {stage : Stage} {w' : Work} {loaded : Bool} (hrest : s.app.AtRest)
    (hbeside : Beside s.stage scene s.app) (hcli : s.cli = .switch scene run w)
    (hscene : scene.isCli = true)
    (hcurrent : s.stage.currentScene.isCli = true → s.stage.currentScene = scene)
    (hqueue : s.cliEventResult = none) (hbounded : ∀ r ∈ s.sent, r ≤ enters s.stage.calls)
    (hfits : Fits (some scene) s.stage w) (htimeout : ∀ scene', w ≠ .setTimeout scene')
    (hstep : w.step s.stage loaded = some (stage, w')) :
    Phase { s with
      stage := stage
      cli := .of scene (if w = .onEnter then enters stage.calls else run) w'
      ticks := 0 } := by
  have hfits' := fits_step hfits (by rintro _ ⟨⟩; exact hscene) hstep
  have hbeside' : Beside stage scene s.app := hbeside.of_atRest hrest
  cases onward_step hscene hfits htimeout hstep with
  | onExit hsame =>
    exact .switching scene run _ hbeside' rfl hscene hfits' nofun nofun (hsame ▸ hcurrent) hqueue
  | setCurrent hsame =>
    exact .switching scene run _ hbeside' rfl hscene hfits' nofun nofun (hsame ▸ hcurrent) hqueue
  | onEnter hscene' =>
    exact .switching scene run _ hbeside' rfl hscene hfits' nofun nofun (fun _ => hscene') hqueue
  | setTimeout hscene' hcalls =>
    refine .timing scene (enters stage.calls) hbeside' rfl
      ⟨hscene, hscene', hfits'.1, rfl, ?_, hqueue⟩
    intro r hr
    have := hbounded r hr
    omega

theorem phase_switch {loaded : Bool} (h : Phase s) (hrest : s.app.AtRest)
    (hbounded : ∀ r ∈ s.sent, r ≤ enters s.stage.calls)
    (hs : next s (.switch loaded) = some s') : Phase s' := by
  cases next_cases hs with
  | @switch _ scene run w w' stage hcli hstep =>
    cases h with
    | free halone hunbound hdeleted =>
      obtain ⟨hrests, hplain⟩ := halone.of_atRest hrest
      rw [hcli] at hunbound
      obtain ⟨rfl, hscene, hqueue⟩ := hunbound.of_switch
      refine phase_onward hrest (halone.beside hrest) hcli hscene (fun hcli' => ?_) hqueue hbounded
        ⟨hrests, hplain, rfl, ne_start_of_isCli hscene, ne_exit_of_isCli hscene⟩ nofun hstep
      rw [hplain] at hcli'
      cases hcli'
    | switching scene' run' w' hbeside hcli' hscene hfits hpush htimeout hcurrent hqueue =>
      rw [hcli] at hcli'
      obtain ⟨rfl, rfl, rfl⟩ := CliPc.switch.inj hcli'
      exact phase_onward hrest hbeside hcli hscene hcurrent hqueue hbounded hfits htimeout hstep
    | timing scene' run' hbeside hcli' hentered =>
      rw [hcli] at hcli'
      obtain ⟨rfl, rfl, rfl⟩ := CliPc.switch.inj hcli'
      obtain ⟨hscene, hcurrent, hrests, hlast, hfresh, hqueue⟩ := hentered
      obtain ⟨rfl, rfl⟩ : _ ∧ _ := by simpa [Work.step] using hstep
      refine .awaiting scene run (hbeside.of_atRest hrest) rfl
        ⟨hscene, hcurrent, rests_timeout.mpr hrests, hlast, hfresh, hqueue⟩ (.inl ?_)
      simp
    | awaiting scene' run' hbeside hcli' => simp [hcli] at hcli'
    | sending scene' run' result w' happ' hcli' => simp [hcli] at hcli'

section Decide

variable {answers : Answers} {event : Event} {timeout : ℕ}

theorem decided_plain (hplain : scene.isCli = false) :
    ∃ w, Asks scene w ∧ decided answers scene run event timeout = .of w := by
  obtain ⟨hsilent, hasks⟩ := @plain_onEvent _ answers timeout event hplain
  refine ⟨_, @asks_after _ event _ hasks, ?_⟩
  simp only [decided, hsilent, AppPc.handled]

/-- What a scene of the command line decides: to wait, or the one result. -/
inductive Decided (run : ℕ) (event : Event) (timeout : ℕ) : AppPc → Prop
  | stay (h : event = .tick → timeout ≠ 0) : Decided run event timeout .receiveEvent
  | finish (result : CliEvent) :
      Decided run event timeout (.cliSendEvent result run (.searchFront [.sceneStart]))
  | interrupt : Decided run event timeout (.cliSendEvent .cliInterrupt run (.previousFront true))

theorem decided_cli (hscene : scene.isCli = true) :
    Decided run event timeout (decided answers scene run event timeout) := by
  have hpolled := @polled_onEvent _ answers timeout event hscene
  unfold decided
  generalize onEvent answers timeout scene event = handling at hpolled
  cases hpolled with
  | stay hne => exact .stay fun _ => hne
  | finish result => exact .finish result
  | interrupt => exact .interrupt
  | ignore htick hback =>
    have hafter : Handling.ignore.after event = .idle := if_neg fun he => hback he.2
    simp only [hafter]
    exact .stay fun he => absurd he htick

theorem decided_tick_zero (hscene : scene.isCli = true) :
    decided answers scene run .tick 0 ≠ .receiveEvent := by
  have hdecided : Decided run .tick 0 (decided answers scene run .tick 0) := decided_cli hscene
  generalize decided answers scene run .tick 0 = app at hdecided
  cases hdecided with
  | stay hne => exact absurd rfl (hne rfl)
  | finish result => exact nofun
  | interrupt => exact nofun

theorem phase_decided_awaiting {scene' : Scene} {run' : ℕ}
    (happ : s.app = .poll scene' run' event timeout) (hcli : s.cli = .wait scene run)
    (hentered : Entered s scene run) (hticks : Timed s scene)
    (hok : decided answers scene' run' event timeout = .receiveEvent ∨ s.Runs scene' run') :
    Phase { s with app := decided answers scene' run' event timeout } := by
  have hscene := hentered.isCli
  have hrests := hentered.rests
  by_cases hstay : decided answers scene' run' event timeout = .receiveEvent
  · have hrunning : s.stage.timeout scene + s.ticks = 50 := by
      refine hticks.running fun run'' hlast => ?_
      obtain ⟨rfl, rfl, rfl, rfl⟩ := AppPc.poll.inj (happ.symm.trans hlast)
      exact decided_tick_zero hscene hstay
    rw [hstay]
    exact .awaiting scene run .receiveEvent hcli hentered.setApp (.inl hrunning)
  · obtain ⟨-, rfl, rfl⟩ := hok.resolve_left hstay
    obtain rfl := hentered.current
    have hle : s.ticks ≤ 51 := by
      rcases hticks with hsum | ⟨hticks, -⟩ <;> omega
    have hdecided : Decided (enters s.stage.calls) event timeout
      (decided answers s.stage.currentScene (enters s.stage.calls) event timeout) :=
      decided_cli hscene
    generalize decided answers s.stage.currentScene (enters s.stage.calls) event timeout =
      app at hstay hdecided
    obtain rfl := hentered.last
    cases hdecided with
    | stay => exact absurd rfl hstay
    | finish result =>
      refine .sending _ _ result (.searchFront [.sceneStart]) rfl hcli hentered.setApp ?_ hle
      exact ⟨rfl, by simp, hrests.entered, _, ne_start_of_isCli hscene, hrests.trail⟩
    | interrupt =>
      refine .sending _ _ .cliInterrupt (.previousFront true) rfl hcli hentered.setApp ?_ hle
      exact ⟨rfl, hrests, .inl rfl⟩

end Decide

theorem phase_onEvent {answers : Answers} (h : Phase s) (hok : Apart s (.onEvent answers))
    (hs : next s (.onEvent answers) = some s') : Phase s' := by
  cases next_cases hs with
  | @onEvent _ scene run timeout event happ =>
    simp only [Apart, happ, State.InTurn] at hok
    cases h with
    | free halone hcli hdeleted =>
      rw [happ] at halone
      cases halone with
      | poll run timeout event hrests hplain =>
        obtain ⟨w, hasks, hdecided⟩ := @decided_plain _ run answers event timeout hplain
        rw [hdecided]
        refine .free (alone_of (hasks.fits hrests hplain)) hcli ?_
        simp only
        cases w <;> nofun
    | switching scene' run' w hbeside hcli hscene hfits hpush htimeout hcurrent hqueue =>
      have hstay := hok.resolve_right fun hruns => hruns.1 (by rw [hcli]; exact hpush)
      rw [hstay]
      exact .switching scene' run' w .receiveEvent hcli hscene hfits hpush htimeout hcurrent hqueue
    | timing scene' run' hbeside hcli hentered =>
      have hstay := hok.resolve_right fun hruns => hruns.1 (by rw [hcli]; exact nofun)
      rw [hstay]
      exact .timing scene' run' .receiveEvent hcli hentered.setApp
    | awaiting scene' run' hbeside hcli hentered hticks =>
      exact phase_decided_awaiting happ hcli hentered hticks hok
    | sending scene' run' result w happ' => simp [happ] at happ'

theorem phase_next {l : Label} (h : Phase s) (hbounded : ∀ r ∈ s.sent, r ≤ enters s.stage.calls)
    (hok : Apart s l) (hs : next s l = some s') : Phase s' := by
  cases l with
  | line command => exact phase_line h hs
  | switch loaded => exact phase_switch h hok hbounded hs
  | reply => exact phase_reply h hs
  | receiveEvent event => exact phase_receiveEvent h hs
  | lookup => exact phase_lookup h hs
  | timeout => exact phase_timeout h hs
  | onEvent answers => exact phase_onEvent h hok hs
  | cliSendEvent => exact phase_cliSendEvent h hs
  | work loaded => exact phase_work h hs
  | leave => exact phase_leave h hs
  | delete => exact phase_delete h hok hs

/-- Every result was sent once, by the run that the command started. -/
structure Books (s : State) : Prop where
  sent : s.sent = (s.cliEventResult.map Prod.snd).toList ++ s.replies.map Reply.asked
  nodup : s.sent.Nodup
  own : ∀ reply ∈ s.replies, reply.run = reply.asked
  bounded : ∀ r ∈ s.sent, r ≤ enters s.stage.calls

theorem Books.of_calls (h : Books s) (hsent : s'.sent = s.sent)
    (hqueue : s'.cliEventResult = s.cliEventResult) (hreplies : s'.replies = s.replies)
    (hcalls : enters s.stage.calls ≤ enters s'.stage.calls) : Books s' := by
  obtain ⟨hs, hnodup, hown, hbounded⟩ := h
  constructor
  · rw [hsent, hqueue, hreplies, hs]
  · rw [hsent]
    exact hnodup
  · rw [hreplies]
    exact hown
  · intro r hr
    exact (hbounded r (hsent ▸ hr)).trans hcalls

theorem calls_step {stage' : Stage} {w' : Work} {loaded : Bool}
    (h : w.step stage loaded = some (stage', w')) :
    stage'.calls = stage.calls ∨ ∃ call, stage'.calls = call :: stage.calls := by
  cases w with
  | idle => cases h
  | exit => cases h
  | searchFront scenesList =>
    obtain ⟨previous, -, he⟩ := Option.map_eq_some_iff.mp h
    exact .inl ((Prod.mk.inj he).1 ▸ rfl)
  | previousFront run =>
    obtain ⟨previous, -, he⟩ := Option.map_eq_some_iff.mp h
    exact .inl ((Prod.mk.inj he).1 ▸ rfl)
  | searchPop scenesList previous =>
    simp only [Work.step] at h
    split at h
    · cases h
    · exact .inl ((Prod.mk.inj (Option.some.inj h)).1 ▸ rfl)
  | previousPop previous run =>
    simp only [Work.step] at h
    split at h
    · cases h
    · exact .inl ((Prod.mk.inj (Option.some.inj h)).1 ▸ rfl)
  | onExit next =>
    obtain ⟨rfl, -⟩ := Prod.mk.inj (Option.some.inj h)
    exact .inr ⟨_, rfl⟩
  | onEnter =>
    obtain ⟨rfl, -⟩ := Prod.mk.inj (Option.some.inj h)
    exact .inr ⟨_, rfl⟩
  | _ => exact .inl ((Prod.mk.inj (Option.some.inj h)).1 ▸ rfl)

theorem enters_step {stage' : Stage} {w' : Work} {loaded : Bool}
    (h : w.step stage loaded = some (stage', w')) :
    enters stage.calls ≤ enters stage'.calls := by
  rcases calls_step h with hcalls | ⟨call, hcalls⟩
  · rw [hcalls]
  · rw [hcalls]
    cases call with
    | onEnter scene => exact Nat.le_succ _
    | onExit scene => exact le_rfl

theorem books_cliSendEvent (h : Books s) (hphase : Phase s)
    (hs : next s .cliSendEvent = some s') : Books s' := by
  cases next_cases hs with
  | @cliSendEvent result run w happ hqueue =>
    obtain ⟨hsent, hnodup, hown, hbounded⟩ := h
    cases hphase with
    | sending scene run' result' w' happ' hcli hentered =>
      rw [happ] at happ'
      obtain ⟨rfl, rfl, rfl⟩ := AppPc.cliSendEvent.inj happ'
      constructor
      · simp [hsent, hqueue]
      · apply List.nodup_cons.mpr
        refine ⟨fun hmem => ?_, hnodup⟩
        exact absurd (hentered.fresh _ hmem) (lt_irrefl _)
      · exact hown
      · intro r hr
        rcases List.mem_cons.mp hr with rfl | hr
        · exact hentered.last.le
        · exact hbounded r hr
    | free halone => 
      rw [happ] at halone
      cases halone
    | switching _ _ _ hbeside | timing _ _ hbeside | awaiting _ _ hbeside =>
      rw [happ] at hbeside
      cases hbeside

theorem books_reply (h : Books s) (hphase : Phase s) (hs : next s .reply = some s') :
    Books s' := by
  cases next_cases hs with
  | @reply scene asked run result hwait hqueue =>
    obtain ⟨hsent, hnodup, hown, hbounded⟩ := h
    have hasked : asked = run := by
      cases hphase with
      | free halone hcli hdeleted =>
        rw [hwait, hqueue] at hcli
        cases hcli
        rfl
      | awaiting scene' run' hrest hcli hentered => simp [hentered.queue] at hqueue
      | sending scene' run' result' w happ hcli hentered => simp [hentered.queue] at hqueue
      | _ => simp_all
    subst hasked
    constructor
    · simp [hsent, hqueue]
    · exact hnodup
    · intro reply hreply
      rcases List.mem_cons.mp hreply with rfl | hreply
      · rfl
      · exact hown reply hreply
    · exact hbounded

theorem books_next {l : Label} (h : Books s) (hphase : Phase s) (hs : next s l = some s') :
    Books s' := by
  cases l with
  | line command =>
    cases next_cases hs with
    | line hidle happ =>
      exact h.of_calls rfl rfl rfl le_rfl
  | switch loaded =>
    cases next_cases hs with
    | @switch _ scene run w w' stage hcli hstep =>
      exact h.of_calls rfl rfl rfl (enters_step hstep)
  | reply => exact books_reply h hphase hs
  | receiveEvent event =>
    cases next_cases hs with
    | receiveEvent happ =>
      exact h.of_calls rfl rfl rfl le_rfl
  | lookup =>
    cases next_cases hs with
    | lookup happ => exact h.of_calls rfl rfl rfl le_rfl
  | timeout =>
    cases next_cases hs with
    | readTimeout happ => exact h.of_calls rfl rfl rfl le_rfl
    | writeTimeout happ => exact h.of_calls rfl rfl rfl le_rfl
  | onEvent answers =>
    cases next_cases hs with
    | onEvent happ => exact h.of_calls rfl rfl rfl le_rfl
  | cliSendEvent => exact books_cliSendEvent h hphase hs
  | work loaded =>
    cases next_cases hs with
    | @work _ w w' stage happ hstep =>
      exact h.of_calls rfl rfl rfl (enters_step hstep)
  | leave =>
    cases next_cases hs with
    | leave happ =>
      exact h.of_calls rfl rfl rfl le_rfl
  | delete =>
    cases next_cases hs with
    | delete happ =>
      exact h.of_calls rfl rfl rfl le_rfl

theorem books_init : Books State.init where
  sent := rfl
  nodup := List.nodup_nil
  own := nofun
  bounded := nofun

theorem phase_books (h : machine.ReachableWith Apart s) : Phase s ∧ Books s := by
  apply h.invariant ⟨phase_init, books_init⟩
  rintro s l s' ⟨hphase, hbooks⟩ hok hs
  exact ⟨phase_next hphase hbooks.bounded hok hs, books_next hbooks hphase hs⟩

theorem Alone.entered_isSome (h : Alone stage app) : (entered stage.calls).isSome := by
  cases h with
  | receiveEvent hrests hplain => simp [hrests.entered]
  | onEvent event hrests hplain => simp [hrests.entered]
  | handle run event hrests hplain => simp [hrests.entered]
  | poll run timeout event hrests hplain => simp [hrests.entered]
  | work hfits => exact hfits.entered_isSome
  | leave hentered => simp [hentered]
  | delete hentered => simp [hentered]
  | deleted hentered => simp [hentered]

theorem Phase.alternate (h : Phase s) : (entered s.stage.calls).isSome := by
  cases h with
  | free halone => exact halone.entered_isSome
  | switching scene run w hrest hcli hscene hfits => exact hfits.entered_isSome
  | timing scene run hrest hcli hentered => simp [hentered.rests.entered]
  | awaiting scene run hrest hcli hentered => simp [hentered.rests.entered]
  | sending scene run result w happ hcli hentered => simp [hentered.rests.entered]

theorem mem_works (h : w ∈ s.works) :
    s.app = .work w ∨ ∃ scene run, s.cli = .switch scene run w := by
  rcases List.mem_append.mp h with h | h
  · left
    split at h <;> simp_all
  · right
    split at h
    · next scene run w' hcli =>
      obtain rfl := List.mem_singleton.mp h
      exact ⟨scene, run, hcli⟩
    · cases h

theorem Phase.popped (h : Phase s) (hw : w ∈ s.works) (hpops : w.Pops) :
    s.stage.previousScenesList ≠ [] := by
  rcases mem_works hw with happ | ⟨scene', run', hwork⟩
  · cases h with
    | free halone hcli hdeleted =>
      rw [happ] at halone
      cases halone with
      | work hfits => exact hfits.pops hpops
    | switching _ _ _ hbeside | timing _ _ hbeside | awaiting _ _ hbeside =>
      rw [happ] at hbeside
      cases hbeside
    | sending _ _ _ _ happ' => simp [happ] at happ'
  · cases h with
    | free halone hcli hdeleted =>
      rw [hwork] at hcli
      obtain ⟨rfl, -⟩ := hcli.of_switch
      cases hpops
    | switching scene run w' hrest hcli hscene hfits =>
      rw [hwork] at hcli
      obtain ⟨rfl, rfl, rfl⟩ := CliPc.switch.inj hcli
      exact hfits.pops hpops
    | timing scene run hrest hcli hentered =>
      rw [hwork] at hcli
      obtain ⟨rfl, rfl, rfl⟩ := CliPc.switch.inj hcli
      cases hpops
    | awaiting scene run hrest hcli => simp [hwork] at hcli
    | sending scene run result w' happ hcli => simp [hwork] at hcli

theorem Phase.waiting (h : Phase s) (hwait : s.cli = .wait scene run)
    (hqueue : s.cliEventResult = none) : Entered s scene run ∧ s.ticks ≤ 51 := by
  cases h with
  | free halone hcli hdeleted =>
    rw [hwait, hqueue] at hcli
    cases hcli
  | awaiting scene' run' hrest hcli hentered hticks =>
    rw [hwait] at hcli
    obtain ⟨rfl, rfl⟩ := CliPc.wait.inj hcli
    refine ⟨hentered, ?_⟩
    rcases hticks with hsum | ⟨hticks, -⟩ <;> omega
  | sending scene' run' result w happ hcli hentered hfits hticks =>
    rw [hwait] at hcli
    obtain ⟨rfl, rfl⟩ := CliPc.wait.inj hcli
    exact ⟨hentered, hticks⟩
  | switching scene' run' w hrest hcli => simp [hwait] at hcli
  | timing scene' run' hrest hcli => simp [hwait] at hcli

theorem Phase.answered (h : Phase s) (hwait : s.cli = .wait scene run) {result : CliEvent × ℕ}
    (hqueue : s.cliEventResult = some result) : result.2 = run := by
  cases h with
  | free halone hcli hdeleted =>
    rw [hwait, hqueue] at hcli
    cases hcli
    rfl
  | awaiting scene' run' hrest hcli hentered => simp [hentered.queue] at hqueue
  | sending scene' run' result' w happ hcli hentered => simp [hentered.queue] at hqueue
  | switching scene' run' w hrest hcli => simp [hwait] at hcli
  | timing scene' run' hrest hcli => simp [hwait] at hcli

theorem Phase.deleted (h : Phase s) (happ : s.app = .deleted) : s.cli = .idle := by
  cases h with
  | free halone hcli hdeleted => exact hdeleted happ
  | switching _ _ _ hbeside | timing _ _ hbeside | awaiting _ _ hbeside =>
    rw [happ] at hbeside
    cases hbeside
  | sending _ _ _ _ happ' => simp [happ] at happ'

theorem Books.once (h : Books s) {reply : Reply} (hreply : reply ∈ s.replies) :
    s.sent.count reply.asked = 1 := by
  apply List.count_eq_one_of_mem h.nodup
  rw [h.sent]
  exact List.mem_append_right _ (List.mem_map_of_mem hreply)

theorem pending_of_wait (hphase : Phase s) (hbooks : Books s) (hwait : s.cli = .wait scene run) :
    s.sent.count run = s.cliEventResult.toList.length := by
  cases hqueue : s.cliEventResult with
  | none =>
    have hentered := (hphase.waiting hwait hqueue).1
    apply List.count_eq_zero_of_not_mem
    intro hmem
    exact lt_irrefl _ (hentered.fresh _ hmem)
  | some result =>
    apply List.count_eq_one_of_mem hbooks.nodup
    simp [hbooks.sent, hqueue, hphase.answered hwait hqueue]

/-- Commands and scenes do not interfere in the runs in which one thread at a time switches
scenes and the application is not deleted under a command. -/
theorem no_interference (h : machine.ReachableWith Apart s) : NoInterference s := by
  obtain ⟨hphase, hbooks⟩ := phase_books h
  constructor
  · exact hphase.alternate
  · intro w hw
    exact hphase.popped hw
  · intro scene run hwait hqueue
    exact (hphase.waiting hwait hqueue).1.current
  · exact hbooks.own
  · intro reply hreply
    exact hbooks.once hreply
  · intro scene run hwait
    exact pending_of_wait hphase hbooks hwait
  · intro scene run hwait hqueue
    exact (hphase.waiting hwait hqueue).2
  · exact hphase.deleted

/-- A key is read by a command in the start scene, and the command gets the result. -/
theorem no_interference_read : ∃ s, machine.ReachableWith Apart s ∧
    s.replies = [⟨2, 2, .cliReadSuccess⟩] ∧ s.stage.currentScene = .sceneStart ∧
    NoInterference s := by
  have hrun : ∃ s, machine.execWith Apart .init
      [.work false, .line .read, .switch false, .switch false, .switch false, .switch false,
        .switch false, .receiveEvent .tick, .lookup, .timeout, .timeout,
        .onEvent ⟨.ok, .noDetect, false, false⟩, .cliSendEvent,
        .reply, .work false, .work false, .work false, .work false, .work false] = some s ∧
      s.replies = [⟨2, 2, .cliReadSuccess⟩] ∧ s.stage.currentScene = .sceneStart :=
    ⟨_, rfl, rfl, rfl⟩
  obtain ⟨s, hexec, hreplies, hscene⟩ := hrun
  have hreach := Machine.execWith_reachableWith .init hexec
  exact ⟨s, hreach, hreplies, hscene, no_interference hreach⟩

/-- A key file is chosen after a command has taken the scene from the selection, and the command
is left waiting in the menu of the key. -/
theorem not_no_interference : ¬ ∀ s, machine.Reachable s → NoInterference s := by
  intro h
  have hrun : ∃ s, machine.exec .init
      [.work false, .receiveEvent (.menuSelected 1), .lookup, .timeout,
        .onEvent ⟨.empty, .noDetect, false, false⟩, .work false, .work false, .work false, .work false, .line .read, .switch false,
        .switch false, .switch false, .switch false, .switch false, .work true, .work true,
        .work true, .work true, .work true] = some s ∧
      s.cli = .wait .sceneCliRead 3 ∧ s.cliEventResult = none ∧
      s.stage.currentScene = .sceneSavedKeyMenu := ⟨_, rfl, rfl, rfl, rfl⟩
  obtain ⟨s, hexec, hwait, hqueue, hscene⟩ := hrun
  have hcurrent := (h s (Machine.exec_reachable .init hexec)).current _ _ hwait hqueue
  rw [hscene] at hcurrent
  cases hcurrent

end FlipperZero.IButton.App
