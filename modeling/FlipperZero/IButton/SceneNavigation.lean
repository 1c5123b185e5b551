import FlipperZero.IButton.NoInterference
import Mathlib.Data.List.Induction

/-! # The navigation of the scenes

While no command is entered the application has the scenes for itself. The list of
previous scenes then ends in the start and the exit, every switch comes to its end, and
`run` leaves its loop for Back in the start only.
-/

namespace FlipperZero.IButton.App

open Lib

def NoLine : Label → Prop
  | .line _ => False
  | _ => True

instance : (l : Label) → Decidable (NoLine l)
  | .line _ => .isFalse id
  | .switch _ | .reply | .receiveEvent _ | .lookup | .timeout | .onEvent _ | .cliSendEvent
  | .work _ | .leave | .delete => .isTrue trivial

/-- `run` has left its loop. -/
def AppPc.Left : AppPc → Prop
  | .leave | .delete | .deleted => True
  | _ => False

/-- The switch comes to its end for all answers of `load_key`. -/
inductive Settles : State → Prop
  | rest {s : State} (h : ∀ w, s.app ≠ .work w) : Settles s
  | work {s : State} (after : Bool → State)
      (h : ∀ loaded, next s (.work loaded) = some (after loaded))
      (hsettles : ∀ loaded, Settles (after loaded)) : Settles s

structure Navigates (s : State) : Prop where
  popped : ∀ w, s.app = .work w → w.Pops → s.stage.previousScenesList ≠ []
  bottom : ¬ s.app.Left →
    ∃ scenes, s.stage.previousScenesList = scenes ++ [Scene.sceneExit] ∧ .sceneExit ∉ scenes
  start : s.app.AtRest → s.stage.currentScene = .sceneStart →
    s.stage.previousScenesList = [.sceneExit]
  above : s.app.AtRest → s.stage.currentScene ≠ .sceneStart →
    ∃ scenes, s.stage.previousScenesList = scenes ++ [Scene.sceneStart, .sceneExit] ∧
      .sceneStart ∉ scenes ∧ .sceneExit ∉ scenes
  left : s.app.Left → s.stage.previousScenesList = [] ∧ s.stage.currentScene = .sceneStart
  settles : Settles s

/-- The last event was Back in the start, and nothing but the switch has been done since. -/
def LeftByBack (ls : List Label) : Prop :=
  ∃ before answers works t, ls = before ++ Label.onEvent answers :: works ∧
    machine.execWith (fun _ l => NoLine l) .init before = some t ∧
    (∃ run timeout, t.app = .poll .sceneStart run .back timeout) ∧
    t.stage.currentScene = .sceneStart ∧ ∀ l ∈ works, ∃ loaded, l = .work loaded

variable {s s' : State} {stage : Stage} {w w' : Work} {scene : Scene} {scenes : List Scene}
  {loaded : Bool}

theorem Trail.exists_append_exit (h : Trail scene scenes) :
    ∃ above, scenes = above ++ [Scene.sceneExit] ∧ .sceneExit ∉ above := by
  induction h with
  | start => exact ⟨[], rfl, List.not_mem_nil⟩
  | next h hcli hstart hexit ih =>
    obtain ⟨above, rfl, habove⟩ := ih
    refine ⟨_ :: above, rfl, ?_⟩
    rintro (_ | ⟨_, hmem⟩)
    · exact h.ne_exit rfl
    · exact habove hmem

theorem Trail.exists_append_start (h : Trail scene scenes) (hne : scene ≠ .sceneStart) :
    ∃ above, scenes = above ++ [Scene.sceneStart, .sceneExit] ∧ .sceneStart ∉ above ∧
      .sceneExit ∉ above := by
  induction h with
  | start => exact absurd rfl hne
  | @next scene previous scenes h hcli hstart hexit ih =>
    by_cases hprevious : previous = .sceneStart
    · subst hprevious
      exact ⟨[], by rw [h.of_start]; rfl, List.not_mem_nil, List.not_mem_nil⟩
    · obtain ⟨above, rfl, hnotStart, hnotExit⟩ := ih hprevious
      refine ⟨previous :: above, rfl, ?_, ?_⟩
      · rintro (_ | ⟨_, hmem⟩)
        · exact hprevious rfl
        · exact hnotStart hmem
      · rintro (_ | ⟨_, hmem⟩)
        · exact h.ne_exit rfl
        · exact hnotExit hmem

theorem Fits.exists_append_exit (h : Fits none stage w) (hw : w ≠ .exit) :
    ∃ above, stage.previousScenesList = above ++ [Scene.sceneExit] ∧ .sceneExit ∉ above := by
  cases w with
  | idle => exact h.1.trail.exists_append_exit
  | exit => exact absurd rfl hw
  | pushFront next => exact h.1.trail.exists_append_exit
  | onExit next => exact h.2.1.exists_append_exit
  | setCurrent next => exact h.2.1.exists_append_exit
  | onEnter => exact h.2.1.exists_append_exit
  | setTimeout scene => exact h.1.trail.exists_append_exit
  | loadKey => exact h.2.1.trail.exists_append_exit
  | searchFront scenesList =>
    obtain ⟨-, -, -, scene, -, htrail⟩ := h
    exact htrail.exists_append_exit
  | searchPop scenesList previous =>
    obtain ⟨-, -, -, rest, hlist, htrail, hcli⟩ := h
    obtain ⟨above, rfl, habove⟩ := htrail.exists_append_exit
    refine ⟨previous :: above, hlist, ?_⟩
    rintro (_ | ⟨_, hmem⟩)
    · exact htrail.ne_exit rfl
    · exact habove hmem
  | previousFront run => exact h.2.1.trail.exists_append_exit
  | previousPop previous run => exact h.2.1.trail.exists_append_exit

theorem Fits.of_step_exit {stage' : Stage} (h : Fits none stage w)
    (hs : w.step stage loaded = some (stage', .exit)) :
    (∃ previous, w = .previousPop previous true) ∧ stage'.previousScenesList = [] ∧
      stage'.currentScene = .sceneStart ∧ stage.currentScene = .sceneStart := by
  cases w with
  | previousPop previous run =>
    obtain ⟨-, hrests, hhead, hrun⟩ := h
    obtain ⟨rest, hlist⟩ := List.head?_eq_some_iff.mp hhead
    simp only [Work.step, hlist, Option.some.injEq, Prod.mk.injEq] at hs
    obtain ⟨rfl, hs⟩ := hs
    have hexit : previous = .sceneExit := by
      by_contra hne
      simp [hne] at hs
    have hstart : stage.currentScene = .sceneStart := by
      by_contra hne
      obtain ⟨previous', rest', he, hprevious, -⟩ := hrests.trail.exists_previous hne
      obtain ⟨rfl, -⟩ : previous = previous' ∧ rest = rest' := by simpa [hlist] using he
      exact hprevious.ne_exit hexit
    have htrail := (hstart ▸ hrests.trail).of_start
    obtain ⟨-, rfl⟩ : previous = .sceneExit ∧ rest = [] := by simpa [hlist] using htrail
    obtain rfl : run = true := hrun.resolve_right (absurd hstart)
    exact ⟨⟨previous, rfl⟩, rfl, hstart, hstart⟩
  | searchFront scenesList =>
    obtain ⟨previous, hhead, he⟩ := Option.map_eq_some_iff.mp hs
    cases he
  | previousFront run =>
    obtain ⟨previous, hhead, he⟩ := Option.map_eq_some_iff.mp hs
    cases he
  | searchPop scenesList previous =>
    obtain ⟨-, -, -, rest, hlist, -⟩ := h
    simp only [Work.step, hlist, Option.some.injEq, Prod.mk.injEq] at hs
    obtain ⟨-, hs⟩ := hs
    split at hs <;> cases hs
  | onEnter =>
    simp only [Work.step, onEnterWork, Option.some.injEq, Prod.mk.injEq] at hs
    obtain ⟨-, hs⟩ := hs
    repeat' split at hs
    all_goals cases hs
  | loadKey =>
    cases loaded with
    | true => cases hs
    | false => cases hs
  | pushFront next =>
    simp only [Work.step, Option.some.injEq, Prod.mk.injEq] at hs
    obtain ⟨-, hs⟩ := hs
    split at hs <;> cases hs
  | _ => cases hs

/-- Entering a scene may be followed by its leaving when `load_key` fails. -/
def enterRank (scene : Scene) (length : ℕ) : ℕ :=
  if scene = .sceneSelectKey then 8 * length + 8 else 2

/-- A bound of the accesses that a switch has still to make. -/
def Work.rank (s : Stage) : Work → ℕ
  | .idle | .exit => 0
  | .setTimeout _ => 1
  | .onEnter => enterRank s.currentScene s.previousScenesList.length
  | .setCurrent next => enterRank next s.previousScenesList.length + 1
  | .onExit next => enterRank next s.previousScenesList.length + 2
  | .pushFront next => enterRank next (s.previousScenesList.length + 1) + 3
  | .loadKey => 8 * s.previousScenesList.length + 7
  | .searchFront _ | .previousFront _ => 8 * s.previousScenesList.length + 6
  | .searchPop _ _ | .previousPop _ _ => 8 * s.previousScenesList.length + 5

theorem enterRank_le {n : ℕ} : enterRank scene n ≤ 8 * n + 8 := by
  unfold enterRank
  split <;> omega

theorem rank_step {stage' : Stage} (hs : w.step stage loaded = some (stage', w')) :
    w'.rank stage' < w.rank stage := by
  cases w with
  | idle => cases hs
  | exit => cases hs
  | pushFront next =>
    obtain ⟨rfl, rfl⟩ : _ ∧ _ := by simpa [Work.step] using hs
    split
    · simp [Work.rank]
    · simp [Work.rank]
  | onExit next =>
    obtain ⟨rfl, rfl⟩ : _ ∧ _ := by simpa [Work.step] using hs
    simp [Work.rank]
  | setCurrent next =>
    obtain ⟨rfl, rfl⟩ : _ ∧ _ := by simpa [Work.step] using hs
    simp [Work.rank]
  | onEnter =>
    obtain ⟨rfl, rfl⟩ : _ ∧ _ := by simpa [Work.step] using hs
    unfold onEnterWork
    split
    · simp only [Work.rank, enterRank]
      split <;> omega
    · split
      · next hselect => simp [Work.rank, enterRank, hselect]
      · next hselect => simp [Work.rank, enterRank, hselect]
  | setTimeout scene =>
    obtain ⟨rfl, rfl⟩ : _ ∧ _ := by simpa [Work.step] using hs
    simp [Work.rank]
  | loadKey =>
    obtain ⟨rfl, rfl⟩ : _ ∧ _ := by simpa [Work.step] using hs
    split
    · simp [Work.rank, switchToNextScene, enterRank]
    · simp [Work.rank, switchToPreviousScene]
  | searchFront scenesList =>
    obtain ⟨previous, hhead, he⟩ := Option.map_eq_some_iff.mp hs
    obtain ⟨rfl, rfl⟩ := Prod.mk.inj he
    simp [Work.rank]
  | searchPop scenesList previous =>
    simp only [Work.step] at hs
    split at hs
    · cases hs
    · next previous' rest hlist =>
      obtain ⟨rfl, rfl⟩ := Prod.mk.inj (Option.some.inj hs)
      have := @enterRank_le previous rest.length
      split <;> simp only [Work.rank, hlist, List.length_cons] <;> omega
  | previousFront run =>
    obtain ⟨previous, hhead, he⟩ := Option.map_eq_some_iff.mp hs
    obtain ⟨rfl, rfl⟩ := Prod.mk.inj he
    simp [Work.rank]
  | previousPop previous run =>
    simp only [Work.step] at hs
    split at hs
    · cases hs
    · next previous' rest hlist =>
      obtain ⟨rfl, rfl⟩ := Prod.mk.inj (Option.some.inj hs)
      have := @enterRank_le previous rest.length
      by_cases hexit : previous = .sceneExit
      · cases run <;> simp [hexit, Work.rank]
      · simp only [if_neg hexit, Work.rank, hlist, List.length_cons]
        omega

theorem Fits.step_isSome (h : Fits none stage w) (hidle : w ≠ .idle) (hexit : w ≠ .exit) :
    (w.step stage loaded).isSome := by
  cases w with
  | idle => exact absurd rfl hidle
  | exit => exact absurd rfl hexit
  | searchFront scenesList =>
    obtain ⟨previous, rest, hlist⟩ := List.exists_cons_of_ne_nil (h.pops trivial)
    simp [Work.step, hlist]
  | searchPop scenesList previous =>
    obtain ⟨previous', rest, hlist⟩ := List.exists_cons_of_ne_nil (h.pops trivial)
    simp [Work.step, hlist]
  | previousFront run =>
    obtain ⟨previous, rest, hlist⟩ := List.exists_cons_of_ne_nil (h.pops trivial)
    simp [Work.step, hlist]
  | previousPop previous run =>
    obtain ⟨previous', rest, hlist⟩ := List.exists_cons_of_ne_nil (h.pops trivial)
    simp [Work.step, hlist]
  | _ => rfl

theorem of_eq_work {w : Work} (hidle : w ≠ .idle) (hexit : w ≠ .exit) : AppPc.of w = .work w := by
  cases w with
  | idle => exact absurd rfl hidle
  | exit => exact absurd rfl hexit
  | _ => rfl

theorem settles_of_fits (h : Fits none s.stage w) (happ : s.app = .of w) : Settles s := by
  induction hn : w.rank s.stage using Nat.strongRecOn generalizing s w with
  | ind n ih =>
    by_cases hidle : w = .idle
    · subst hidle
      exact .rest fun w hw => by cases happ.symm.trans hw
    · by_cases hexit : w = .exit
      · subst hexit
        exact .rest fun w hw => by cases happ.symm.trans hw
      · have hstep : ∀ loaded, ∃ s', next s (.work loaded) = some s' ∧ Settles s' := by
          intro loaded
          obtain ⟨⟨stage', w'⟩, hw⟩ :=
            Option.isSome_iff_exists.mp (@Fits.step_isSome s.stage w loaded h hidle hexit)
          refine ⟨{ s with stage := stage', app := .of w' }, ?_, ?_⟩
          · simp only [next, happ, of_eq_work hidle hexit, hw, Option.map_some]
          · exact ih _ (hn ▸ rank_step hw) (fits_step h (by rintro _ ⟨⟩) hw) rfl rfl
        choose after hnext hsettles using hstep
        exact .work after hnext hsettles

/-- The application has the scenes for itself, and takes the last one to leave. -/
structure Loops (s : State) : Prop where
  alone : Alone s.stage s.app
  cli : s.cli = .idle
  left : s.app.Left → s.stage.previousScenesList = [] ∧ s.stage.currentScene = .sceneStart
  working : ∀ w, s.app = .work w → .of w = s.app

theorem of_of_eq_work (h : AppPc.of w = .work w') : .of w' = AppPc.of w := by
  cases w with
  | idle => cases h
  | exit => cases h
  | _ =>
    cases h
    rfl

theorem not_left_of (hexit : w ≠ .exit) : ¬ (AppPc.of w).Left := by
  cases w with
  | exit => exact absurd rfl hexit
  | _ => exact id

theorem loops_next {l : Label} (h : Loops s) (hok : NoLine l) (hs : next s l = some s') :
    Loops s' := by
  obtain ⟨halone, hcli, hleft, -⟩ := h
  cases l with
  | line command => cases hok
  | switch loaded => simp [next, hcli] at hs
  | reply => simp [next, hcli] at hs
  | receiveEvent event =>
    cases next_cases hs with
    | receiveEvent happ =>
      obtain ⟨hrests, hplain⟩ := halone.of_atRest (by rw [happ]; trivial)
      exact ⟨.onEvent event hrests hplain, hcli, False.elim, fun w => (by rintro ⟨⟩)⟩
  | lookup =>
    cases next_cases hs with
    | @lookup event happ =>
      obtain ⟨hrests, hplain⟩ := halone.of_atRest (by rw [happ]; trivial)
      exact ⟨.handle _ event hrests hplain, hcli, False.elim, fun w => (by rintro ⟨⟩)⟩
  | timeout =>
    cases next_cases hs with
    | @readTimeout scene run event happ =>
      rw [happ] at halone
      cases halone with
      | handle run event hrests hplain =>
        have hpoll : (s.readTimeout s.stage.currentScene run event).app =
            .poll s.stage.currentScene run event (s.stage.timeout s.stage.currentScene) :=
          if_neg (by simp [hplain])
        constructor
        · rw [hpoll]
          exact .poll run _ event hrests hplain
        · exact hcli
        · rw [hpoll]
          exact False.elim
        · rw [hpoll]
          rintro w ⟨⟩
    | writeTimeout happ =>
      rw [happ] at halone
      cases halone
  | onEvent answers =>
    cases next_cases hs with
    | @onEvent _ scene run timeout event happ =>
      rw [happ] at halone
      cases halone with
      | poll run timeout event hrests hplain =>
        obtain ⟨w, hasks, hw⟩ := @decided_plain _ run answers event timeout hplain
        have hexit : w ≠ .exit := by
          rintro rfl
          cases hasks
        rw [hw]
        refine ⟨alone_of (hasks.fits hrests hplain), hcli, ?_, fun w' => of_of_eq_work⟩
        exact fun h => absurd h (not_left_of hexit)
  | cliSendEvent =>
    cases next_cases hs with
    | @cliSendEvent result run w happ hqueue =>
      rw [happ] at halone
      cases halone
  | work loaded =>
    cases next_cases hs with
    | @work _ w w' stage happ hstep =>
      rw [happ] at halone
      cases halone with
      | work hfits =>
        have hfits' := fits_step hfits (by rintro _ ⟨⟩) hstep
        refine ⟨alone_of hfits', hcli, fun h => ?_, fun _ => of_of_eq_work⟩
        by_cases hexit : w' = .exit
        · subst hexit
          obtain ⟨-, hnil, hstart, -⟩ := hfits.of_step_exit hstep
          exact ⟨hnil, hstart⟩
        · exact absurd h (not_left_of hexit)
  | leave =>
    cases next_cases hs with
    | leave happ =>
      rw [happ] at halone hleft
      cases halone with
      | leave hentered =>
        exact ⟨.delete (by simp [entered, hentered]), hcli, hleft, fun w => (by rintro ⟨⟩)⟩
  | delete =>
    cases next_cases hs with
    | delete happ =>
      rw [happ] at halone hleft
      cases halone with
      | delete hentered => exact ⟨.deleted hentered, hcli, hleft, fun w => (by rintro ⟨⟩)⟩

theorem Loops.navigates (h : Loops s) : Navigates s := by
  obtain ⟨halone, hcli, hleft, hworking⟩ := h
  constructor
  · intro w happ hpops
    rw [happ] at halone
    cases halone with
    | work hfits => exact hfits.pops hpops
  · intro hnot
    generalize happ : s.app = app at halone hnot hworking
    cases halone with
    | receiveEvent hrests => exact hrests.trail.exists_append_exit
    | onEvent event hrests => exact hrests.trail.exists_append_exit
    | handle run event hrests => exact hrests.trail.exists_append_exit
    | poll run timeout event hrests => exact hrests.trail.exists_append_exit
    | @work w hfits =>
      apply hfits.exists_append_exit
      rintro rfl
      cases hworking _ rfl
    | _ => exact absurd trivial hnot
  · intro hrest hstart
    have hrests := (halone.of_atRest hrest).1
    exact (hstart ▸ hrests.trail).of_start
  · intro hrest hne
    exact (halone.of_atRest hrest).1.trail.exists_append_start hne
  · exact hleft
  · generalize happ : s.app = app at halone hworking
    cases halone with
    | @work w hfits => exact settles_of_fits hfits (happ.trans (hworking w rfl).symm)
    | _ => exact .rest fun w hw => by cases happ.symm.trans hw

theorem work_onEvent_ne {answers : Answers} {timeout : ℕ} {event : Event}
    (hcli : scene.isCli = false) :
    (onEvent answers timeout scene event).work ≠ .previousFront true := by
  cases scene with
  | sceneCliRead => cases hcli
  | sceneCliWrite => cases hcli
  | sceneCliEmulate => cases hcli
  | _ =>
    dsimp only [onEvent, sceneStartOnEvent, sceneReadOnEvent, sceneReadSuccessOnEvent,
      sceneReadCRCErrorOnEvent, sceneReadNotKeyErrorOnEvent, readDialogOnEvent,
      sceneReadedKeyMenuOnEvent, sceneWriteOnEvent, sceneWriteSuccessOnEvent,
      sceneEmulateOnEvent, sceneSavedKeyMenuOnEvent, sceneDeleteConfirmOnEvent,
      sceneDeleteSuccessOnEvent, sceneSaveNameOnEvent, sceneSaveSuccessOnEvent, sceneInfoOnEvent,
      sceneSelectKeyOnEvent, sceneAddTypeOnEvent, sceneAddValueOnEvent]
    repeat' split
    all_goals simp [Handling.switch, Handling.stay, Handling.ignore, switchToNextScene,
      searchAndSwitchToPreviousScene, switchToPreviousScene]

/-- `run` has asked for the previous scene itself. -/
def AppPc.Leaving : AppPc → Prop
  | .leave | .work (.previousFront true) | .work (.previousPop _ true) => True
  | _ => False

theorem leaving_of (h : (AppPc.of w).Leaving) :
    w = .exit ∨ w = .previousFront true ∨ ∃ previous, w = .previousPop previous true := by
  cases w with
  | exit => exact .inl rfl
  | previousFront run =>
    cases run with
    | false => cases h
    | true => exact .inr (.inl rfl)
  | previousPop previous run =>
    cases run with
    | false => cases h
    | true => exact .inr (.inr ⟨previous, rfl⟩)
  | _ => cases h

theorem step_leaving {stage' : Stage} (hs : w.step stage loaded = some (stage', w'))
    (h : w' = .previousFront true ∨ ∃ previous, w' = .previousPop previous true) :
    w = .previousFront true ∧ stage' = stage := by
  cases w with
  | previousFront run =>
    obtain ⟨previous, hhead, he⟩ := Option.map_eq_some_iff.mp hs
    obtain ⟨rfl, rfl⟩ := Prod.mk.inj he
    rcases h with h | ⟨previous', h⟩
    · cases h
    · cases h
      exact ⟨rfl, rfl⟩
  | searchFront scenesList =>
    obtain ⟨previous, hhead, he⟩ := Option.map_eq_some_iff.mp hs
    obtain ⟨rfl, rfl⟩ := Prod.mk.inj he
    simp at h
  | loadKey =>
    obtain ⟨rfl, rfl⟩ : _ ∧ _ := by simpa [Work.step] using hs
    cases loaded <;> simp [switchToNextScene, switchToPreviousScene] at h
  | idle => cases hs
  | exit => cases hs
  | searchPop scenesList previous =>
    simp only [Work.step] at hs
    split at hs
    · cases hs
    · obtain ⟨rfl, rfl⟩ := Prod.mk.inj (Option.some.inj hs)
      split at h <;> simp at h
  | previousPop previous run =>
    simp only [Work.step] at hs
    split at hs
    · cases hs
    · obtain ⟨rfl, rfl⟩ := Prod.mk.inj (Option.some.inj hs)
      repeat' split at h
      all_goals simp at h
  | pushFront next =>
    obtain ⟨rfl, rfl⟩ : _ ∧ _ := by simpa [Work.step] using hs
    split at h <;> simp at h
  | onEnter =>
    obtain ⟨rfl, rfl⟩ : _ ∧ _ := by simpa [Work.step] using hs
    unfold onEnterWork at h
    repeat' split at h
    all_goals simp at h
  | _ =>
    obtain ⟨rfl, rfl⟩ : _ ∧ _ := by simpa [Work.step] using hs
    simp at h

theorem decided_leaving {answers : Answers} {event : Event} {run timeout : ℕ}
    (hplain : scene.isCli = false)
    (h : (decided answers scene run event timeout).Leaving) : event = .back := by
  obtain ⟨hsilent, hasks⟩ := @plain_onEvent _ answers timeout event hplain
  have happ : decided answers scene run event timeout =
      .of ((onEvent answers timeout scene event).after event) := by
    simp only [decided, hsilent, AppPc.handled]
  rw [happ] at h
  by_contra hback
  rw [Handling.after, if_neg (fun h => hback h.2)] at h
  rcases leaving_of h with hwork | hwork | ⟨previous, hwork⟩
  · rw [hwork] at hasks
    cases hasks
  · exact work_onEvent_ne hplain hwork
  · rw [hwork] at hasks
    cases hasks

theorem LeftByBack.concat {ls : List Label} (h : LeftByBack ls) :
    LeftByBack (ls ++ [Label.work loaded]) := by
  obtain ⟨before, answers, works, t, rfl, ht, happ, hstart, hworks⟩ := h
  refine ⟨before, answers, works ++ [Label.work loaded], t, by simp, ht, happ, hstart, ?_⟩
  intro l hl
  rcases List.mem_append.mp hl with hl | hl
  · exact hworks l hl
  · exact ⟨loaded, List.mem_singleton.mp hl⟩

variable {ls : List Label}

theorem loops_of_run (hrun : machine.execWith (fun _ l => NoLine l) .init ls = some s) :
    Loops s := by
  have hreach := Machine.execWith_reachableWith .init hrun
  apply hreach.invariant
  · refine ⟨.work ⟨rfl, .start, rfl⟩, rfl, False.elim, ?_⟩
    rintro w ⟨⟩
    rfl
  · exact fun s l s' => loops_next

theorem leftByBack_of_run (hrun : machine.execWith (fun _ l => NoLine l) .init ls = some s)
    (hleaving : s.app.Leaving) (hstart : s.stage.currentScene = .sceneStart) : LeftByBack ls := by
  induction ls using List.reverseRecOn generalizing s with
  | nil =>
    obtain rfl := Option.some.inj hrun
    cases hleaving
  | append_singleton ls l ih =>
    obtain ⟨t, ht, hok, hs⟩ := Machine.execWith_concat hrun
    obtain ⟨halone, hcli, -, -⟩ := loops_of_run ht
    cases l with
    | work loaded =>
      simp only [machine, next] at hs
      split at hs
      · next w happ =>
        obtain ⟨⟨stage, w'⟩, hstep, rfl⟩ := Option.map_eq_some_iff.mp hs
        rw [happ] at halone
        cases halone with
        | work hfits =>
          apply LeftByBack.concat
          rcases leaving_of hleaving with rfl | hwork
          · obtain ⟨⟨previous, rfl⟩, -, -, hstart⟩ := hfits.of_step_exit hstep
            exact ih ht (by rw [happ]; trivial) hstart
          · obtain ⟨rfl, rfl⟩ := step_leaving hstep hwork
            exact ih ht (by rw [happ]; trivial) hstart
      · cases hs
    | onEvent answers =>
      simp only [machine, next] at hs
      split at hs
      · next scene run event timeout happ =>
        obtain rfl := Option.some.inj hs
        have hpoll := happ
        rw [happ] at halone
        cases halone with
        | poll run timeout event hrests hplain =>
          obtain rfl := decided_leaving hplain hleaving
          rw [hstart] at hpoll
          exact ⟨ls, answers, [], t, rfl, ht, ⟨_, _, hpoll⟩, hstart, by simp⟩
      · cases hs
    | lookup =>
      simp only [machine, next] at hs
      split at hs
      · obtain rfl := Option.some.inj hs
        cases hleaving
      · cases hs
    | timeout =>
      simp only [machine, next] at hs
      split at hs
      · obtain rfl := Option.some.inj hs
        simp only [State.readTimeout] at hleaving
        split at hleaving <;> cases hleaving
      · obtain rfl := Option.some.inj hs
        cases hleaving
      · cases hs
    | receiveEvent event =>
      simp only [machine, next] at hs
      split at hs
      · obtain rfl := Option.some.inj hs
        cases hleaving
      · cases hs
    | cliSendEvent =>
      simp only [machine, next] at hs
      split at hs
      · next result run w happ hqueue =>
        rw [happ] at halone
        cases halone
      · cases hs
    | leave =>
      simp only [machine, next] at hs
      split at hs
      · obtain rfl := Option.some.inj hs
        cases hleaving
      · cases hs
    | delete =>
      simp only [machine, next] at hs
      split at hs
      · obtain rfl := Option.some.inj hs
        cases hleaving
      · cases hs
    | line command => cases hok
    | switch loaded => simp [machine, next, hcli] at hs
    | reply => simp [machine, next, hcli] at hs

/-- The list of previous scenes is as `run` needs it, and Back in the start ends `run`. -/
theorem scene_navigation (hrun : machine.execWith (fun _ l => NoLine l) .init ls = some s) :
    Navigates s ∧ (s.app = .leave → LeftByBack ls) := by
  have hloops := loops_of_run hrun
  refine ⟨hloops.navigates, fun happ => ?_⟩
  have hleft := hloops.left (by rw [happ]; trivial)
  exact leftByBack_of_run hrun (by rw [happ]; trivial) hleft.2

/-- A key that cannot be loaded brings back to the start, where Back leaves. -/
theorem scene_navigation_leave : ∃ ls s,
    machine.execWith (fun _ l => NoLine l) .init ls = some s ∧ s.app = .leave ∧ Navigates s ∧
      LeftByBack ls := by
  obtain ⟨ls, s, hrun, happ⟩ : ∃ ls s,
      machine.execWith (fun _ l => NoLine l) .init ls = some s ∧ s.app = .leave :=
    ⟨[Label.work true, .receiveEvent (.menuSelected 1), .lookup, .timeout,
      .onEvent ⟨.empty, .ok, true, true⟩, .work true, .work true, .work true, .work true, .work false, .work true, .work true,
      .work true, .work true, .work true, .receiveEvent .back,
      .lookup, .timeout, .onEvent ⟨.empty, .ok, true, true⟩, .work true, .work true], _, rfl, rfl⟩
  have h := scene_navigation hrun
  exact ⟨ls, s, hrun, happ, h.1, h.2 happ⟩

end FlipperZero.IButton.App
