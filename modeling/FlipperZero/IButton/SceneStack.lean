import FlipperZero.IButton.Scenes

/-! # The stack of scenes

Below the current scene the list holds the scenes that led to it, down to the start
and the exit. A switch made by one thread alone keeps this, calls `on_exit` and
`on_enter` in turn and never takes a scene from an empty list.
-/

namespace FlipperZero.IButton.App

/-- The list of previous scenes that leads to a scene; no scene below it is one of the
command line. -/
inductive Trail : Scene → List Scene → Prop
  | start : Trail .sceneStart [.sceneExit]
  | next {scene previous : Scene} {scenes : List Scene} (h : Trail previous scenes)
      (hcli : previous.isCli = false) (hstart : scene ≠ .sceneStart) (hexit : scene ≠ .sceneExit) :
      Trail scene (previous :: scenes)

/-- The scene that is entered and not yet left, if the calls alternate. -/
def entered : List Call → Option (Option Scene)
  | [] => some none
  | .onEnter scene :: calls => if entered calls = some none then some (some scene) else none
  | .onExit scene :: calls => if entered calls = some (some scene) then some none else none

/-- The number of scene runs, which is the number of the last one. -/
def enters : List Call → ℕ
  | [] => 0
  | .onEnter _ :: calls => enters calls + 1
  | .onExit _ :: calls => enters calls

def lastRun (scene : Scene) : List Call → ℕ
  | [] => 0
  | .onEnter scene' :: calls => if scene' = scene then enters calls + 1 else lastRun scene calls
  | .onExit _ :: calls => lastRun scene calls

variable {scene next previous : Scene} {scenes : List Scene} {calls : List Call}
  {s s' : Stage} {w w' : Work} {loaded : Bool} {target : Option Scene}

theorem Trail.ne_exit (h : Trail scene scenes) : scene ≠ .sceneExit := by
  cases h with
  | start => decide
  | next _ _ _ hexit => exact hexit

theorem Trail.ne_nil (h : Trail scene scenes) : scenes ≠ [] := by
  cases h <;> simp

theorem Trail.exists_previous (h : Trail scene scenes) (hne : scene ≠ .sceneStart) :
    ∃ previous rest, scenes = previous :: rest ∧ Trail previous rest ∧ previous.isCli = false := by
  cases h with
  | start => exact absurd rfl hne
  | next h hcli => exact ⟨_, _, rfl, h, hcli⟩

theorem Trail.of_start (h : Trail .sceneStart scenes) : scenes = [.sceneExit] := by
  cases h with
  | start => rfl
  | next _ _ hstart => exact absurd rfl hstart

theorem ne_start_of_isCli (h : scene.isCli = true) : scene ≠ .sceneStart := by
  rintro rfl
  cases h

theorem ne_exit_of_isCli (h : scene.isCli = true) : scene ≠ .sceneExit := by
  rintro rfl
  cases h

theorem lastRun_of_entered (h : entered calls = some (some scene)) :
    lastRun scene calls = enters calls := by
  cases calls with
  | nil => cases h
  | cons call calls =>
    cases call with
    | onEnter scene' =>
      simp only [entered] at h
      split at h
      · obtain rfl : scene' = scene := by simpa using h
        simp [lastRun, enters]
      · cases h
    | onExit scene' =>
      simp only [entered] at h
      split at h
      · simp at h
      · cases h

/-- No thread is in a switch: the current scene is entered and the list leads to it. -/
structure Rests (s : Stage) : Prop where
  entered : entered s.calls = some (some s.currentScene)
  trail : Trail s.currentScene s.previousScenesList

/-- The scene that the switch of a thread may end in: the requested one, or any that is not
of the command line. -/
def Toward : Option Scene → Scene → Prop
  | none, scene => scene.isCli = false
  | some target, scene => scene = target

/-- What holds before each access of a switch that nobody disturbs. -/
def Fits (target : Option Scene) (s : Stage) : Work → Prop
  | .idle => Rests s ∧ Toward target s.currentScene
  | .exit => target = none ∧ entered s.calls = some (some s.currentScene)
  | .pushFront next => Rests s ∧ s.currentScene.isCli = false ∧ Toward target next ∧
      next ≠ .sceneStart ∧ next ≠ .sceneExit
  | .onExit next => entered s.calls = some (some s.currentScene) ∧
      Trail next s.previousScenesList ∧ Toward target next
  | .setCurrent next => entered s.calls = some none ∧ Trail next s.previousScenesList ∧
      Toward target next
  | .onEnter => entered s.calls = some none ∧ Trail s.currentScene s.previousScenesList ∧
      Toward target s.currentScene
  | .setTimeout scene => Rests s ∧ Toward target s.currentScene ∧ scene = s.currentScene
  | .loadKey => target = none ∧ Rests s ∧ s.currentScene = .sceneSelectKey
  | .searchFront scenesList => target = none ∧ scenesList ≠ [] ∧
      entered s.calls = some (some s.currentScene) ∧
      ∃ scene, scene ≠ .sceneStart ∧ Trail scene s.previousScenesList
  | .searchPop scenesList previous => target = none ∧ scenesList ≠ [] ∧
      entered s.calls = some (some s.currentScene) ∧
      ∃ rest, s.previousScenesList = previous :: rest ∧ Trail previous rest ∧
        previous.isCli = false
  | .previousFront run => target = none ∧ Rests s ∧ (run = true ∨ s.currentScene ≠ .sceneStart)
  | .previousPop previous run => target = none ∧ Rests s ∧
      s.previousScenesList.head? = some previous ∧
      (run = true ∨ s.currentScene ≠ .sceneStart)

theorem Fits.pops (h : Fits target s w) (hw : w.Pops) : s.previousScenesList ≠ [] := by
  cases w with
  | searchFront scenesList =>
    obtain ⟨-, -, -, scene, -, htrail⟩ := h
    exact htrail.ne_nil
  | searchPop scenesList previous =>
    obtain ⟨-, -, -, rest, hlist, -⟩ := h
    simp [hlist]
  | previousFront run => exact h.2.1.trail.ne_nil
  | previousPop previous run => exact h.2.1.trail.ne_nil
  | _ => cases hw

theorem Fits.entered_isSome (h : Fits target s w) : (entered s.calls).isSome := by
  cases w with
  | idle => simp [h.1.entered]
  | exit => simp [h.2]
  | pushFront next => simp [h.1.entered]
  | onExit next => simp [h.1]
  | setCurrent next => simp [h.1]
  | onEnter => simp [h.1]
  | setTimeout scene => simp [h.1.entered]
  | loadKey => simp [h.2.1.entered]
  | searchFront scenesList => simp [h.2.2.1]
  | searchPop scenesList previous => simp [h.2.2.1]
  | previousFront run => simp [h.2.1.entered]
  | previousPop previous run => simp [h.2.1.entered]

theorem rests_timeout {timeout : Scene → ℕ} : Rests { s with timeout := timeout } ↔ Rests s := by
  constructor
  · rintro ⟨hentered, htrail⟩
    exact ⟨hentered, htrail⟩
  · rintro ⟨hentered, htrail⟩
    exact ⟨hentered, htrail⟩

theorem fits_timeout {timeout : Scene → ℕ} :
    Fits target { s with timeout := timeout } w ↔ Fits target s w := by
  cases w <;> simp only [Fits, rests_timeout]

theorem fits_onEnterWork (hrests : Rests s) (htoward : Toward target s.currentScene)
    (htarget : ∀ c, target = some c → c.isCli = true) :
    Fits target s (onEnterWork s.currentScene) := by
  unfold onEnterWork
  split
  · exact ⟨hrests, htoward, rfl⟩
  · next hcli =>
    split
    · next hselect =>
      refine ⟨?_, hrests, hselect⟩
      cases target with
      | none => rfl
      | some c =>
        obtain rfl : s.currentScene = c := htoward
        exact absurd (htarget _ rfl) hcli
    · exact ⟨hrests, htoward⟩

theorem fits_found {scenesList rest : List Scene} (hne : scenesList ≠ [])
    (htrail : Trail previous rest) (hcli : previous.isCli = false)
    (hentered : entered s.calls = some (some s.currentScene)) :
    Fits none { s with previousScenesList := rest }
      (if scenesList.any fun element => previous = element ∨ previous = .sceneStart then
        .onExit previous else .searchFront scenesList) := by
  split
  · exact ⟨hentered, htrail, hcli⟩
  · next hfound =>
    obtain ⟨element, helement⟩ := List.exists_mem_of_ne_nil scenesList hne
    refine ⟨rfl, hne, hentered, previous, ?_, htrail⟩
    rintro rfl
    apply hfound
    exact List.any_eq_true.mpr ⟨element, helement, by simp⟩

theorem fits_step (h : Fits target s w) (htarget : ∀ c, target = some c → c.isCli = true)
    (hs : w.step s loaded = some (s', w')) : Fits target s' w' := by
  cases w with
  | idle => cases hs
  | exit => cases hs
  | pushFront next =>
    obtain ⟨hrests, hcli, htoward, hstart, hexit⟩ := h
    obtain ⟨rfl, rfl⟩ : _ ∧ _ := by simpa [Work.step] using hs
    rw [if_neg hexit]
    exact ⟨hrests.entered, .next hrests.trail hcli hstart hexit, htoward⟩
  | onExit next =>
    obtain ⟨hentered, htrail, htoward⟩ := h
    obtain ⟨rfl, rfl⟩ : _ ∧ _ := by simpa [Work.step] using hs
    refine ⟨?_, htrail, htoward⟩
    simp [entered, hentered]
  | setCurrent next =>
    obtain ⟨rfl, rfl⟩ : _ ∧ _ := by simpa [Work.step] using hs
    exact h
  | onEnter =>
    obtain ⟨hentered, htrail, htoward⟩ := h
    obtain ⟨rfl, rfl⟩ : _ ∧ _ := by simpa [Work.step] using hs
    refine fits_onEnterWork ⟨?_, htrail⟩ htoward htarget
    simp [entered, hentered]
  | setTimeout scene =>
    obtain ⟨hrests, htoward, rfl⟩ := h
    obtain ⟨rfl, rfl⟩ : _ ∧ _ := by simpa [Work.step] using hs
    exact ⟨rests_timeout.mpr hrests, htoward⟩
  | loadKey =>
    obtain ⟨rfl, hrests, hselect⟩ := h
    obtain ⟨rfl, rfl⟩ : _ ∧ _ := by simpa [Work.step] using hs
    split
    · refine ⟨hrests, ?_, rfl, by decide, by decide⟩
      rw [hselect]
      rfl
    · refine ⟨rfl, hrests, .inr ?_⟩
      simp [hselect]
  | searchFront scenesList =>
    obtain ⟨rfl, hne, hentered, scene, hstart, htrail⟩ := h
    obtain ⟨previous, rest, hlist, hprevious, hcli⟩ := htrail.exists_previous hstart
    obtain ⟨rfl, rfl⟩ : _ ∧ _ := by simpa [Work.step, hlist] using hs
    exact ⟨rfl, hne, hentered, rest, hlist, hprevious, hcli⟩
  | searchPop scenesList previous =>
    obtain ⟨rfl, hne, hentered, rest, hlist, htrail, hcli⟩ := h
    simp only [Work.step, hlist, Option.some.injEq, Prod.mk.injEq] at hs
    obtain ⟨rfl, rfl⟩ := hs
    exact fits_found hne htrail hcli hentered
  | previousFront run =>
    obtain ⟨rfl, hrests, hrun⟩ := h
    obtain ⟨previous, hhead, he⟩ := Option.map_eq_some_iff.mp hs
    obtain ⟨rfl, rfl⟩ := Prod.mk.inj he
    exact ⟨rfl, hrests, hhead, hrun⟩
  | previousPop previous run =>
    obtain ⟨rfl, hrests, hhead, hrun⟩ := h
    obtain ⟨rest, hlist⟩ := List.head?_eq_some_iff.mp hhead
    simp only [Work.step, hlist, Option.some.injEq, Prod.mk.injEq] at hs
    obtain ⟨rfl, rfl⟩ := hs
    by_cases hstart : s.currentScene = .sceneStart
    · have hexit := (hstart ▸ hrests.trail).of_start
      obtain ⟨rfl, rfl⟩ : previous = .sceneExit ∧ rest = [] := by simpa [hlist] using hexit
      have hrun : run = true := hrun.resolve_right (absurd hstart)
      rw [if_pos rfl, if_pos hrun]
      exact ⟨rfl, hrests.entered⟩
    · obtain ⟨previous', rest', he, hprevious, hcli⟩ := hrests.trail.exists_previous hstart
      obtain ⟨rfl, rfl⟩ : previous = previous' ∧ rest = rest' := by simpa [hlist] using he
      rw [if_neg hprevious.ne_exit]
      exact ⟨hrests.entered, hprevious, hcli⟩

/-- The switches that a scene other than those of the command line asks for. -/
def Asks (scene : Scene) : Work → Prop
  | .idle => True
  | .pushFront next => next.isCli = false ∧ next ≠ .sceneStart ∧ next ≠ .sceneExit
  | .searchFront scenesList => scenesList ≠ [] ∧ scene ≠ .sceneStart
  | .previousFront run => run = true ∨ scene ≠ .sceneStart
  | _ => False

theorem Asks.fits (h : Asks s.currentScene w) (hrests : Rests s)
    (hcli : s.currentScene.isCli = false) : Fits none s w := by
  cases w with
  | idle => exact ⟨hrests, hcli⟩
  | pushFront next => exact ⟨hrests, hcli, h⟩
  | searchFront scenesList => exact ⟨rfl, h.1, hrests.entered, _, h.2, hrests.trail⟩
  | previousFront run => exact ⟨rfl, hrests, h⟩
  | _ => cases h

variable {answers : Answers} {timeout : ℕ} {event : Event}

theorem asks_after {handling : Handling} (h : Asks scene handling.work) :
    Asks scene (handling.after event) := by
  unfold Handling.after
  split
  · exact .inl rfl
  · exact h

/-- The scene asks for a switch of its own and has no result to send. -/
def Handling.Plain (scene : Scene) (handling : Handling) : Prop :=
  handling.cliSendEvent = none ∧ Asks scene handling.work

theorem plain_ignore : Handling.Plain scene .ignore := ⟨rfl, trivial⟩

theorem plain_switch (h : Asks scene w) : Handling.Plain scene (.switch w) := ⟨rfl, h⟩

theorem plain_readDialogOnEvent (h : scene ≠ .sceneStart) :
    (readDialogOnEvent event).Plain scene := by
  unfold readDialogOnEvent
  split
  · exact plain_switch (by simp [switchToNextScene, Asks, Scene.isCli])
  · exact plain_switch (.inr h)
  · exact plain_ignore

theorem plain_onEvent (hcli : scene.isCli = false) :
    (onEvent answers timeout scene event).Plain scene := by
  cases scene with
  | sceneCliRead => cases hcli
  | sceneCliWrite => cases hcli
  | sceneCliEmulate => cases hcli
  | sceneReadSuccess => exact plain_readDialogOnEvent (by decide)
  | sceneReadCRCError => exact plain_readDialogOnEvent (by decide)
  | sceneReadNotKeyError => exact plain_readDialogOnEvent (by decide)
  | sceneExit => exact plain_ignore
  | sceneSelectKey => exact plain_ignore
  | _ =>
    dsimp only [onEvent, sceneStartOnEvent, sceneReadOnEvent, sceneReadedKeyMenuOnEvent,
      sceneWriteOnEvent, sceneWriteSuccessOnEvent, sceneEmulateOnEvent, sceneSavedKeyMenuOnEvent,
      sceneDeleteConfirmOnEvent, sceneDeleteSuccessOnEvent, sceneSaveNameOnEvent,
      sceneSaveSuccessOnEvent, sceneInfoOnEvent, sceneAddTypeOnEvent, sceneAddValueOnEvent]
    repeat' split
    all_goals simp [Handling.Plain, Handling.switch, Handling.stay, Handling.ignore, Asks,
      switchToNextScene, searchAndSwitchToPreviousScene, switchToPreviousScene, saveScenesList,
      Scene.isCli]

/-- What a scene of the command line does with an event. -/
inductive Polled (timeout : ℕ) : Event → Handling → Prop
  | stay (h : timeout ≠ 0) : Polled timeout .tick .stay
  | finish (result : CliEvent) : Polled timeout .tick (.finish result)
  | interrupt : Polled timeout .back ⟨some .cliInterrupt, .idle, false⟩
  | ignore {event : Event} (htick : event ≠ .tick) (hback : event ≠ .back) :
      Polled timeout event .ignore

theorem polled_cliOnEvent {poll : Handling}
    (h : poll = .stay ∨ ∃ result, poll = .finish result) :
    Polled timeout event (cliOnEvent timeout poll event) := by
  unfold cliOnEvent
  split
  · split
    · exact .finish .cliTimeout
    · next hne =>
      rcases h with rfl | ⟨result, rfl⟩
      · exact .stay hne
      · exact .finish result
  · exact .interrupt
  · next htick hback => exact .ignore htick hback

theorem polled_onEvent (hcli : scene.isCli = true) :
    Polled timeout event (onEvent answers timeout scene event) := by
  cases scene with
  | sceneCliRead =>
    apply polled_cliOnEvent
    cases answers.read <;> simp
  | sceneCliWrite =>
    apply polled_cliOnEvent
    cases answers.write <;> simp
  | sceneCliEmulate => exact polled_cliOnEvent (.inl rfl)
  | _ => cases hcli

end FlipperZero.IButton.App
