import Mathlib.Order.Nat
import Mathlib.Tactic.SplitIfs
import FlipperZero.Dolphin.Scene

/-! # Runs of the scenes

Whatever keys come and whatever `random` returns, each step stays within its tables and keeps the
dolphin in its world. Two of the texts are stored past the ends of their buffers, at the ticks where
they are complete. The dolphin that nobody steers any more picks its own actions again as soon as
its time is up, unless it was let go while it was walking.
-/

namespace FlipperZero.Dolphin

open Lib Gui

namespace SceneState

variable {s s' : SceneState}

/-- The indices are within the tables, the dolphin is in its world, and no application was started
more often than asked for. -/
structure Ranges (uses : ℕ) (s : SceneState) : Prop where
  action : s.action < defaultTimeout.length
  nextAction : s.nextAction < actionsNum
  prevAction : s.prevAction < defaultTimeout.length
  timeout : s.actionTimeout ≤ 300
  position : 0 ≤ s.playerGlobal ∧ s.playerGlobal ≤ worldWidth
  poi : s.poi < 256
  scene : s.sceneId = 0
  emote : s.emoteId < emotesNum
  previousEmote : s.previousEmote = 0
  dialogue : s.dialogueId = 0
  zoom : 0 ≤ s.zoom ∧ s.zoom ≤ sceneZoom
  player : 0 ≤ s.player.x ∧ s.player.x ≤ dolphinCenter ∧ 3 ≤ s.player.y ∧ s.player.y ≤ dolphinDefaultY
  progress : s.dialogProgress ≤ 35
  uses : s.started.length + s.usePending.toNat ≤ uses

variable {uses : ℕ}

theorem ranges_alloc (random : ℕ) : (alloc random).Ranges 0 where
  action := (by decide : Actions.sleep < defaultTimeout.length)
  nextAction := (by decide : Actions.sleep < actionsNum)
  prevAction := (by decide : Actions.sleep < defaultTimeout.length)
  timeout := Nat.zero_le _
  position := by
    simp only [alloc, worldWidth]
    omega
  poi := (by decide : 0 < 256)
  scene := rfl
  emote := (by decide : 0 < emotesNum)
  previousEmote := rfl
  dialogue := rfl
  zoom := (by decide : (0 : ℤ) ≤ 0 ∧ 0 ≤ sceneZoom)
  player := (by decide : 0 ≤ dolphinCenter ∧ dolphinCenter ≤ dolphinCenter ∧
    3 ≤ dolphinDefaultY ∧ dolphinDefaultY ≤ dolphinDefaultY)
  progress := Nat.zero_le _
  uses := Nat.le_refl _

theorem Ranges.mono (h : s.Ranges uses) {uses' : ℕ} (hle : uses ≤ uses') : s.Ranges uses' :=
  { h with uses := h.uses.trans hle }

theorem mindcontrol_lt : Actions.mindcontrol < defaultTimeout.length := by decide

theorem interact_lt : Actions.interact < defaultTimeout.length := by decide

section Control

theorem Ranges.inputDebug (h : s.Ranges uses) (input : InputEvent) : (inputDebug input s).Ranges uses := by
  unfold SceneState.inputDebug
  split_ifs
  · exact { h with }
  · exact h

theorem Ranges.inputTakeOver (h : s.Ranges uses) (input : InputEvent) :
    (inputTakeOver input s).Ranges uses := by
  unfold SceneState.inputTakeOver
  split_ifs
  · exact { h with action := mindcontrol_lt }
  · exact h

theorem Ranges.inputZoom (h : s.Ranges uses) (input : InputEvent) : (inputZoom input s).Ranges uses := by
  unfold SceneState.inputZoom
  split_ifs
  · exact { h with }
  · exact h
  · exact { h with progress := Nat.zero_le _ }
  · exact h
  · exact h

/-- How often OK has asked for the thing next to the dolphin, after one more input. -/
def usesAfter (input : InputEvent) (uses : ℕ) : ℕ := if input = ⟨.ok, .short⟩ then uses + 1 else uses

theorem le_usesAfter (input : InputEvent) (uses : ℕ) : uses ≤ usesAfter input uses := by
  unfold usesAfter
  split
  · exact Nat.le_succ _
  · exact Nat.le_refl _

theorem Ranges.inputMindcontrol (h : s.Ranges uses) (input : InputEvent) :
    (inputMindcontrol input s).Ranges (usesAfter input uses) := by
  have hle := le_usesAfter input uses
  unfold SceneState.inputMindcontrol
  split_ifs with _ _ _ _ _ _ hshort hok
  · exact { h.mono hle with }
  · exact { h.mono hle with }
  · exact h.mono hle
  · exact { h.mono hle with }
  · exact h.mono hle
  · have hinput : input = ⟨.ok, .short⟩ := by
      cases input
      subst hshort hok
      rfl
    have huses : s.started.length + 1 ≤ usesAfter input uses := by
      rw [usesAfter, if_pos hinput]
      exact Nat.succ_le_succ ((Nat.le_add_right _ _).trans h.uses)
    exact { h with
      action := interact_lt
      prevAction := mindcontrol_lt
      timeout := Nat.zero_le _
      uses := huses }
  · exact h.mono hle
  · exact h.mono hle
  · exact h.mono hle

theorem Ranges.handleUserInput (h : s.Ranges uses) (input : InputEvent) :
    (handleUserInput input s).Ranges (usesAfter input uses) :=
  (((h.inputDebug input).inputTakeOver input).inputZoom input).inputMindcontrol input

end Control

section Tick

theorem clamp_mem (x : ℤ) {lower upper : ℤ} (h : lower ≤ upper) :
    lower ≤ clamp x upper lower ∧ clamp x upper lower ≤ upper := by
  unfold clamp
  omega

theorem Ranges.coordinates (h : s.Ranges uses) : s.coordinates.Ranges uses :=
  { h with
    position := clamp_mem _ (by decide)
    zoom := clamp_mem _ (by decide)
    player := and_assoc.mp ⟨clamp_mem _ (by decide), clamp_mem _ (by decide)⟩ }

theorem rollNew_lt {prev max : ℕ} (random : ℕ) (hprev : prev < 999) (hmax : 0 < max) :
    rollNew prev max random < max := by
  rw [rollNew, if_neg hprev.ne']
  exact Nat.mod_lt _ hmax

theorem rollAction_lt {prev : ℕ} (random : ℕ) (hprev : prev < defaultTimeout.length) :
    rollNew prev actionsNum random % 256 < actionsNum :=
  (Nat.mod_le _ _).trans_lt (rollNew_lt random (hprev.trans (by decide)) (by decide))

theorem defaultTimeout_le {action timeout : ℕ} (h : defaultTimeout[action]? = some timeout) :
    timeout ≤ 300 :=
  (by decide : ∀ timeout ∈ defaultTimeout, timeout ≤ 300) _ (List.mem_of_getElem? h)

theorem Ranges.nextAction_lt (h : s.Ranges uses) (random : ℕ) :
    (if s.action ≠ s.nextAction then s.nextAction
      else rollNew s.nextAction actionsNum random % 256) < actionsNum := by
  split
  · exact h.nextAction
  · exact rollAction_lt random (h.nextAction.trans (by decide))

theorem Ranges.proceedAction (h : s.Ranges uses) (random : ℕ) :
    ∃ s', s.proceedAction random = some s' ∧ s'.Ranges uses := by
  have hlt : _ < defaultTimeout.length := (h.nextAction_lt random).trans (by decide)
  have htimeout := List.getElem?_eq_getElem hlt
  dsimp only [SceneState.proceedAction]
  rw [htimeout]
  refine ⟨_, rfl, ?_⟩
  exact { h with
    action := hlt
    prevAction := h.action
    timeout := defaultTimeout_le htimeout }

theorem Ranges.proceedAction_lt (h : s.Ranges uses) {random : ℕ}
    (hs : s.proceedAction random = some s') : s'.action < actionsNum := by
  obtain ⟨timeout, -, rfl⟩ := Option.map_eq_some_iff.mp hs
  exact h.nextAction_lt random

theorem Ranges.goToPoi (h : s.Ranges uses) : s.goToPoi.Ranges uses := by
  unfold SceneState.goToPoi
  split_ifs
  · exact { h with }
  · exact { h with }
  · exact h

theorem Ranges.rollPoi (h : s.Ranges uses) (random : ℕ) : (s.rollPoi random).Ranges uses :=
  { h with poi := Nat.mod_lt _ (by decide) }

theorem Ranges.countDown (h : s.Ranges uses) (r : Rolls) : (s.countDown r).Ranges uses := by
  unfold SceneState.countDown
  split_ifs
  · exact { h with timeout := (Nat.sub_le _ _).trans h.timeout }
  · have hnext := rollAction_lt r.next h.prevAction
    have hset : Ranges uses { s with nextAction := rollNew s.prevAction actionsNum r.next % 256 } :=
      { h with nextAction := hnext }
    exact hset.rollPoi r.poi
  · exact h

theorem Ranges.holdTimeout (h : s.Ranges uses) : ∃ s', s.holdTimeout = some s' ∧ s'.Ranges uses := by
  unfold SceneState.holdTimeout
  split_ifs
  · have htimeout := List.getElem?_eq_getElem h.action
    rw [htimeout]
    exact ⟨_, rfl, { h with timeout := defaultTimeout_le htimeout }⟩
  · exact ⟨s, rfl, h⟩

theorem Ranges.actionHandler (h : s.Ranges uses) (r : Rolls) :
    ∃ s', s.actionHandler r = some s' ∧ s'.Ranges uses := by
  obtain ⟨t, ht, htr⟩ := h.holdTimeout
  refine ⟨t.countDown r, ?_, htr.countDown r⟩
  rw [SceneState.actionHandler, ht]
  rfl

theorem Ranges.timeUp (h : s.Ranges uses) (r : Rolls) : ∃ s', s.timeUp r = some s' ∧ s'.Ranges uses := by
  unfold SceneState.timeUp
  split_ifs
  · exact h.proceedAction r.action
  · exact ⟨s, rfl, h⟩

theorem Ranges.updateInteract (h : s.Ranges uses) (r : Rolls) :
    ∃ s', s.updateInteract r = some s' ∧ s'.Ranges uses := by
  unfold SceneState.updateInteract
  split_ifs
  · exact ⟨_, rfl, { h with action := mindcontrol_lt }⟩
  · exact h.proceedAction r.action
  · exact ⟨s, rfl, h⟩

theorem Ranges.updateWalk (h : s.Ranges uses) (r : Rolls) :
    ∃ s', s.updateWalk r = some s' ∧ s'.Ranges uses := by
  unfold SceneState.updateWalk
  split_ifs
  · have hstop : Ranges uses { s with playerV := 0 } := { h with }
    exact hstop.proceedAction r.action
  · exact ⟨_, rfl, h.goToPoi⟩

theorem Ranges.updateEmote (h : s.Ranges uses) (r : Rolls) :
    ∃ s', s.updateEmote r = some s' ∧ s'.Ranges uses := by
  have hface : Ranges uses { s with playerFlipped := false } := { h with }
  dsimp only [SceneState.updateEmote]
  split_ifs
  · obtain ⟨t, ht, htr⟩ := hface.proceedAction r.action
    have hemote : rollNew t.previousEmote emotesNum r.emote % 256 < emotesNum := by
      rw [htr.previousEmote]
      exact (Nat.mod_le _ _).trans_lt (rollNew_lt _ (by decide) (by decide))
    rw [ht]
    exact ⟨_, rfl, { htr with emote := hemote }⟩
  · exact hface.updateInteract r

theorem Ranges.updateSleep (h : s.Ranges uses) (r : Rolls) :
    ∃ s', s.updateSleep r = some s' ∧ s'.Ranges uses := by
  dsimp only [SceneState.updateSleep]
  split_ifs
  · have hpoi : Ranges uses { s with poi := 154 } := { h with poi := (by decide : 154 < 256) }
    exact hpoi.timeUp r
  · exact h.goToPoi.timeUp r
  · have hstop : Ranges uses { s with playerV := 0 } := { h with }
    exact (hstop.rollPoi r.sleepPoi).proceedAction r.action
  · exact ⟨_, rfl, { h with }⟩

theorem Ranges.updateAction (h : s.Ranges uses) (r : Rolls) :
    ∃ s', s.updateAction r = some s' ∧ s'.Ranges uses := by
  unfold SceneState.updateAction
  split_ifs
  · exact h.updateWalk r
  · exact h.updateEmote r
  · exact h.updateInteract r
  · exact h.updateSleep r
  · exact h.timeUp r

theorem Ranges.tickHandler (h : s.Ranges uses) (r : Rolls) :
    ∃ s', s.tickHandler r = some s' ∧ s'.Ranges uses := by
  obtain ⟨t, ht, htr⟩ := h.coordinates.actionHandler r
  obtain ⟨s', hs', hr⟩ := htr.updateAction r
  refine ⟨s', ?_, hr⟩
  rw [SceneState.tickHandler, updateState, ht]
  exact hs'

end Tick

section Draw

theorem Ranges.isNearby (h : s.Ranges uses) : ∃ near, s.isNearby = some near ∧
    ∀ item, near = some item → item ∈ home := by
  have hscene : s.getScene = some home := by
    rw [getScene, h.scene]
    rfl
  refine ⟨_, by rw [SceneState.isNearby, hscene]; rfl, ?_⟩
  exact fun item hitem => List.mem_of_find?_eq_some hitem

theorem Ranges.startApp (h : s.Ranges uses) (index : ℕ) (hlt : index < flipperSceneApps.length)
    (hpending : s.usePending = true) : ∃ s', s.startApp index = some s' ∧
      Ranges uses { s' with usePending := false } := by
  have huses : (s.started ++ [flipperSceneApps[index]]).length + false.toNat ≤ uses := by
    rw [List.length_append]
    have := h.uses
    rw [hpending] at this
    exact this
  rw [SceneState.startApp, List.getElem?_eq_getElem hlt]
  exact ⟨_, rfl, { h with uses := huses }⟩

theorem Ranges.callback (h : s.Ranges uses) {item : Item} (hitem : item ∈ home) :
    ∃ s', item.callback s = some s' ∧ Ranges uses { s' with usePending := false } ∧
      (s.usePending = false → s'.Ranges uses) := by
  have hnone : Ranges uses { s with usePending := false } :=
    { h with uses := (Nat.add_le_add_left (Nat.zero_le _) _).trans h.uses }
  simp only [home, List.mem_cons, List.not_mem_nil, or_false] at hitem
  obtain rfl | rfl | rfl | rfl := hitem
  · exact ⟨_, rfl, { hnone with }, fun _ => { h with }⟩
  · have hposition : (0 : ℤ) ≤ 154 ∧ (154 : ℤ) ≤ worldWidth := by decide
    exact ⟨_, rfl, { hnone with position := hposition }, fun _ => { h with position := hposition }⟩
  · by_cases hpending : s.usePending = true
    · obtain ⟨s', hs', hr⟩ := h.startApp 0 (by decide) hpending
      refine ⟨s', ?_, hr, fun hfalse => absurd (hpending.symm.trans hfalse) (by decide)⟩
      simp only [painting, inspectPainting, hpending]
      exact hs'
    · refine ⟨s, ?_, hnone, fun _ => h⟩
      simp only [painting, inspectPainting, if_neg hpending]
  · by_cases hpending : s.usePending = true
    · obtain ⟨s', hs', hr⟩ := h.startApp 1 (by decide) hpending
      refine ⟨s', ?_, hr, fun hfalse => absurd (hpending.symm.trans hfalse) (by decide)⟩
      simp only [pc, pcCallback, hpending]
      exact hs'
    · refine ⟨s, ?_, hnone, fun _ => h⟩
      simp only [pc, pcCallback, if_neg hpending]

theorem Ranges.activateItemCallback (h : s.Ranges uses) :
    ∃ s', s.activateItemCallback = some s' ∧ s'.Ranges uses := by
  obtain ⟨near, hnear, hmem⟩ := h.isNearby
  unfold SceneState.activateItemCallback
  rw [hnear]
  cases near with
  | none => exact ⟨s, rfl, h⟩
  | some item =>
    have hitem := hmem item rfl
    have htimeout : item.timeout ≤ 300 :=
      (by decide : ∀ timeout ∈ home.map Item.timeout, timeout ≤ 300) _ (List.mem_map_of_mem hitem)
    by_cases hpending : s.usePending = true
    · have hset : Ranges uses { s with actionTimeout := item.timeout } := { h with timeout := htimeout }
      obtain ⟨s', hs', hr, -⟩ := hset.callback hitem
      dsimp only [Option.bind_some]
      rw [if_pos hpending, hs']
      exact ⟨_, rfl, hr⟩
    · obtain ⟨s', hs', -, hr⟩ := h.callback hitem
      dsimp only [Option.bind_some]
      rw [if_neg hpending]
      exact ⟨s', hs', hr (Bool.eq_false_iff.mpr hpending)⟩

theorem Ranges.drawDots (h : s.Ranges uses) {length : ℕ} (hlength : length ≤ 35) (visible : Prop)
    [Decidable visible] : (s.drawDots length visible).1.Ranges uses ∧
      ((∀ a ∈ (s.drawDots length visible).2, a.Defined) ↔
        ¬(visible ∧ s.actionTimeout % 10 = 0 ∧ s.dialogProgress + 1 = length)) := by
  unfold SceneState.drawDots
  split_ifs with hvisible hlt hten
  · refine ⟨{ h with progress := Nat.le_trans hlt hlength }, ?_⟩
    simp only [List.mem_singleton, forall_eq, Access.Defined, hvisible, hten, true_and]
    omega
  · refine ⟨{ h with }, ?_⟩
    simp only [List.mem_singleton, forall_eq, Access.Defined, hten, false_and, and_false,
      not_false_eq_true, iff_true]
    omega
  · refine ⟨h, ?_⟩
    simp only [List.not_mem_nil, false_implies, implies_true, true_iff]
    omega
  · refine ⟨{ h with progress := Nat.zero_le _ }, ?_⟩
    simp only [List.not_mem_nil, false_implies, implies_true, hvisible, false_and,
      not_false_eq_true]

theorem Ranges.drawDialog (h : s.Ranges uses) : ∃ s' accesses,
    s.drawDialog = some (s', accesses) ∧ s'.Ranges uses ∧ ∀ a ∈ accesses, a.Defined := by
  obtain ⟨dialogue, hdialogue, hlength⟩ : ∃ dialogue, dialoguesList[s.dialogueId]? = some dialogue ∧
      dialogue.length = 34 := ⟨_, by rw [h.dialogue]; rfl, rfl⟩
  unfold SceneState.drawDialog
  rw [hdialogue, Option.map_some, hlength]
  have hprogress := h.progress
  split
  · next hle =>
    have hnext : (if s.actionTimeout % 2 = 0 then s.dialogProgress + 1 else s.dialogProgress) % 256 ≤
        35 := by
      split
      · omega
      · omega
    refine ⟨_, _, rfl, { h with progress := hnext }, ?_⟩
    simp only [List.forall_mem_cons, Access.Defined, List.not_mem_nil, false_implies, implies_true,
      and_true]
    refine ⟨by decide, ?_, ?_⟩
    · omega
    · omega
  · refine ⟨_, _, rfl, h, ?_⟩
    simp only [List.forall_mem_cons, Access.Defined, List.not_mem_nil, false_implies, implies_true,
      and_true]
    decide

theorem not_defined_glitch {timeout : ℕ} (h : 0 < timeout) (name : String) :
    ¬ ∀ a ∈ glitch timeout name, a.Defined := by
  intro hall
  have hmem : Access.remainder 0 ∈ glitch timeout name :=
    List.mem_flatMap.mpr ⟨0, List.mem_range.mpr h, List.mem_cons_self⟩
  exact hall _ hmem rfl

theorem Ranges.drawHint (h : s.Ranges uses) (glitching : Bool)
    (hglitching : glitching = true → 0 < s.actionTimeout) : ∃ accesses,
    s.drawHint glitching = some accesses ∧
      ((∀ a ∈ accesses, a.Defined) ↔ ¬(glitching = true ∧ s.isNearby ≠ some none)) := by
  obtain ⟨near, hnear, hmem⟩ := h.isNearby
  unfold SceneState.drawHint
  rw [hnear, Option.map_some]
  refine ⟨_, rfl, ?_⟩
  cases near with
  | none => simp
  | some item =>
    have hname : item.actionName.length < 32 :=
      (by decide : ∀ name ∈ home.map Item.actionName, name.length < 32) _
        (List.mem_map_of_mem (hmem item rfl))
    cases glitching with
    | false => simpa [Access.Defined] using hname
    | true =>
      have hnot := not_defined_glitch (hglitching rfl) item.actionName
      simp only [if_true, List.forall_mem_cons, hnot, and_false, true_and, false_iff, not_not]
      exact fun heq => by cases Option.some.inj heq

theorem Ranges.drawDebug (h : s.Ranges uses) : ∃ accesses, s.drawDebug = some accesses ∧
    ∀ a ∈ accesses, a.Defined := by
  unfold SceneState.drawDebug
  split
  · have haction : s.action < actionStr.length := h.action
    have htext : actionStr[s.action].length ≤ 6 :=
      (by decide : ∀ text ∈ actionStr, text.length ≤ 6) _ (List.getElem_mem haction)
    refine ⟨_, by rw [debugText, List.getElem?_eq_getElem haction]; rfl, ?_⟩
    obtain ⟨x, hx⟩ := Int.eq_ofNat_of_zero_le h.position.1
    have hxle : x < 10 ^ 4 := by
      have hle := h.position.2
      rw [hx, worldWidth] at hle
      omega
    have hlengthX : (toString s.playerGlobal).length ≤ 4 := by
      rw [hx]
      exact (Nat.length_repr_le_iff (by decide)).mpr hxle
    have hlengthPoi : (toString s.poi).length ≤ 3 :=
      (Nat.length_repr_le_iff (by decide)).mpr (h.poi.trans (by decide))
    have hlengthTimeout : (toString s.actionTimeout).length ≤ 3 :=
      (Nat.length_repr_le_iff (by decide)).mpr (h.timeout.trans_lt (by decide))
    simp only [List.mem_singleton, forall_eq, Access.Defined, String.length_append]
    have h1 : "x:".length = 2 := rfl
    have h2 : ">".length = 1 := rfl
    have h3 : " ".length = 1 := rfl
    omega
  · exact ⟨[], rfl, by simp⟩

/-- The draws that do what the language leaves undefined. -/
def Overruns (s : SceneState) : Prop :=
  s.zoom ≠ sceneZoom ∧
    (s.action = Actions.mindcontrol ∧ 45 < s.actionTimeout ∧ s.isNearby ≠ some none ∨
      s.action = Actions.sleep ∧ (s.playerGlobal = 154 ∧ s.actionTimeout % 100 < 50) ∧
        s.actionTimeout % 10 = 0 ∧ s.dialogProgress + 1 = 6 ∨
      s.action = Actions.idle ∧ s.actionTimeout % 100 < 50 ∧
        s.actionTimeout % 10 = 0 ∧ s.dialogProgress + 1 = 3)

theorem Ranges.drawAction (h : s.Ranges uses) : ∃ s' accesses,
    s.drawAction = some (s', accesses) ∧ s'.Ranges uses ∧
      ((∀ a ∈ accesses, a.Defined) ↔ ¬s.Overruns) := by
  have haction := h.action
  unfold SceneState.drawAction Overruns
  split_ifs with hzoom hemote hlt hmind hinteract hsleep hidle
  · obtain ⟨s', accesses, hs', hr, hdefined⟩ := h.drawDialog
    exact ⟨s', accesses, hs', hr, by simpa [hzoom] using hdefined⟩
  · exact ⟨s, [], rfl, h, by simp [hemote, Actions.emote, Actions.mindcontrol, Actions.idle]⟩
  · exact absurd h.emote hlt
  · obtain ⟨accesses, ha, hdefined⟩ := h.drawHint (45 < s.actionTimeout)
      fun hlt => (Nat.zero_le _).trans_lt (of_decide_eq_true hlt)
    refine ⟨s, accesses, by rw [ha]; rfl, h, hdefined.trans ?_⟩
    simp [hzoom, hmind, Actions.mindcontrol, Actions.idle]
  · obtain ⟨s', hs', hr⟩ := h.activateItemCallback
    exact ⟨s', [], by rw [hs']; rfl, hr, by simp [hinteract, Actions.interact, Actions.mindcontrol, Actions.idle]⟩
  · obtain ⟨hr, hdefined⟩ := h.drawDots (by decide : 6 ≤ 35)
      (s.playerGlobal = 154 ∧ s.actionTimeout % 100 < 50)
    refine ⟨_, _, rfl, hr, hdefined.trans ?_⟩
    simp [hzoom, hsleep]
  · obtain ⟨hr, hdefined⟩ := h.drawDots (by decide : 3 ≤ 35) (s.actionTimeout % 100 < 50)
    refine ⟨_, _, rfl, hr, hdefined.trans ?_⟩
    simp [hzoom, hidle, Actions.mindcontrol, Actions.idle]
  · exact ⟨s, [], rfl, h, by simp [hmind, hsleep, hidle]⟩

/-- Drawing keeps to the tables; what it stores and divides is defined except in the draws named. -/
theorem Ranges.renderState (h : s.Ranges uses) : ∃ s' accesses,
    s.renderState = some (s', accesses) ∧ s'.Ranges uses ∧
      ((∀ a ∈ accesses, a.Defined) ↔ ¬s.Overruns) := by
  obtain ⟨debug, hdebug, hdefined⟩ := h.drawDebug
  obtain ⟨s', accesses, hs', hr, hiff⟩ := h.drawAction
  refine ⟨s', debug ++ accesses, ?_, hr, ?_⟩
  · rw [SceneState.renderState, hdebug, Option.bind_some, hs']
    rfl
  · rw [List.forall_mem_append, and_iff_right hdefined, hiff]

end Draw

section Steered

theorem updateAction_mindcontrol (r : Rolls) (h : s.action = Actions.mindcontrol) :
    s.updateAction r = s.timeUp r := by
  simp [updateAction, h, Actions.mindcontrol, Actions.walk, Actions.emote, Actions.interact,
    Actions.sleep]

theorem tickHandler_moving {r : Rolls} (haction : s.action = Actions.mindcontrol)
    (hmoving : s.playerV ≠ 0) (hs : s.tickHandler r = some s') :
    s'.action = Actions.mindcontrol ∧ s'.playerV = s.playerV := by
  have hhold : s.coordinates.holdTimeout = some { s.coordinates with actionTimeout := 50 } := by
    rw [holdTimeout, if_pos ⟨haction, hmoving⟩]
    simp only [coordinates, haction]
    rfl
  have hcount : s.coordinates.actionHandler r = some { s.coordinates with actionTimeout := 49 } := by
    rw [actionHandler, hhold]
    rfl
  have haction' : SceneState.action { s.coordinates with actionTimeout := 49 } =
      Actions.mindcontrol := haction
  rw [tickHandler, updateState, hcount, Option.bind_some, updateAction_mindcontrol r haction'] at hs
  obtain rfl := Option.some.inj hs
  exact ⟨haction, rfl⟩

theorem Ranges.tickHandler_still (h : s.Ranges uses) {r : Rolls}
    (haction : s.action = Actions.mindcontrol) (hstill : s.playerV = 0)
    (hs : s.tickHandler r = some s') :
    (s.actionTimeout ≤ 1 → s'.action < actionsNum) ∧
      (1 < s.actionTimeout → s'.action = Actions.mindcontrol ∧ s'.playerV = 0 ∧
        s'.actionTimeout = s.actionTimeout - 1) := by
  have hhold : s.coordinates.holdTimeout = some s.coordinates :=
    if_neg fun hmoving => hmoving.2 hstill
  have hcount : s.coordinates.actionHandler r = some (s.coordinates.countDown r) := by
    rw [SceneState.actionHandler, hhold]
    rfl
  have hcountAction : (s.coordinates.countDown r).action = Actions.mindcontrol := by
    unfold SceneState.countDown
    split_ifs
    · exact haction
    · exact haction
    · exact haction
  rw [SceneState.tickHandler, updateState, hcount, Option.bind_some,
    updateAction_mindcontrol r hcountAction] at hs
  constructor
  · intro hle
    have hzero : (s.coordinates.countDown r).actionTimeout = 0 := by
      have htimeout : s.coordinates.actionTimeout = s.actionTimeout := rfl
      unfold SceneState.countDown
      split_ifs
      · dsimp only
        omega
      · dsimp only [SceneState.rollPoi]
        omega
      · omega
    rw [SceneState.timeUp, if_pos hzero] at hs
    exact (h.coordinates.countDown r).proceedAction_lt hs
  · intro hlt
    have hdown : s.coordinates.countDown r =
        { s.coordinates with actionTimeout := s.actionTimeout - 1 } :=
      if_pos (Nat.lt_of_succ_lt hlt)
    rw [hdown, SceneState.timeUp, if_neg (Nat.sub_ne_zero_of_lt hlt)] at hs
    obtain rfl := Option.some.inj hs
    exact ⟨haction, hstill, rfl⟩

theorem renderState_mindcontrol {accesses : List Access} (haction : s.action = Actions.mindcontrol)
    (hs : s.renderState = some (s', accesses)) : s'.action = Actions.mindcontrol ∧
      s'.playerV = s.playerV ∧ s'.actionTimeout = s.actionTimeout := by
  obtain ⟨debug, -, hs⟩ := Option.bind_eq_some_iff.mp hs
  obtain ⟨⟨t, accesses'⟩, ht, heq⟩ := Option.map_eq_some_iff.mp hs
  obtain ⟨rfl, -⟩ := Prod.mk.inj heq
  unfold drawAction at ht
  split_ifs at ht with hzoom hemote
  · obtain ⟨dialogue, -, hdialog⟩ := Option.map_eq_some_iff.mp ht
    split at hdialog
    · obtain ⟨rfl, -⟩ := Prod.mk.inj hdialog
      exact ⟨haction, rfl, rfl⟩
    · obtain ⟨rfl, -⟩ := Prod.mk.inj hdialog
      exact ⟨haction, rfl, rfl⟩
  · exact absurd (haction.symm.trans hemote) (by decide)
  · obtain ⟨hint, -, hhint⟩ := Option.map_eq_some_iff.mp ht
    obtain ⟨rfl, -⟩ := Prod.mk.inj hhint
    exact ⟨haction, rfl, rfl⟩

end Steered

end SceneState

namespace SceneApp

open SceneState (Ranges)

variable {random : ℕ} {a a' : SceneApp}

def Label.Untouched : Label → Prop
  | .key _ => False
  | .tick _ => True
  | .draw => True

def Label.isTick : Label → Bool
  | .tick _ => true
  | _ => false

theorem ranges_next (h : a.state.Ranges a.uses) {l : Label} (hs : a.next l = some a') :
    a'.state.Ranges a'.uses := by
  cases l with
  | key input =>
    obtain ⟨-, hkey⟩ := Option.ite_none_left_eq_some.mp hs
    obtain rfl := Option.some.inj hkey
    unfold key
    split
    · exact h
    · exact h.handleUserInput input
  | tick r =>
    obtain ⟨-, htick⟩ := Option.ite_none_left_eq_some.mp hs
    obtain ⟨s', hs', rfl⟩ := Option.map_eq_some_iff.mp htick
    obtain ⟨t, ht, hr⟩ := h.tickHandler r
    exact Option.some.inj (ht.symm.trans hs') ▸ hr
  | draw =>
    obtain ⟨⟨s', accesses⟩, hs', rfl⟩ := Option.map_eq_some_iff.mp hs
    obtain ⟨t, accesses', ht, hr, -⟩ := h.renderState
    obtain ⟨rfl, -⟩ := Prod.mk.inj (Option.some.inj (ht.symm.trans hs'))
    exact hr

theorem ranges_of_reachable (h : (machine random).Reachable a) : a.state.Ranges a.uses :=
  h.invariant (P := fun a => a.state.Ranges a.uses) (SceneState.ranges_alloc random) fun _ _ _ hr hs => ranges_next hr hs

theorem next_untouched (h : a.state.Ranges a.uses) {l : Label} (hl : l.Untouched)
    (haction : a.state.action = Actions.mindcontrol) (hs : a.next l = some a') :
    (a.state.playerV ≠ 0 → a'.state.action = Actions.mindcontrol ∧
      a'.state.playerV = a.state.playerV) ∧
    (a.state.playerV = 0 → l.isTick = true ∧ a.state.actionTimeout ≤ 1 ∧
        a'.state.action < actionsNum ∨
      a'.state.action = Actions.mindcontrol ∧ a'.state.playerV = 0 ∧
        max 1 a'.state.actionTimeout + l.isTick.toNat ≤ max 1 a.state.actionTimeout) := by
  cases l with
  | key => exact hl.elim
  | tick r =>
    obtain ⟨-, htick⟩ := Option.ite_none_left_eq_some.mp hs
    obtain ⟨s', hs', rfl⟩ := Option.map_eq_some_iff.mp htick
    refine ⟨fun hmoving => SceneState.tickHandler_moving haction hmoving hs', fun hstill => ?_⟩
    obtain ⟨hup, hdown⟩ := h.tickHandler_still haction hstill hs'
    rcases Nat.lt_or_ge 1 a.state.actionTimeout with hlt | hle
    · obtain ⟨haction', hstill', htimeout⟩ := hdown hlt
      refine .inr ⟨haction', hstill', ?_⟩
      rw [htimeout]
      dsimp only [Label.isTick, Bool.toNat_true]
      omega
    · exact .inl ⟨rfl, hle, hup hle⟩
  | draw =>
    obtain ⟨⟨s', accesses⟩, hs', rfl⟩ := Option.map_eq_some_iff.mp hs
    obtain ⟨haction', hv, htimeout⟩ := SceneState.renderState_mindcontrol haction hs'
    refine ⟨fun _ => ⟨haction', hv⟩, fun hstill => .inr ⟨haction', hv.trans hstill, ?_⟩⟩
    rw [htimeout]
    exact Nat.le_refl _

theorem exec_moving {ls : List Label} (h : a.state.Ranges a.uses) (hls : ∀ l ∈ ls, l.Untouched)
    (haction : a.state.action = Actions.mindcontrol) (hmoving : a.state.playerV ≠ 0)
    (hs : (machine random).exec a ls = some a') : a'.state.action = Actions.mindcontrol ∧
      a'.state.playerV = a.state.playerV := by
  induction ls generalizing a with
  | nil =>
    obtain rfl := Option.some.inj hs
    exact ⟨haction, rfl⟩
  | cons l ls ih =>
    obtain ⟨hl, hls⟩ := List.forall_mem_cons.mp hls
    obtain ⟨t, ht, hrest⟩ := Machine.exec_cons_some hs
    obtain ⟨haction', hv⟩ := (next_untouched h hl haction ht).1 hmoving
    rw [← hv] at hmoving ⊢
    exact ih (ranges_next h ht) hls haction' hmoving hrest

theorem exec_still {ls : List Label} (h : a.state.Ranges a.uses) (hls : ∀ l ∈ ls, l.Untouched)
    (haction : a.state.action = Actions.mindcontrol) (hstill : a.state.playerV = 0)
    (hs : (machine random).exec a ls = some a')
    (hlong : max 1 a.state.actionTimeout ≤ ls.countP Label.isTick) :
    ∃ ls₁ ls₂ t, ls = ls₁ ++ ls₂ ∧ (machine random).exec a ls₁ = some t ∧
      t.state.action < actionsNum := by
  induction ls generalizing a with
  | nil =>
    rw [List.countP_nil] at hlong
    omega
  | cons l ls ih =>
    obtain ⟨hl, hls⟩ := List.forall_mem_cons.mp hls
    obtain ⟨t, ht, hrest⟩ := Machine.exec_cons_some hs
    rcases (next_untouched h hl haction ht).2 hstill with ⟨-, -, hfree⟩ | ⟨haction', hstill', hle⟩
    · exact ⟨[l], ls, t, rfl, Machine.exec_cons ht, hfree⟩
    · have hcount : max 1 t.state.actionTimeout ≤ ls.countP Label.isTick := by
        rw [List.countP_cons] at hlong
        cases hl : l.isTick with
        | true =>
          rw [hl] at hlong hle
          simp only [if_true, Bool.toNat_true] at hlong hle
          omega
        | false =>
          rw [hl] at hlong hle
          simp only [Bool.false_eq_true, if_false, Bool.toNat_false] at hlong hle
          omega
      obtain ⟨ls₁, ls₂, u, rfl, hu, hfree⟩ := ih (ranges_next h ht) hls haction' hstill' hrest hcount
      exact ⟨l :: ls₁, ls₂, u, rfl, (Machine.exec_cons ht).trans hu, hfree⟩

/-- In every run of the scenes no step leaves a table, the dolphin stays in its world, and nothing
is started that was not asked for. What drawing does is defined in all but three kinds of draws.
Without the user the dolphin that was taken over is free again within its time, and never when it
is still moving. -/
theorem scenes_run (h : (machine random).Reachable a) :
    ((∀ r, a.exited = false → ∃ a', (machine random).next a (.tick r) = some a') ∧
      ∃ a', (machine random).next a .draw = some a') ∧
    ((0 ≤ a.state.playerGlobal ∧ a.state.playerGlobal ≤ worldWidth) ∧
      (0 ≤ a.state.player.x ∧ a.state.player.x ≤ dolphinCenter ∧ 3 ≤ a.state.player.y ∧
        a.state.player.y ≤ dolphinDefaultY) ∧ 0 ≤ a.state.zoom ∧ a.state.zoom ≤ sceneZoom) ∧
    a.state.started.length ≤ a.uses ∧
    (∀ s' accesses, a.state.renderState = some (s', accesses) →
      ((∀ x ∈ accesses, x.Defined) ↔ ¬a.state.Overruns)) ∧
    (a.state.action = Actions.mindcontrol → ∀ ls a', (∀ l ∈ ls, Label.Untouched l) →
      (machine random).exec a ls = some a' →
      (a.state.playerV ≠ 0 → a'.state.action = Actions.mindcontrol) ∧
      (a.state.playerV = 0 → max 1 a.state.actionTimeout ≤ ls.countP Label.isTick →
        ∃ ls₁ ls₂ t, ls = ls₁ ++ ls₂ ∧ (machine random).exec a ls₁ = some t ∧
          t.state.action < actionsNum)) := by
  have hranges := ranges_of_reachable h
  obtain ⟨s', accesses, hs', -, hdefined⟩ := hranges.renderState
  refine ⟨⟨fun r hexited => ?_, ?_⟩, ⟨hranges.position, hranges.player, hranges.zoom⟩,
    (Nat.le_add_right _ _).trans hranges.uses, ?_, ?_⟩
  · obtain ⟨t, ht, -⟩ := hranges.tickHandler r
    refine ⟨{ a with state := t }, ?_⟩
    simp only [machine, next, hexited, ht]
    rfl
  · refine ⟨{ a with state := s' }, ?_⟩
    simp only [machine, next, hs']
    rfl
  · intro t accesses' ht
    obtain ⟨-, rfl⟩ := Prod.mk.inj (Option.some.inj (ht.symm.trans hs'))
    exact hdefined
  · intro haction ls a' hls hexec
    constructor
    · exact fun hmoving => (exec_moving hranges hls haction hmoving hexec).1
    · exact fun hstill hlong => exec_still hranges hls haction hstill hexec hlong

/-- Right is let go while OK makes the dolphin look for something to use: it walks on by itself, and
the next draw takes a remainder by zero. -/
theorem scenes_run_let_go : ∃ a, (machine 0).Reachable a ∧
    (∀ ls a', (∀ l ∈ ls, Label.Untouched l) → (machine 0).exec a ls = some a' →
      a'.state.action = Actions.mindcontrol) ∧
    ∀ s' accesses, a.state.renderState = some (s', accesses) → ¬∀ x ∈ accesses, x.Defined := by
  obtain ⟨a, hs, haction, hmoving, hover⟩ : ∃ a, (machine 0).exec (machine 0).init
      [.key ⟨.right, .press⟩, .key ⟨.ok, .press⟩, .key ⟨.ok, .short⟩, .key ⟨.right, .release⟩,
        .key ⟨.ok, .release⟩, .tick ⟨0, 0, 0, 0, 0, 0⟩, .tick ⟨0, 0, 0, 0, 0, 0⟩] = some a ∧
      a.state.action = Actions.mindcontrol ∧ a.state.playerV ≠ 0 ∧ a.state.Overruns :=
    ⟨_, rfl, rfl, by decide, by decide, .inl ⟨rfl, by decide, nofun⟩⟩
  have hreach := Machine.exec_reachable .init hs
  obtain ⟨-, -, -, hdefined, hsteered⟩ := scenes_run hreach
  refine ⟨a, hreach, fun ls a' hls hexec => ?_, fun s' accesses hrender hall => ?_⟩
  · exact (hsteered haction ls a' hls hexec).1 hmoving
  · exact (hdefined s' accesses hrender).mp hall hover

end SceneApp

end FlipperZero.Dolphin
