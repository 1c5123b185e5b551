import FlipperZero.Gui.ViewDispatcher
import FlipperZero.IButton.SceneNavigation

/-! # The editors and their buffers

A scene with an editor gives it a buffer in `on_enter` and takes it back in `on_exit`. The editor
stays on the screen until the next scene shows a view. The GUI service reads which view is shown and
then runs a callback of it.
-/

namespace FlipperZero.IButton.App

open Lib Gui

inductive Editor where
  | textInput
  | byteInput
deriving DecidableEq, Repr

def Editor.scene : Editor → Scene
  | .textInput => .sceneSaveName
  | .byteInput => .sceneAddValue

inductive AppView where
  | dialogEx
  | submenu
  | popup
  | editor (e : Editor)
deriving DecidableEq, Repr

/-- An access of `on_enter` or `on_exit` to the editors and to the view that is shown. -/
inductive SceneOp where
  | setResultCallback (e : Editor)
  | clearResultCallback (e : Editor)
  | switchTo (view : AppView)
deriving DecidableEq, Repr

/-- The view that `on_enter` switches to. -/
def Scene.view : Scene → Option AppView
  | .sceneExit | .sceneSelectKey => none
  | .sceneStart | .sceneReadedKeyMenu | .sceneSavedKeyMenu | .sceneAddType => some .submenu
  | .sceneRead | .sceneCliRead | .sceneWrite | .sceneCliWrite | .sceneWriteSuccess
  | .sceneEmulate | .sceneCliEmulate | .sceneDeleteSuccess | .sceneSaveSuccess => some .popup
  | .sceneReadNotKeyError | .sceneReadCRCError | .sceneReadSuccess | .sceneDeleteConfirm
  | .sceneInfo => some .dialogEx
  | .sceneSaveName => some (.editor .textInput)
  | .sceneAddValue => some (.editor .byteInput)

def Scene.editor (scene : Scene) : Option Editor :=
  match scene.view with
  | some (.editor e) => some e
  | _ => none

def Call.ops : Call → List SceneOp
  | .onEnter scene =>
    scene.editor.toList.map .setResultCallback ++ scene.view.toList.map .switchTo
  | .onExit scene => scene.editor.toList.map .clearResultCallback

def opsOf (calls calls' : List Call) : List SceneOp :=
  if calls'.length = calls.length then [] else (calls'.head?.map Call.ops).getD []

inductive GuiCallback where
  | draw
  | input (event : InputEvent)
deriving DecidableEq, Repr

structure EditorSystem where
  app : State
  ops : List SceneOp
  view : Option AppView
  /-- The editor has a buffer; the pointer is `NULL` otherwise. -/
  buffer : Editor → Bool
  /-- The GUI service has read that an editor is shown, and is to run this callback of it. -/
  gui : Option (Editor × GuiCallback)
  /-- The callbacks that ran without a buffer. -/
  nullRuns : List (Editor × GuiCallback)

namespace EditorSystem

variable (s : EditorSystem)

inductive Label where
  /-- A step of the application thread, without commands. -/
  | app (l : App.Label)
  | op
  | pick (callback : GuiCallback)
  | run
deriving DecidableEq, Repr

def execute : SceneOp → EditorSystem
  | .setResultCallback e => { s with buffer := Function.update s.buffer e true }
  | .clearResultCallback e => { s with buffer := Function.update s.buffer e false }
  | .switchTo view => { s with view := some view }

def next : Label → Option EditorSystem
  | .app l =>
    if s.ops = [] ∧ NoLine l then
      (App.next s.app l).map fun app =>
        { s with app := app, ops := opsOf s.app.stage.calls app.stage.calls }
    else none
  | .op =>
    match s.ops with
    | [] => none
    | op :: ops => some ({ s with ops := ops }.execute op)
  | .pick callback =>
    match s.gui, s.view with
    | none, some (.editor e) => some { s with gui := some (e, callback) }
    | _, _ => none
  | .run =>
    match s.gui with
    | none => none
    | some (e, callback) =>
      some { s with
        gui := none
        nullRuns := if s.buffer e then s.nullRuns else (e, callback) :: s.nullRuns }

def machine : Machine EditorSystem Label where
  init := ⟨.init, [], none, fun _ => false, none, []⟩
  next := next

/-- The scene of the editor is between the two calls that set the result of the editor. -/
def Edits (e : Editor) : Prop :=
  .clearResultCallback e ∈ s.ops ∨
    entered s.app.stage.calls = some (some e.scene) ∧ .setResultCallback e ∉ s.ops

/-- A callback of an editor runs only while its scene edits. -/
def Keeps : Label → Prop
  | .run => ∀ p ∈ s.gui, s.Edits p.1
  | _ => True

instance (e : Editor) : Decidable (s.Edits e) := inferInstanceAs (Decidable (_ ∨ _ ∧ _))

instance : (l : Label) → Decidable (s.Keeps l)
  | .run => inferInstanceAs (Decidable (∀ p ∈ s.gui, s.Edits p.1))
  | .app _ | .op | .pick _ => instDecidableTrue

structure Sound : Prop where
  loops : Loops s.app
  buffer : ∀ e, s.buffer e = true ↔ s.Edits e
  set : ∀ e, .setResultCallback e ∈ s.ops → entered s.app.stage.calls = some (some e.scene)
  clear : ∀ e, .clearResultCallback e ∈ s.ops → entered s.app.stage.calls = some none
  nodup : s.ops.Nodup
  safe : s.nullRuns = []

variable {s : EditorSystem} {s' : EditorSystem} {l : Label} {e : Editor} {scene : Scene}
  {stage stage' : Stage} {calls : List Call} {call : Call}

theorem editor_eq_some_iff : scene.editor = some e ↔ scene = e.scene := by
  cases e <;> cases scene <;> decide

theorem set_mem_ops_onEnter : .setResultCallback e ∈ (Call.onEnter scene).ops ↔
    scene = e.scene := by
  rw [← editor_eq_some_iff]
  simp [Call.ops]

theorem clear_not_mem_ops_onEnter : .clearResultCallback e ∉ (Call.onEnter scene).ops := by
  simp [Call.ops]

theorem clear_mem_ops_onExit : .clearResultCallback e ∈ (Call.onExit scene).ops ↔
    scene = e.scene := by
  rw [← editor_eq_some_iff]
  simp [Call.ops]

theorem set_not_mem_ops_onExit : .setResultCallback e ∉ (Call.onExit scene).ops := by
  simp [Call.ops]

theorem nodup_ops : call.ops.Nodup := by
  cases call with
  | onEnter scene => cases scene <;> decide
  | onExit scene => cases scene <;> decide

theorem opsOf_self : opsOf calls calls = [] := if_pos rfl

theorem opsOf_cons : opsOf calls (call :: calls) = call.ops := by
  rw [opsOf, if_neg (by simp)]
  rfl

theorem calls_next {app app' : State} {l : App.Label} (h : App.next app l = some app') :
    app'.stage.calls = app.stage.calls ∨ ∃ call, app'.stage.calls = call :: app.stage.calls := by
  cases next_cases h with
  | line | reply | receiveEvent | cliSendEvent | delete => exact .inl rfl
  | lookup | readTimeout | writeTimeout | onEvent => exact .inl rfl
  | switch hcli hstep => exact calls_step hstep
  | work happ hstep => exact calls_step hstep
  | leave => exact .inr ⟨_, rfl⟩

theorem entered_onEnter (h : (entered (.onEnter scene :: calls)).isSome) :
    entered calls = some none ∧ entered (.onEnter scene :: calls) = some (some scene) := by
  have hcall : entered (.onEnter scene :: calls) =
      if entered calls = some none then some (some scene) else none := rfl
  rw [hcall] at h ⊢
  split at h
  · next hnone => exact ⟨hnone, if_pos hnone⟩
  · cases h

theorem entered_onExit (h : (entered (.onExit scene :: calls)).isSome) :
    entered calls = some (some scene) ∧ entered (.onExit scene :: calls) = some none := by
  have hcall : entered (.onExit scene :: calls) =
      if entered calls = some (some scene) then some none else none := rfl
  rw [hcall] at h ⊢
  split at h
  · next hsome => exact ⟨hsome, if_pos hsome⟩
  · cases h

theorem sound_init : machine.init.Sound := by
  constructor
  · refine ⟨.work ⟨rfl, .start, rfl⟩, rfl, False.elim, ?_⟩
    rintro w ⟨⟩
    rfl
  · intro e
    simp [machine, Edits, State.init, Stage.init, entered]
  · rintro e ⟨⟩
  · rintro e ⟨⟩
  · exact List.nodup_nil
  · rfl

namespace Sound

theorem app (h : s.Sound) {l : App.Label} {app' : State} (hops : s.ops = []) (hline : NoLine l)
    (hs : App.next s.app l = some app') :
    ({ s with app := app', ops := opsOf s.app.stage.calls app'.stage.calls } :
      EditorSystem).Sound := by
  have hloops := loops_next h.loops hline hs
  have hsome := hloops.alone.entered_isSome
  have hbuffer (e : Editor) : s.buffer e = true ↔
      entered s.app.stage.calls = some (some e.scene) := by
    rw [h.buffer e]
    simp [Edits, hops]
  rcases calls_next hs with hcalls | ⟨call, hcalls⟩
  · constructor
    · exact hloops
    · intro e
      simp only [Edits, hcalls, opsOf_self]
      simpa using hbuffer e
    · simp only [hcalls, opsOf_self]
      rintro e ⟨⟩
    · simp only [hcalls, opsOf_self]
      rintro e ⟨⟩
    · simp only [hcalls, opsOf_self]
      exact List.nodup_nil
    · exact h.safe
  · rw [hcalls] at hsome
    cases call with
    | onEnter scene =>
      obtain ⟨hnone, hentered⟩ := entered_onEnter hsome
      constructor
      · exact hloops
      · intro e
        rw [hbuffer e, hnone]
        simp only [Edits, hcalls, opsOf_cons, hentered, set_mem_ops_onEnter]
        simp [clear_not_mem_ops_onEnter]
      · simp only [hcalls, opsOf_cons, hentered, set_mem_ops_onEnter]
        rintro e rfl
        rfl
      · simp only [hcalls, opsOf_cons]
        intro e hmem
        exact absurd hmem clear_not_mem_ops_onEnter
      · simp only [hcalls, opsOf_cons]
        exact nodup_ops
      · exact h.safe
    | onExit scene =>
      obtain ⟨hscene, hentered⟩ := entered_onExit hsome
      constructor
      · exact hloops
      · intro e
        rw [hbuffer e, hscene]
        simp only [Edits, hcalls, opsOf_cons, hentered, clear_mem_ops_onExit]
        simp
      · simp only [hcalls, opsOf_cons]
        intro e hmem
        exact absurd hmem set_not_mem_ops_onExit
      · simp only [hcalls]
        exact fun _ _ => hentered
      · simp only [hcalls, opsOf_cons]
        exact nodup_ops
      · exact h.safe

theorem op (h : s.Sound) {op : SceneOp} {ops : List SceneOp} (hops : s.ops = op :: ops) :
    ({ s with ops := ops }.execute op).Sound := by
  have hnodup := h.nodup
  have hset := h.set
  have hclear := h.clear
  have hbuffer := h.buffer
  simp only [Edits] at hbuffer
  rw [hops] at hnodup hset hclear hbuffer
  obtain ⟨hmem, hnodup'⟩ := List.nodup_cons.mp hnodup
  have hset' (e : Editor) (he : .setResultCallback e ∈ ops) := hset e (.tail _ he)
  have hclear' (e : Editor) (he : .clearResultCallback e ∈ ops) := hclear e (.tail _ he)
  cases op with
  | setResultCallback e₀ =>
    have hentered := hset e₀ List.mem_cons_self
    refine ⟨h.loops, ?_, hset', hclear', hnodup', h.safe⟩
    intro e
    show Function.update s.buffer e₀ true e = true ↔ _
    by_cases he : e = e₀
    · subst he
      rw [Function.update_self]
      exact ⟨fun _ => .inr ⟨hentered, hmem⟩, fun _ => rfl⟩
    · rw [Function.update_of_ne he, hbuffer e]
      simp [Edits, execute, he]
  | clearResultCallback e₀ =>
    have hentered := hclear e₀ List.mem_cons_self
    refine ⟨h.loops, ?_, hset', hclear', hnodup', h.safe⟩
    intro e
    show Function.update s.buffer e₀ false e = true ↔ _
    by_cases he : e = e₀
    · subst he
      rw [Function.update_self]
      simp [Edits, execute, hmem, hentered]
    · rw [Function.update_of_ne he, hbuffer e]
      simp [Edits, execute, he]
  | switchTo view =>
    refine ⟨h.loops, ?_, hset', hclear', hnodup', h.safe⟩
    intro e
    show s.buffer e = true ↔ _
    rw [hbuffer e]
    simp [Edits, execute]

theorem next (h : s.Sound) (hkeeps : s.Keeps l) (hs : machine.next s l = some s') :
    s'.Sound := by
  cases l with
  | app l =>
    simp only [machine, EditorSystem.next, Option.ite_none_right_eq_some] at hs
    obtain ⟨⟨hops, hline⟩, hs⟩ := hs
    obtain ⟨app', happ, rfl⟩ := Option.map_eq_some_iff.mp hs
    exact h.app hops hline happ
  | op =>
    simp only [machine, EditorSystem.next] at hs
    split at hs
    · cases hs
    · next op ops hops =>
      obtain rfl := Option.some.inj hs
      exact h.op hops
  | pick callback =>
    simp only [machine, EditorSystem.next] at hs
    split at hs
    · obtain rfl := Option.some.inj hs
      exact ⟨h.loops, h.buffer, h.set, h.clear, h.nodup, h.safe⟩
    · cases hs
  | run =>
    simp only [machine, EditorSystem.next] at hs
    split at hs
    · cases hs
    · next e callback hgui =>
      obtain rfl := Option.some.inj hs
      have hbuffer := (h.buffer e).mpr (hkeeps _ hgui)
      refine ⟨h.loops, h.buffer, h.set, h.clear, h.nodup, ?_⟩
      simp only [hbuffer, if_true]
      exact h.safe

theorem nullRuns_ne_nil (h : s.Sound) (hkeeps : ¬s.Keeps l) (hs : machine.next s l = some s') :
    s'.nullRuns ≠ [] := by
  cases l with
  | run =>
    simp only [Keeps] at hkeeps
    push Not at hkeeps
    obtain ⟨⟨e, callback⟩, hgui, hedits⟩ := hkeeps
    have hbuffer : ¬s.buffer e = true := fun hbuffer => hedits ((h.buffer e).mp hbuffer)
    simp only [machine, EditorSystem.next, Option.mem_def.mp hgui, if_neg hbuffer] at hs
    obtain rfl := Option.some.inj hs
    exact List.cons_ne_nil _ _
  | app | op | pick => exact absurd trivial hkeeps

end Sound

end EditorSystem

/-- In every run that meets the condition a callback of an editor has its buffer. A callback that
runs at any other time has none. -/
theorem editor_callbacks_have_buffer {s : EditorSystem}
    (hreach : EditorSystem.machine.ReachableWith EditorSystem.Keeps s) :
    s.nullRuns = [] ∧ ∀ l s', EditorSystem.machine.next s l = some s' → ¬s.Keeps l →
      s'.nullRuns ≠ [] := by
  have hsound : s.Sound := hreach.invariant (P := EditorSystem.Sound) EditorSystem.sound_init
    fun _ _ _ h hkeeps hs => h.next hkeeps hs
  exact ⟨hsound.safe, fun _ _ hs hkeeps => hsound.nullRuns_ne_nil hkeeps hs⟩

namespace EditorSystem

def answers : Answers := ⟨.empty, .noDetect, true, true⟩

/-- The application handles an event, up to the calls of a switch. -/
def handles (event : Event) (works : ℕ) : List Label :=
  .app (.receiveEvent event) :: .app .lookup :: .app .timeout :: .app (.onEvent answers) ::
    List.replicate works (.app (.work true))

/-- From the start to the editor of a value, and from there to the editor of a name. -/
def toSaveName : List Label :=
  [Label.app (.work true), Label.op] ++ handles (.menuSelected 2) 4 ++ [Label.op] ++
    handles (.menuSelected 0) 4 ++ [Label.op, Label.op] ++ handles .byteEditResult 2 ++
      [Label.op, Label.app (.work true), Label.app (.work true), Label.op, Label.op]

end EditorSystem

/-- The name is drawn while it is edited. The GUI service reads the view once more before Back and
draws it when the scene has taken the name back. -/
theorem editor_callbacks_have_buffer_back : ∃ s s' : EditorSystem,
    s.view = some (.editor .textInput) ∧ s.nullRuns = [] ∧
    EditorSystem.machine.next s .run = some s' ∧ s'.nullRuns ≠ [] := by
  have hrun : ∃ s s' : EditorSystem, EditorSystem.machine.execWith EditorSystem.Keeps
      EditorSystem.machine.init (EditorSystem.toSaveName ++
        [EditorSystem.Label.pick .draw, EditorSystem.Label.run, EditorSystem.Label.pick .draw] ++
          EditorSystem.handles .back 3 ++ [EditorSystem.Label.op]) = some s ∧
      EditorSystem.machine.next s .run = some s' ∧ s.view = some (.editor .textInput) ∧
      ¬s.Keeps .run := ⟨_, _, rfl, rfl, rfl, by decide⟩
  obtain ⟨s, s', hexec, hs, hview, hkeeps⟩ := hrun
  have hreach := Machine.execWith_reachableWith .init hexec
  obtain ⟨hsafe, hruns⟩ := editor_callbacks_have_buffer hreach
  exact ⟨s, s', hview, hsafe, hs, hruns _ s' hs hkeeps⟩

/-- Back leaves the name, and its editor is drawn before the next scene shows a view. -/
theorem editor_callbacks_have_buffer_drawn : ¬∀ s : EditorSystem,
    EditorSystem.machine.Reachable s → s.nullRuns = [] := by
  intro h
  have hrun : ∃ s : EditorSystem, EditorSystem.machine.exec EditorSystem.machine.init
      (EditorSystem.toSaveName ++ EditorSystem.handles .back 3 ++
        [EditorSystem.Label.op, EditorSystem.Label.pick .draw, EditorSystem.Label.run]) =
          some s ∧ s.nullRuns = [(.textInput, .draw)] := ⟨_, rfl, rfl⟩
  obtain ⟨s, hexec, hruns⟩ := hrun
  have hsafe := h s (Machine.exec_reachable .init hexec)
  rw [hruns] at hsafe
  cases hsafe

end FlipperZero.IButton.App
