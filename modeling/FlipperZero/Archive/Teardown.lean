import FlipperZero.Gui.ViewDispatcher

/-! # Freeing the archive

The application frees the views and the text input before it removes them from the dispatcher. The
GUI service holds its lock while it draws or delivers input; the application takes the same lock to
remove a view, but not to free one.
-/

namespace FlipperZero.Archive

open Lib Gui

inductive ArchiveView where
  | main
  | textInput
deriving DecidableEq, Repr

inductive ArchiveObject where
  | mainModel
  | mainView
  | textModel
  | textView
  | textInput
  | app
deriving DecidableEq, Repr

/-- What the GUI service calls of a view; the last is an input that runs the callback of the text
input. -/
inductive ViewCall where
  | draw
  | input
  | save
deriving DecidableEq, Repr

def ViewCall.uses : ArchiveView → ViewCall → List ArchiveObject
  | .main, .draw => [.mainView, .mainModel]
  | .main, .input | .main, .save => [.mainView, .mainModel, .app]
  | .textInput, .draw => [.textView, .textModel]
  | .textInput, .input => [.textView, .textModel, .textInput]
  | .textInput, .save => [.textView, .textModel, .textInput, .app, .mainView, .mainModel]

inductive FreeOp where
  | free (object : ArchiveObject)
  | lock
  | unlock
  /-- `view_dispatcher_set_current_view(NULL)`, if the view is the current one. -/
  | disable (view : ArchiveView)
  | erase (view : ArchiveView)
  | removeViewPort
  | other
deriving DecidableEq, Repr

def viewFree : ArchiveView → List FreeOp
  | .main => [.free .mainModel, .free .mainView]
  | .textInput => [.free .textModel, .free .textView]

def removeView (view : ArchiveView) : List FreeOp := [.lock, .disable view, .erase view, .unlock]

def archiveFree : List FreeOp :=
  FreeOp.other :: viewFree .textInput ++ FreeOp.free .textInput :: .other :: viewFree .main ++
    removeView .main ++ removeView .textInput ++ FreeOp.lock :: .removeViewPort :: .unlock ::
      .other :: [.free .app]

inductive ServicePc where
  | idle
  | locked (call : ViewCall)
  | running (view : ArchiveView) (call : ViewCall)
  | unlock
deriving DecidableEq, Repr

structure Teardown where
  /-- What is left of `archive_free` once the application has called it. -/
  ops : Option (List FreeOp)
  freed : List ArchiveObject
  mutex : Option Owner
  current : Option ArchiveView
  views : List ArchiveView
  attached : Bool
  enabled : Bool
  gui : ServicePc
  /-- The event that ends the application is in its queue. -/
  exited : Bool
deriving DecidableEq, Repr

namespace Teardown

variable (s : Teardown)

def free (op : FreeOp) (ops : List FreeOp) : Option Teardown :=
  match op with
  | .free object => some { s with ops := some ops, freed := object :: s.freed }
  | .lock =>
    if s.mutex = none then some { s with ops := some ops, mutex := some .app } else none
  | .unlock => some { s with ops := some ops, mutex := none }
  | .disable view =>
    if s.current = some view then
      some { s with ops := some ops, current := none, enabled := false }
    else some { s with ops := some ops }
  | .erase view => some { s with ops := some ops, views := s.views.erase view }
  | .removeViewPort => some { s with ops := some ops, attached := false }
  | .other => some { s with ops := some ops }

inductive Label where
  | guiLock (call : ViewCall)
  | guiCall
  | switchToView (view : ArchiveView)
  | exit
  | guiReturn
  | guiUnlock
  | app
deriving DecidableEq, Repr

def next : Label → Option Teardown
  | .guiLock call =>
    if s.gui = .idle ∧ s.mutex = none then
      some { s with gui := .locked call, mutex := some .gui }
    else none
  | .guiCall =>
    match s.gui with
    | .locked call =>
      match s.current, s.attached && s.enabled with
      | some view, true => some { s with gui := .running view call }
      | _, _ => some { s with gui := .unlock }
    | _ => none
  | .switchToView view =>
    match s.gui with
    | .running _ .input | .running _ .save =>
      if view ∈ s.views then some { s with current := some view, enabled := true } else none
    | _ => none
  | .exit =>
    match s.gui with
    | .running .main .input => some { s with exited := true }
    | _ => none
  | .guiReturn =>
    match s.gui with
    | .running _ _ => some { s with gui := .unlock }
    | _ => none
  | .guiUnlock => if s.gui = .unlock then some { s with gui := .idle, mutex := none } else none
  | .app =>
    match s.ops with
    | none => if s.exited then some { s with ops := some archiveFree } else none
    | some [] => none
    | some (op :: ops) => s.free op ops

def machine : Machine Teardown Label where
  init :=
    { ops := none
      freed := []
      mutex := none
      current := some .main
      views := [.main, .textInput]
      attached := true
      enabled := true
      gui := .idle
      exited := false }
  next := next

def Safe : Prop := ∀ view call, s.gui = .running view call →
  ∀ object ∈ ViewCall.uses view call, object ∉ s.freed

def firstFreed : ArchiveView → ArchiveObject
  | .main => .mainModel
  | .textInput => .textModel

/-- The GUI service calls no view whose `view_free` has begun, and no object of a running callback
is freed. -/
def Keeps : Label → Prop
  | .guiCall => ∀ view, s.current = some view → s.attached → s.enabled → firstFreed view ∉ s.freed
  | .app => ∀ object ops, s.ops = some (.free object :: ops) →
      ∀ view call, s.gui = .running view call → object ∉ ViewCall.uses view call
  | _ => True

def Layered (attached : Bool) (freed : List ArchiveObject) : Prop :=
  (.mainView ∈ freed → .mainModel ∈ freed) ∧ (.mainModel ∈ freed → .textModel ∈ freed) ∧
    (.textView ∈ freed → .textModel ∈ freed) ∧ (.textInput ∈ freed → .textModel ∈ freed) ∧
      (.app ∈ freed → attached = false)

instance (attached : Bool) (freed : List ArchiveObject) : Decidable (Layered attached freed) :=
  inferInstanceAs (Decidable (_ ∧ _))

/-- The operations free in order, and detach from the GUI service under its lock. -/
def orderly : Bool → Bool → List ArchiveObject → List FreeOp → Bool
  | attached, _, freed, [] => decide (Layered attached freed)
  | attached, held, freed, op :: ops =>
    decide (Layered attached freed) &&
      match op with
      | .free object => orderly attached held (object :: freed) ops
      | .lock => orderly attached true freed ops
      | .unlock => held && orderly attached false freed ops
      | .removeViewPort => held && orderly false held freed ops
      | .disable _ | .erase _ | .other => orderly attached held freed ops

structure Sound : Prop where
  safe : s.Safe
  layered : Layered s.attached s.freed
  gui : s.gui ≠ .idle ↔ s.mutex = some .gui
  attached : ∀ view call, s.gui = .running view call → s.attached
  waits : s.ops = none → s.mutex ≠ some .app ∧ s.freed = [] ∧ s.attached = true
  orderly : ∀ ops, s.ops = some ops →
    orderly s.attached (decide (s.mutex = some .app)) s.freed ops = true

variable {s} {s' : Teardown} {l : Label}

/-- What a step does to the callback that runs and to what is freed. -/
inductive Next (s : Teardown) : Label → Teardown → Prop where
  | lock (call : ViewCall) (hgui : s.gui = .idle) (hmutex : s.mutex = none) :
    Next s (.guiLock call) { s with gui := .locked call, mutex := some .gui }
  | call (view : ArchiveView) (call : ViewCall) (hgui : s.gui = .locked call)
    (hcurrent : s.current = some view) (hattached : s.attached = true)
    (henabled : s.enabled = true) : Next s .guiCall { s with gui := .running view call }
  | skip (call : ViewCall) (hgui : s.gui = .locked call)
    (hnone : ∀ view, s.current = some view → s.attached = true → s.enabled = true → False) :
    Next s .guiCall { s with gui := .unlock }
  | switch (view : ArchiveView) :
    Next s (.switchToView view) { s with current := some view, enabled := true }
  | exit : Next s .exit { s with exited := true }
  | back (view : ArchiveView) (call : ViewCall) (hgui : s.gui = .running view call) :
    Next s .guiReturn { s with gui := .unlock }
  | unlock (hgui : s.gui = .unlock) : Next s .guiUnlock { s with gui := .idle, mutex := none }
  | start (hops : s.ops = none) : Next s .app { s with ops := some archiveFree }
  | free (op : FreeOp) (ops : List FreeOp) {s' : Teardown} (hops : s.ops = some (op :: ops))
    (hs : s.free op ops = some s') : Next s .app s'

theorem machine_next (hs : machine.next s l = some s') : Next s l s' := by
  simp only [machine, next] at hs
  cases l with
  | guiLock call =>
    simp only at hs
    split at hs
    · next h => exact Option.some.inj hs ▸ .lock call h.1 h.2
    · cases hs
  | guiCall =>
    simp only at hs
    split at hs
    · next call hgui =>
      split at hs
      · next view hcurrent henabled =>
        obtain ⟨hattached, henabled⟩ := Bool.and_eq_true_iff.mp henabled
        exact Option.some.inj hs ▸ .call view call hgui hcurrent hattached henabled
      · next hnone =>
        refine Option.some.inj hs ▸ .skip call hgui fun view hcurrent hattached henabled => ?_
        exact hnone view hcurrent (by rw [hattached, henabled]; rfl)
    · cases hs
  | switchToView view =>
    simp only at hs
    split at hs
    · split at hs
      · exact Option.some.inj hs ▸ .switch view
      · cases hs
    · split at hs
      · exact Option.some.inj hs ▸ .switch view
      · cases hs
    · cases hs
  | exit =>
    simp only at hs
    split at hs
    · exact Option.some.inj hs ▸ .exit
    · cases hs
  | guiReturn =>
    simp only at hs
    split at hs
    · next view call hgui => exact Option.some.inj hs ▸ .back view call hgui
    · cases hs
  | guiUnlock =>
    simp only at hs
    split at hs
    · next hgui => exact Option.some.inj hs ▸ .unlock hgui
    · cases hs
  | app =>
    simp only at hs
    split at hs
    · next hops =>
      split at hs
      · exact Option.some.inj hs ▸ .start hops
      · cases hs
    · cases hs
    · next op ops hops => exact .free op ops hops hs

theorem Layered.firstFreed {attached : Bool} {freed : List ArchiveObject} {view : ArchiveView}
    (h : Layered attached freed) (hattached : attached = true) (hfirst : firstFreed view ∉ freed)
    (call : ViewCall) : ∀ o ∈ ViewCall.uses view call, o ∉ freed := by
  obtain ⟨hmain, hmodel, htext, hinput, happ⟩ := h
  have hfree : ArchiveObject.app ∉ freed := fun hmem => absurd (happ hmem) (by simp [hattached])
  cases view with
  | main =>
    have hview : ArchiveObject.mainView ∉ freed := fun hmem => hfirst (hmain hmem)
    have hmainModel : ArchiveObject.mainModel ∉ freed := hfirst
    cases call <;> simp [ViewCall.uses, hmainModel, hview, hfree]
  | textInput =>
    have hmainModel : ArchiveObject.mainModel ∉ freed := fun hmem => hfirst (hmodel hmem)
    have hmainView : ArchiveObject.mainView ∉ freed := fun hmem => hmainModel (hmain hmem)
    have hview : ArchiveObject.textView ∉ freed := fun hmem => hfirst (htext hmem)
    have htextInput : ArchiveObject.textInput ∉ freed := fun hmem => hfirst (hinput hmem)
    have htextModel : ArchiveObject.textModel ∉ freed := hfirst
    cases call <;> simp [ViewCall.uses, hmainModel, hmainView, htextModel, hview, htextInput, hfree]

theorem safe_of_gui (hgui : ∀ view call, s'.gui = .running view call → s.gui = .running view call)
    (hfreed : s'.freed = s.freed) (h : s.Safe) : s'.Safe := by
  intro view call hrunning o ho
  rw [hfreed]
  exact h view call (hgui view call hrunning) o ho

theorem free_eq_some {op : FreeOp} {ops : List FreeOp} (hs : s.free op ops = some s') :
    s'.gui = s.gui ∧ s'.ops = some ops ∧
      (s'.freed = s.freed ∨ ∃ object, op = .free object ∧ s'.freed = object :: s.freed) := by
  cases op with
  | free object => exact Option.some.inj hs ▸ ⟨rfl, rfl, .inr ⟨object, rfl, rfl⟩⟩
  | lock =>
    simp only [free] at hs
    split at hs
    · exact Option.some.inj hs ▸ ⟨rfl, rfl, .inl rfl⟩
    · cases hs
  | disable view =>
    simp only [free] at hs
    split at hs <;> exact Option.some.inj hs ▸ ⟨rfl, rfl, .inl rfl⟩
  | unlock | erase | removeViewPort | other =>
    exact Option.some.inj hs ▸ ⟨rfl, rfl, .inl rfl⟩

theorem Sound.safe_iff (h : s.Sound) (hs : s.Next l s') : s'.Safe ↔ s.Keeps l := by
  cases hs with
  | lock call hgui hmutex =>
    refine iff_of_true ?_ trivial
    rintro view call hrunning
    cases hrunning
  | skip call hgui hnone =>
    refine iff_of_true ?_ ?_
    · rintro view call hrunning
      cases hrunning
    · rintro view hcurrent hattached henabled
      exact (hnone view hcurrent hattached henabled).elim
  | unlock hgui =>
    refine iff_of_true ?_ trivial
    rintro view call hrunning
    cases hrunning
  | back view call hgui =>
    refine iff_of_true ?_ trivial
    rintro view call hrunning
    cases hrunning
  | call view call hgui hcurrent hattached henabled =>
    constructor
    · intro hsafe view' hcurrent' _ _
      obtain rfl := Option.some.inj (hcurrent ▸ hcurrent')
      apply hsafe view call rfl
      cases view <;> cases call <;> simp [firstFreed, ViewCall.uses]
    · rintro hkeeps view' call' hrunning
      obtain ⟨rfl, rfl⟩ := ServicePc.running.inj hrunning
      exact h.layered.firstFreed hattached (hkeeps view hcurrent hattached henabled) call
  | switch view => exact iff_of_true (safe_of_gui (fun _ _ => id) rfl h.safe) trivial
  | exit => exact iff_of_true (safe_of_gui (fun _ _ => id) rfl h.safe) trivial
  | start hops =>
    refine iff_of_true (safe_of_gui (fun _ _ => id) rfl h.safe) ?_
    rintro object ops hops'
    cases hops ▸ hops'
  | free op ops hops hs =>
    obtain ⟨hgui, -, hfreed⟩ := free_eq_some hs
    rcases hfreed with hfreed | ⟨object, rfl, hfreed⟩
    · refine iff_of_true (safe_of_gui (fun _ _ hrunning => hgui ▸ hrunning) hfreed h.safe) ?_
      rintro object ops' hops'
      obtain ⟨rfl, -⟩ := List.cons.inj (Option.some.inj (hops ▸ hops'))
      exact absurd (Option.some.inj hs ▸ hfreed) (List.cons_ne_self _ _)
    · constructor
      · rintro hsafe object' ops' hops' view call hrunning hmem
        obtain ⟨hop, -⟩ := List.cons.inj (Option.some.inj (hops ▸ hops'))
        obtain rfl := FreeOp.free.inj hop
        apply hsafe view call (hgui.trans hrunning) object hmem
        rw [hfreed]
        exact List.mem_cons_self
      · rintro hkeeps view call hrunning o ho hmem
        have hgui' : s.gui = .running view call := hgui ▸ hrunning
        rcases List.mem_cons.mp (hfreed ▸ hmem) with rfl | hmem
        · exact hkeeps o ops hops view call hgui' ho
        · exact h.safe view call hgui' o ho hmem

theorem layered_of_orderly {attached held : Bool} {freed : List ArchiveObject} {ops : List FreeOp}
    (h : orderly attached held freed ops = true) : Layered attached freed := by
  cases ops with
  | nil => exact of_decide_eq_true h
  | cons op ops => exact of_decide_eq_true (Bool.and_eq_true_iff.mp h).1

theorem Sound.of_gui (h : s.Sound) (hsafe : s'.Safe) (hops : s'.ops = s.ops)
    (hfreed : s'.freed = s.freed) (hattached : s'.attached = s.attached)
    (happ : s'.mutex = some .app ↔ s.mutex = some .app)
    (hgui : s'.gui ≠ .idle ↔ s'.mutex = some .gui)
    (hrunning : ∀ view call, s'.gui = .running view call → s.attached) : s'.Sound := by
  constructor
  · exact hsafe
  · rw [hattached, hfreed]
    exact h.layered
  · exact hgui
  · rw [hattached]
    exact hrunning
  · rw [hops, hfreed, hattached, Ne, not_congr happ]
    exact h.waits
  · rw [hops, hattached, hfreed]
    simpa only [happ] using h.orderly

theorem Sound.of_app {op : FreeOp} {ops : List FreeOp} (h : s.Sound)
    (hs : s.free op ops = some s') (hsafe : s'.Safe)
    (hmutex : s'.mutex = some .gui ↔ s.mutex = some .gui)
    (hattached : s'.attached = s.attached ∨ s.mutex = some .app)
    (horderly : Teardown.orderly s'.attached (decide (s'.mutex = some .app)) s'.freed ops = true) :
    s'.Sound := by
  obtain ⟨hgui, hops', -⟩ := free_eq_some hs
  constructor
  · exact hsafe
  · exact layered_of_orderly horderly
  · rw [hgui, hmutex]
    exact h.gui
  · rintro view call hrunning
    rcases hattached with hattached | happ
    · exact hattached ▸ h.attached view call (hgui ▸ hrunning)
    · have hlocked := h.gui.mp (by simp [← hgui, hrunning])
      cases happ ▸ hlocked
  · rintro hnone
    cases hops' ▸ hnone
  · rintro ops' hsome
    obtain rfl := Option.some.inj (hops' ▸ hsome)
    exact horderly

theorem Sound.free {op : FreeOp} {ops : List FreeOp} (h : s.Sound)
    (hops : s.ops = some (op :: ops)) (hs : s.free op ops = some s') (hsafe : s'.Safe) :
    s'.Sound := by
  have hrest := h.orderly _ hops
  simp only [Teardown.orderly, Bool.and_eq_true_iff] at hrest
  obtain ⟨-, hrest⟩ := hrest
  cases op with
  | free object =>
    obtain rfl := Option.some.inj hs
    exact h.of_app hs hsafe Iff.rfl (.inl rfl) hrest
  | lock =>
    have hlock := hs
    simp only [Teardown.free] at hlock
    split at hlock
    · next hmutex =>
      obtain rfl := Option.some.inj hlock
      exact h.of_app hs hsafe (by simp [hmutex]) (.inl rfl) hrest
    · cases hlock
  | unlock =>
    obtain ⟨happ, hrest⟩ := Bool.and_eq_true_iff.mp hrest
    obtain rfl := Option.some.inj hs
    exact h.of_app hs hsafe (by simp [of_decide_eq_true happ]) (.inl rfl) hrest
  | disable view =>
    have hdisable := hs
    simp only [Teardown.free] at hdisable
    split at hdisable
    · obtain rfl := Option.some.inj hdisable
      exact h.of_app hs hsafe Iff.rfl (.inl rfl) hrest
    · obtain rfl := Option.some.inj hdisable
      exact h.of_app hs hsafe Iff.rfl (.inl rfl) hrest
  | removeViewPort =>
    obtain ⟨happ, hrest⟩ := Bool.and_eq_true_iff.mp hrest
    obtain rfl := Option.some.inj hs
    exact h.of_app hs hsafe Iff.rfl (.inr (of_decide_eq_true happ)) hrest
  | erase view | other =>
    obtain rfl := Option.some.inj hs
    exact h.of_app hs hsafe Iff.rfl (.inl rfl) hrest

theorem Sound.next (h : s.Sound) (hs : s.Next l s') (hsafe : s'.Safe) : s'.Sound := by
  cases hs with
  | lock call hgui hmutex =>
    apply h.of_gui hsafe rfl rfl rfl
    · simp [hmutex]
    · simp
    · rintro view call hrunning
      cases hrunning
  | call view call hgui hcurrent hattached henabled =>
    apply h.of_gui hsafe rfl rfl rfl Iff.rfl
    · exact iff_of_true (by simp) (h.gui.mp (by simp [hgui]))
    · exact fun _ _ _ => hattached
  | skip call hgui hnone =>
    apply h.of_gui hsafe rfl rfl rfl Iff.rfl
    · exact iff_of_true (by simp) (h.gui.mp (by simp [hgui]))
    · rintro view call hrunning
      cases hrunning
  | switch view => exact h.of_gui hsafe rfl rfl rfl Iff.rfl h.gui h.attached
  | exit => exact h.of_gui hsafe rfl rfl rfl Iff.rfl h.gui h.attached
  | back view call hgui =>
    apply h.of_gui hsafe rfl rfl rfl Iff.rfl
    · exact iff_of_true (by simp) (h.gui.mp (by simp [hgui]))
    · rintro view call hrunning
      cases hrunning
  | unlock hgui =>
    have hmutex : s.mutex = some .gui := h.gui.mp (by simp [hgui])
    apply h.of_gui hsafe rfl rfl rfl
    · simp [hmutex]
    · simp
    · rintro view call hrunning
      cases hrunning
  | start hops =>
    obtain ⟨hmutex, hfreed, hattached⟩ := h.waits hops
    constructor
    · exact hsafe
    · exact h.layered
    · exact h.gui
    · exact h.attached
    · rintro ⟨⟩
    · rintro ops hops'
      obtain rfl := Option.some.inj hops'
      simp only [hfreed, hattached, hmutex, decide_false]
      decide
  | free op ops hops hs => exact h.free hops hs hsafe

theorem sound_init : machine.init.Sound := by
  constructor
  · rintro view call ⟨⟩
  · decide
  · decide
  · rintro view call ⟨⟩
  · exact fun _ => ⟨by rintro ⟨⟩, rfl, rfl⟩
  · rintro ops ⟨⟩

end Teardown

end FlipperZero.Archive
