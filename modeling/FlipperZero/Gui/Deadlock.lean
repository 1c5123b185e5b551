import FlipperZero.Gui.ViewDispatcher
import Mathlib.Order.Nat

/-! # Deadlock of the view dispatcher

The GUI service blocks with its lock held when the queue is full. The application, which
alone can empty the queue, must not be on its way to the lock or to a place in the queue.
-/

namespace FlipperZero.Gui

open Lib

variable {View : Type}

/-- An operation that takes the lock or posts, or leads to one that does. -/
def Op.blocks : Op View → Bool
  | .guiLock | .post _ | .setCurrentView none | .assignView none | .disable _ => true
  | .switchToView viewId => viewId = viewNone || viewId = viewDestroy
  | _ => false

def Call.blocks (c : Call View) : Bool := c.ops.any Op.blocks

namespace GuiState

variable (s : GuiState View)

/-- The GUI service is about to put an event into the queue. -/
def Delivering : Prop :=
  match s.gui with
  | .put _ _ => True
  | _ => False

def GuiBlocked : Prop := s.Delivering ∧ queueLength ≤ s.queue.length

/-- The application is blocked on the lock, or on the full queue. -/
def AppBlocked : Prop :=
  match s.ops with
  | .guiLock :: _ => s.mutex ≠ none
  | .post _ :: _ => queueLength ≤ s.queue.length
  | _ => False

/-- The application is inside a call that takes the lock or posts. -/
def Calling : Prop := s.ops.any Op.blocks = true

end GuiState

/-- An event goes to a full queue only when the application is inside no call that blocks; such a
call begins only when the service is not blocked; and a post inside another such call leaves room
for an event on its way. -/
def Roomy (s : GuiState View) : GuiLabel View → Prop
  | .gui front =>
    match s.gui with
    | .inputFind _ _ =>
      front → s.attached → s.isEnabled → queueLength ≤ s.queue.length → ¬s.Calling
    | _ => True
  | .call c => c.blocks → ¬s.GuiBlocked
  | .navigate (some viewId) => (Op.switchToView viewId : Op View).blocks → ¬s.GuiBlocked
  | .op =>
    match s.ops with
    | .post _ :: ops =>
      s.Delivering → queueLength ≤ s.queue.length + 1 → ops.any Op.blocks = false
    | _ => True
  | _ => True

namespace GuiState

variable {s s' : GuiState View} {vertical : View → Bool}

theorem AppBlocked.calling (h : s.AppBlocked) : s.Calling := by
  unfold AppBlocked at h
  unfold Calling
  split at h
  · next hops => rw [hops]; rfl
  · next hops => rw [hops]; rfl
  · cases h

/-- What a step does for the deadlock: it keeps the service where it is or away from the queue,
adds nothing to the queue and leads into no call that blocks. -/
structure Quiet (s s' : GuiState View) : Prop where
  gui : s'.Delivering → s.Delivering
  queue : s'.queue.length ≤ s.queue.length
  ops : s'.Calling → s.Calling

theorem Quiet.keep (h : Quiet s s') (hs : s.GuiBlocked → ¬s.Calling) :
    s'.GuiBlocked → ¬s'.Calling := by
  rintro ⟨hdelivering, hfull⟩ hcalling
  exact hs ⟨h.gui hdelivering, hfull.trans h.queue⟩ (h.ops hcalling)

theorem quiet_viewPortEnabledSet (enabled : Bool) : Quiet s (s.viewPortEnabledSet enabled) := by
  unfold viewPortEnabledSet
  split
  · split <;> exact ⟨id, le_rfl, id⟩
  · exact ⟨id, le_rfl, id⟩

theorem quiet_viewPortUpdate : Quiet s s.viewPortUpdate := by
  unfold viewPortUpdate
  split <;> exact ⟨id, le_rfl, id⟩

theorem Quiet.trans {t : GuiState View} (h : Quiet s s') (h' : Quiet s' t) : Quiet s t :=
  ⟨fun hd => h.gui (h'.gui hd), h'.queue.trans h.queue, fun hc => h.ops (h'.ops hc)⟩

theorem quiet_pop {op : Op View} (hgui : s'.gui = s.gui) (hqueue : s'.queue = s.queue)
    (hops : s.ops = op :: s'.ops) : Quiet s s' := by
  refine ⟨?_, by rw [hqueue], ?_⟩
  · unfold Delivering
    rw [hgui]
    exact id
  · unfold Calling
    rw [hops, List.any_cons, Bool.or_eq_true]
    exact Or.inr

theorem op_quiet [DecidableEq View] (h : s.op vertical = some s') (hpost : ∀ m ops, s.ops ≠ .post m :: ops) :
    Quiet s s' := by
  unfold op at h
  split at h
  case h_1 ops hops =>
    split at h
    · next queue hqueue =>
      obtain rfl := Option.some.inj h
      refine ⟨id, by simp [hqueue], ?_⟩
      simp [Calling, hops, Op.blocks]
    · next event queue hqueue =>
      obtain rfl := Option.some.inj h
      refine ⟨id, by simp [hqueue], ?_⟩
      dsimp only [Calling]
      rw [hops]
      split <;> simp [Op.blocks]
    · cases h
  case h_2 viewId ops hops =>
    split at h
    · next hnone =>
      obtain rfl := Option.some.inj h
      refine ⟨id, le_rfl, ?_⟩
      simp [Calling, hops, Op.blocks, hnone]
    · split at h
      · obtain rfl := Option.some.inj h
        exact quiet_pop rfl rfl hops
      · split at h
        · next hdestroy =>
          obtain rfl := Option.some.inj h
          refine ⟨id, le_rfl, ?_⟩
          simp [Calling, hops, Op.blocks, hdestroy]
        · split at h
          · obtain rfl := Option.some.inj h
            refine ⟨id, le_rfl, ?_⟩
            simp only [Calling, hops, List.any_cons, Op.blocks, Bool.false_or, Bool.or_eq_true]
            exact Or.inr
          · cases h
  case h_3 view ops hops =>
    obtain rfl := Option.some.inj h
    refine ⟨id, le_rfl, ?_⟩
    dsimp only [Calling]
    rw [hops]
    cases view <;> split <;> simp [Op.blocks]
  case h_4 view ops hops =>
    obtain rfl := Option.some.inj h
    refine ⟨id, le_rfl, ?_⟩
    simp [Calling, hops, Op.blocks]
  case h_5 ops hops =>
    obtain rfl := Option.some.inj h
    refine Quiet.trans ?_ (quiet_viewPortEnabledSet false)
    refine ⟨id, le_rfl, ?_⟩
    simp [Calling, hops, Op.blocks]
  case h_6 ops hops =>
    obtain rfl := Option.some.inj h
    refine Quiet.trans (Quiet.trans ?_ (quiet_viewPortEnabledSet true)) quiet_viewPortUpdate
    exact quiet_pop rfl rfl hops
  case h_7 message ops hops => exact absurd hops (hpost message ops)
  case h_8 ops hops =>
    split at h
    · obtain rfl := Option.some.inj h
      exact quiet_pop rfl rfl hops
    · cases h
  case h_9 ops hops =>
    obtain rfl := Option.some.inj h
    exact quiet_pop rfl rfl hops
  case h_10 viewId view ops hops =>
    obtain rfl := Option.some.inj h
    exact quiet_pop rfl rfl hops
  case h_11 viewId ops hops =>
    split at h
    · split at h
      · obtain rfl := Option.some.inj h
        refine ⟨id, le_rfl, ?_⟩
        simp [Calling, hops, Op.blocks]
      · obtain rfl := Option.some.inj h
        exact quiet_pop rfl rfl hops
    · cases h
  case h_12 viewId ops hops =>
    obtain rfl := Option.some.inj h
    exact quiet_pop rfl rfl hops
  case h_13 ops hops =>
    obtain rfl := Option.some.inj h
    exact quiet_pop rfl rfl hops
  case h_14 => cases h

theorem ret_quiet (h : s.ret = some s') : Quiet s s' := by
  unfold ret at h
  split at h
  · next hops =>
    obtain rfl := Option.some.inj h
    exact quiet_pop rfl rfl hops
  · cases h

theorem post_keep [DecidableEq View] {message : ViewDispatcherMessage} {ops : List (Op View)}
    (hops : s.ops = .post message :: ops) (hok : Roomy s .op) (h : s.op vertical = some s') :
    s'.GuiBlocked → ¬s'.Calling := by
  simp only [op, hops] at h
  split at h
  · obtain rfl := Option.some.inj h
    rintro ⟨hdelivering, hfull⟩ hcalling
    simp only [Roomy, hops] at hok
    have hrest := hok hdelivering (by simpa using hfull)
    exact Bool.false_ne_true (hrest.symm.trans hcalling)
  · cases h

theorem call_keep {c : Call View} (hs : s.GuiBlocked → ¬s.Calling) (hok : Roomy s (.call c))
    (h : s.call c = some s') : s'.GuiBlocked → ¬s'.Calling := by
  have hstate : s' = { s with ops := c.ops ++ s.ops } := by
    unfold call at h
    split at h
    · split at h
      · split at h
        · exact (Option.some.inj h).symm
        · cases h
      · exact (Option.some.inj h).symm
    · cases h
  subst hstate
  intro hblocked hcalling
  simp only [Calling, List.any_append, Bool.or_eq_true] at hcalling
  rcases hcalling with hcall | hcalling
  · exact hok hcall hblocked
  · exact hs hblocked hcalling

theorem navigate_keep {viewId : Option ℕ} (hs : s.GuiBlocked → ¬s.Calling)
    (hok : Roomy s (.navigate viewId)) (h : s.navigate viewId = some s') :
    s'.GuiBlocked → ¬s'.Calling := by
  unfold navigate at h
  split at h
  · next event ops hops =>
    split at h
    · obtain rfl := Option.some.inj h
      have hquiet : Quiet s { s with ops := ops } := quiet_pop rfl rfl hops
      exact hquiet.keep hs
    · next viewId =>
      split at h
      · obtain rfl := Option.some.inj h
        intro hblocked hcalling
        simp only [Calling, List.any_cons, Bool.or_eq_true] at hcalling
        rcases hcalling with hcode | hswitch | hcalling
        · cases hcode
        · exact hok hswitch hblocked
        · refine hs hblocked ?_
          simp only [Calling, hops, List.any_cons, Bool.or_eq_true]
          exact Or.inr hcalling
      · cases h
  · cases h

theorem guiTask_keep {front : Bool}
    (hok : Roomy s (.gui front)) (h : s.guiTask front = some s') :
    s'.GuiBlocked → ¬s'.Calling := by
  unfold guiTask at h
  split at h
  case h_4 event draw hgui =>
    simp only [Roomy, hgui] at hok
    split at h
    · next hfront =>
      simp only [Bool.and_eq_true] at hfront
      obtain rfl := Option.some.inj h
      rintro ⟨-, hfull⟩
      exact hok hfront.1.1 hfront.1.2 hfront.2 hfull
    · obtain rfl := Option.some.inj h
      rintro ⟨hdelivering, -⟩
      cases hdelivering
  case h_1 =>
    split at h
    · obtain rfl := Option.some.inj h
      rintro ⟨hdelivering, -⟩
      cases hflag : s.flagInput <;> simp [Delivering, hflag] at hdelivering
    · cases h
  case h_2 draw _ =>
    split at h
    · obtain rfl := Option.some.inj h
      rintro ⟨hdelivering, -⟩
      cases hdelivering
    · obtain rfl := Option.some.inj h
      rintro ⟨hdelivering, -⟩
      cases draw <;> cases hdelivering
  case h_3 | h_5 | h_8 =>
    split at h
    · obtain rfl := Option.some.inj h
      rintro ⟨hdelivering, -⟩
      cases hdelivering
    · cases h
  case h_6 | h_7 | h_9 =>
    obtain rfl := Option.some.inj h
    rintro ⟨hdelivering, -⟩
    cases hdelivering

end GuiState

/-- In every run with room for the input, the GUI service and the application are never blocked on
each other. -/
theorem view_dispatcher_deadlock_free {View : Type} [DecidableEq View] (vertical : View → Bool)
    {s : GuiState View} (hs : (viewDispatcher vertical).ReachableWith Roomy s) :
    ¬(s.GuiBlocked ∧ s.AppBlocked) := by
  have h : s.GuiBlocked → ¬s.Calling := by
    refine hs.invariant (P := fun s => s.GuiBlocked → ¬s.Calling) ?_ ?_
    · rintro ⟨hdelivering, -⟩
      cases hdelivering
    · intro s l s' hs hok hstep
      cases l with
      | input event =>
        simp only [viewDispatcher, GuiState.inputEventsCallback] at hstep
        split at hstep
        · cases hstep
        · split at hstep
          · obtain rfl := Option.some.inj hstep
            exact hs
          · cases hstep
      | inputFlags =>
        simp only [viewDispatcher, GuiState.inputFlagsSet] at hstep
        split at hstep
        · obtain rfl := Option.some.inj hstep
          exact hs
        · cases hstep
      | gui front => exact GuiState.guiTask_keep hok hstep
      | call c => exact GuiState.call_keep hs hok hstep
      | ret => exact (GuiState.ret_quiet hstep).keep hs
      | navigate viewId => exact GuiState.navigate_keep hs hok hstep
      | op =>
        by_cases hpost : ∃ m ops, s.ops = .post m :: ops
        · obtain ⟨m, ops, hops⟩ := hpost
          exact GuiState.post_keep hops hok hstep
        · have hquiet := GuiState.op_quiet hstep fun m ops hops => hpost ⟨m, ops, hops⟩
          exact hquiet.keep hs
  rintro ⟨hgui, happ⟩
  exact h hgui happ.calling

/-- A view is added and shown, the application waits for messages, and the service has redrawn. -/
def shownRun : List (GuiLabel Unit) :=
  [GuiLabel.call (.addView 0 ()), .op, .op, .op, .call (.switchToView 0), .op, .op, .op, .ret, .op,
    .call .run] ++ List.replicate 4 (GuiLabel.gui true)

def arriveRun : List (GuiLabel Unit) :=
  [.input ⟨.up, .press⟩, .inputFlags, .gui true, .gui true, .gui true, .gui true]

def deliverRun : List (GuiLabel Unit) := 
  arriveRun ++ [GuiLabel.gui true, .gui true, .gui true]

/-- While the view handles an event, eight more fill the queue and one is on its way; then the
application adds a view. -/
def fillRun : List (GuiLabel Unit) :=
  shownRun ++ deliverRun ++ [GuiLabel.op] ++ (List.replicate 8 deliverRun).flatten ++ arriveRun ++
    [GuiLabel.call (.addView 1 ())]

set_option maxRecDepth 2000 in
theorem view_dispatcher_deadlocks : ∃ s, (viewDispatcher fun _ : Unit => false).Reachable s ∧
    s.GuiBlocked ∧ s.AppBlocked := by
  have hrun : ∃ s, (viewDispatcher fun _ : Unit => false).exec
      (viewDispatcher fun _ : Unit => false).init fillRun = some s ∧
      s.gui = .put ⟨.up, .press⟩ false ∧ s.queue.length = 8 ∧ s.mutex = some .gui ∧
      s.ops.head? = some .guiLock := ⟨_, rfl, rfl, rfl, rfl, rfl⟩
  obtain ⟨s, hs, hgui, hqueue, hmutex, hhead⟩ := hrun
  obtain ⟨ops, hops⟩ := List.head?_eq_some_iff.mp hhead
  refine ⟨s, Machine.exec_reachable .init hs, ⟨?_, hqueue.ge⟩, ?_⟩
  · rw [GuiState.Delivering, hgui]
    trivial
  · rw [GuiState.AppBlocked, hops, hmutex]
    exact Option.some_ne_none _

instance (s : GuiState View) : Decidable s.Delivering := by
  unfold GuiState.Delivering
  split <;> infer_instance

instance (s : GuiState View) : Decidable s.GuiBlocked :=
  inferInstanceAs (Decidable (_ ∧ _))

instance (s : GuiState View) : Decidable s.Calling :=
  inferInstanceAs (Decidable (_ = true))

instance (s : GuiState View) (l : GuiLabel View) : Decidable (Roomy s l) := by
  unfold Roomy
  split <;> (try split) <;> infer_instance

/-- The view handles an event and adds a view while the next one is delivered. -/
def addRun : List (GuiLabel Unit) :=
  shownRun ++ deliverRun ++ [GuiLabel.op] ++ arriveRun ++ [GuiLabel.call (.addView 1 ())]

theorem view_dispatcher_deadlock_free_add : ∃ s,
    (viewDispatcher fun _ : Unit => false).execWith Roomy
      (viewDispatcher fun _ : Unit => false).init addRun = some s ∧
    s.Delivering ∧ ¬(s.GuiBlocked ∧ s.AppBlocked) := by
  have hrun : ∃ s, (viewDispatcher fun _ : Unit => false).execWith Roomy
      (viewDispatcher fun _ : Unit => false).init addRun = some s ∧ s.Delivering :=
    ⟨_, rfl, trivial⟩
  obtain ⟨s, hs, hdelivering⟩ := hrun
  exact ⟨s, hs, hdelivering,
    view_dispatcher_deadlock_free (fun _ : Unit => false) (Machine.execWith_reachableWith .init hs)⟩

end FlipperZero.Gui
