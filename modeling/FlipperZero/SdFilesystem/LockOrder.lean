import FlipperZero.SdFilesystem.App

/-! # The two locks of the SD card application

The application attaches and removes the port of its view with the mutex of the
file system held, and so waits for the lock of the GUI with it. The GUI calls the
input callback of a view with its lock held, and a callback that lists a directory
waits for the mutex of the file system. What the two threads do is kept as the
operations that are left to them, as far as locks, view and events are concerned.
-/

namespace FlipperZero.SdFilesystem.LockOrder

open Lib

inductive Lock where
  | fs
  | gui
  deriving DecidableEq, Repr

/-- The application, the GUI, and any thread that takes one of the locks for a while. -/
inductive Thread where
  | sd
  | gui
  | other
  deriving DecidableEq, Repr

inductive EventType where
  | ok
  | back
  | format
  | info
  | eject
  | fileSelect
  | checkError
  | showError
  deriving DecidableEq, Repr

inductive View where
  | dialogEx
  | fileSelect
  deriving DecidableEq, Repr

structure Holder where
  enabled : Bool
  view : View
  deriving DecidableEq, Repr

inductive Op where
  | lock (m : Lock)
  | unlock (m : Lock)
  | post (e : EventType)
  | setHolder (h : Option Holder)
  | enabledSet (enabled : Bool)
  | setState (state : SdAppState)
  /-- `gui_input` looks for the view port that gets the event. -/
  | dispatch
  deriving DecidableEq, Repr

/-- Calls of the file system's interface, each of which takes its mutex once. -/
def apiCalls (n : ℕ) : List Op := (List.replicate n [.lock .fs, .unlock .fs]).flatten

structure State where
  owner : Lock → Option Thread
  ops : Thread → List Op
  sdAppState : SdAppState
  viewHolder : Option Holder
  eventQueue : List EventType

def State.init : State where
  owner _ := none
  ops _ := []
  sdAppState := .background
  viewHolder := none
  eventQueue := []

/-- What the card answers while the application handles an event, and how many calls it takes. -/
structure Card where
  statusOk : Bool
  madePath : Bool
  initCalls : ℕ
  initialised : Bool
  selectCalls : ℕ

def tryToAllocViewHolder (view : View) : List Op :=
  [.lock .fs, .lock .gui, .unlock .gui, .setHolder (some ⟨false, view⟩), .unlock .fs]

/-- `try_to_alloc_view_holder` that finds the holder in use. -/
def refuseViewHolder : List Op := [.lock .fs, .unlock .fs]

def freeViewHolder (s : State) : List Op :=
  if s.viewHolder.isSome then [.lock .fs, .lock .gui, .unlock .gui, .setHolder none, .unlock .fs]
  else [.lock .fs, .unlock .fs]

def appResetState (free : List Op) : List Op :=
  .enabledSet false :: (free ++ [Op.setState .background])

def openDialog (s : State) (calls : ℕ) (state : SdAppState) : List Op :=
  if s.viewHolder = none then
    tryToAllocViewHolder .dialogEx ++ apiCalls calls ++ [Op.enabledSet true, .setState state]
  else refuseViewHolder

def handleFileSelect (s : State) (card : Card) : List Op :=
  if !card.madePath then []
  else if s.viewHolder = none then
    tryToAllocViewHolder .fileSelect ++ apiCalls card.initCalls ++
      if card.initialised then
        .setState .fileSelect :: (apiCalls card.selectCalls ++ [Op.enabledSet true])
      else
        .post .back :: appResetState
          [.lock .fs, .lock .gui, .unlock .gui, .setHolder none, .unlock .fs]
  else refuseViewHolder

/-- The main loop of `sd_filesystem` for one event. -/
def handle (s : State) (card : Card) : EventType → List Op
  | .ok =>
    match s.sdAppState with
    | .format => .setState .formatInProgress :: (apiCalls 1 ++ [.setState .formatCompleted])
    | .eject => .setState .ejected :: apiCalls 1
    | .fileSelect => appResetState (freeViewHolder s)
    | _ => []
  | .back =>
    match s.sdAppState with
    | .formatInProgress => []
    | _ => appResetState (freeViewHolder s)
  | .format => openDialog s 0 .format
  | .info => openDialog s (if card.statusOk then 1 else 2) .info
  | .eject => openDialog s 0 .eject
  | .fileSelect => handleFileSelect s card
  | .checkError => if card.statusOk then [] else openDialog s 0 .checkError
  | .showError => openDialog s 0 .showError

/-- What an input event comes to in the callback that it is dispatched to. -/
inductive Input where
  /-- No view port, or a callback that takes no lock and posts nothing. -/
  | none
  /-- The archive view lists a directory or works on a file. -/
  | archive (calls : ℕ)
  /-- The dialog or the file select view posts an event. -/
  | holder (e : EventType)
  /-- The file select view lists its directory; it posts Back when it cannot. -/
  | list (calls : ℕ) (listed : Bool)
  deriving DecidableEq, Repr

def inputOps : Input → List Op
  | .none => []
  | .archive calls => apiCalls calls
  | .holder e => [.post e]
  | .list calls listed => apiCalls calls ++ if listed then [] else [.post .back]

/-- The port of the view holder is found for its own callbacks only. -/
def Input.Found (s : State) : Input → Prop
  | .none | .archive _ => True
  | .holder e => (∃ h, s.viewHolder = some h ∧ h.enabled = true) ∧ (e = .ok ∨ e = .back)
  | .list _ _ => s.viewHolder = some ⟨true, .fileSelect⟩

instance (s : State) (i : Input) : Decidable (i.Found s) := by
  cases i with
  | holder e =>
    have : Decidable (∃ h, s.viewHolder = some h ∧ h.enabled = true) :=
      decidable_of_iff (s.viewHolder.any Holder.enabled = true) (by simp [Option.any_eq_true])
    exact inferInstanceAs (Decidable (_ ∧ _))
  | none => exact inferInstanceAs (Decidable True)
  | archive _ => exact inferInstanceAs (Decidable True)
  | list _ _ => exact inferInstanceAs (Decidable (_ = _))

inductive Label where
  | request (e : EventType)
  | take (card : Card)
  | card
  | input
  | redraw
  | dispatch (i : Input)
  | step (t : Thread)
  | acquire (m : Lock)
  | release (m : Lock)

def State.setOps (s : State) (t : Thread) (ops : List Op) : State :=
  { s with ops := Function.update s.ops t ops }

/-- The thread does the first of its operations, when it is not blocked. -/
def step (s : State) (t : Thread) : Option State :=
  match s.ops t with
  | [] | .dispatch :: _ => none
  | .lock m :: ops =>
    if s.owner m = none then
      some { s.setOps t ops with owner := Function.update s.owner m (some t) }
    else none
  | .unlock m :: ops =>
    if s.owner m = some t then
      some { s.setOps t ops with owner := Function.update s.owner m none }
    else none
  | .post e :: ops =>
    if s.eventQueue.length < eventQueueLength then
      some { s.setOps t ops with eventQueue := s.eventQueue ++ [e] }
    else none
  | .setHolder h :: ops => some { s.setOps t ops with viewHolder := h }
  | .enabledSet enabled :: ops =>
    s.viewHolder.map fun h => { s.setOps t ops with viewHolder := some { h with enabled } }
  | .setState state :: ops => some { s.setOps t ops with sdAppState := state }

def next (s : State) : Label → Option State
  | .request e =>
    if e ≠ .ok ∧ e ≠ .back ∧ s.eventQueue.length < eventQueueLength then
      some { s with eventQueue := s.eventQueue ++ [e] }
    else none
  | .take card =>
    match s.ops .sd, s.eventQueue with
    | [], e :: events => some { s.setOps .sd (handle s card e) with eventQueue := events }
    | _, _ => none
  | .card => if s.ops .sd = [] then some (s.setOps .sd (apiCalls 1)) else none
  | .input =>
    if s.ops .gui = [] then some (s.setOps .gui [.lock .gui, .dispatch, .unlock .gui]) else none
  | .redraw => if s.ops .gui = [] then some (s.setOps .gui [.lock .gui, .unlock .gui]) else none
  | .dispatch i =>
    match s.ops .gui with
    | .dispatch :: ops => if i.Found s then some (s.setOps .gui (inputOps i ++ ops)) else none
    | _ => none
  | .step t => step s t
  | .acquire m =>
    if s.owner m = none then some { s with owner := Function.update s.owner m (some .other) }
    else none
  | .release m =>
    if s.owner m = some .other then some { s with owner := Function.update s.owner m none }
    else none

def machine : Machine State Label where
  init := .init
  next := next

/-- The application holds the mutex of the file system and waits for the GUI, and the GUI the other
way round. -/
def Cycle (s : State) : Prop :=
  (s.owner .fs = some .sd ∧ ∃ ops, s.ops .sd = .lock .gui :: ops) ∧
    s.owner .gui = some .gui ∧ ∃ ops, s.ops .gui = .lock .fs :: ops

/-- The application holds the mutex of the file system and waits for the lock of the GUI. -/
def Waits (s : State) : Prop :=
  s.owner .fs = some .sd ∧ (s.ops .sd).head? = some (.lock .gui)

def Ahead (s : State) : Prop := .lock .fs ∈ s.ops .gui

instance (s : State) : Decidable (Waits s) := inferInstanceAs (Decidable (_ ∧ _))

instance (s : State) : Decidable (Ahead s) := inferInstanceAs (Decidable (_ ∈ _))

/-- The application takes the mutex for its view only when the GUI is in no callback with calls of the
file system ahead, and no such callback begins while the application waits with the mutex. -/
def Apart (s : State) : Label → Prop
  | .step .sd => (s.ops .sd).take 2 = [.lock .fs, .lock .gui] → ¬ Ahead s
  | .dispatch i => .lock .fs ∈ inputOps i → ¬ Waits s
  | _ => True

instance (s : State) (l : Label) : Decidable (Apart s l) := by
  cases l with
  | step t =>
    cases t with
    | sd => exact inferInstanceAs (Decidable (_ → _))
    | gui => exact inferInstanceAs (Decidable True)
    | other => exact inferInstanceAs (Decidable True)
  | dispatch i => exact inferInstanceAs (Decidable (_ → _))
  | request e => exact inferInstanceAs (Decidable True)
  | take card => exact inferInstanceAs (Decidable True)
  | card => exact inferInstanceAs (Decidable True)
  | input => exact inferInstanceAs (Decidable True)
  | redraw => exact inferInstanceAs (Decidable True)
  | acquire m => exact inferInstanceAs (Decidable True)
  | release m => exact inferInstanceAs (Decidable True)

section Programs

/-- The lock of the GUI is taken only right after the mutex of the file system. -/
inductive Nested : List Op → Prop
  | nil : Nested []
  | nest {ops} : Nested ops → Nested (.lock .fs :: .lock .gui :: ops)
  | cons {op ops} : op ≠ .lock .gui → Nested ops → Nested (op :: ops)

/-- Calls of the file system, and then nothing that takes its mutex. -/
inductive Calls : List Op → Prop
  | call {ops} : Calls ops → Calls (.lock .fs :: .unlock .fs :: ops)
  | rest {ops} : .lock .fs ∉ ops → Calls ops

variable {ops ops' : List Op} {s s' : State}

theorem Nested.append (h : Nested ops) (h' : Nested ops') : Nested (ops ++ ops') := by
  induction h with
  | nil => exact h'
  | nest _ ih => exact .nest ih
  | cons hop _ ih => exact .cons hop ih

theorem apiCalls_succ (n : ℕ) : apiCalls (n + 1) = .lock .fs :: .unlock .fs :: apiCalls n := rfl

theorem nested_of_not_mem (h : .lock .gui ∉ ops) : Nested ops := by
  induction ops with
  | nil => exact .nil
  | cons op ops ih =>
    rw [List.mem_cons, not_or] at h
    exact .cons (Ne.symm h.1) (ih h.2)

theorem nested_apiCalls (n : ℕ) : Nested (apiCalls n) := by
  induction n with
  | zero => exact .nil
  | succ n ih => exact .cons (by decide) (.cons (by decide) ih)

theorem calls_apiCalls (n : ℕ) (h : .lock .fs ∉ ops) : Calls (apiCalls n ++ ops) := by
  induction n with
  | zero => exact .rest h
  | succ n ih => exact .call ih

theorem nested_holderOps (h : Option Holder) :
    Nested [.lock .fs, .lock .gui, .unlock .gui, .setHolder h, .unlock .fs] :=
  .nest (nested_of_not_mem (by simp))

theorem nested_appResetState {free : List Op} (h : Nested free) : Nested (appResetState free) :=
  .cons (by simp) (h.append (nested_of_not_mem (by simp)))

theorem nested_freeViewHolder (s : State) : Nested (freeViewHolder s) := by
  unfold freeViewHolder
  split
  · exact nested_holderOps none
  · exact nested_of_not_mem (by simp)

theorem nested_openDialog (s : State) (calls : ℕ) (state : SdAppState) :
    Nested (openDialog s calls state) := by
  unfold openDialog
  split
  · exact ((nested_holderOps _).append (nested_apiCalls calls)).append (nested_of_not_mem (by simp))
  · exact nested_of_not_mem (by simp [refuseViewHolder])

theorem nested_handleFileSelect (s : State) (card : Card) : Nested (handleFileSelect s card) := by
  unfold handleFileSelect
  split
  · exact .nil
  · split
    · refine ((nested_holderOps _).append (nested_apiCalls _)).append ?_
      split
      · exact .cons (by simp) ((nested_apiCalls _).append (nested_of_not_mem (by simp)))
      · exact .cons (by simp) (nested_appResetState (nested_holderOps none))
    · exact nested_of_not_mem (by simp [refuseViewHolder])

theorem nested_handle (s : State) (card : Card) (e : EventType) : Nested (handle s card e) := by
  cases e with
  | ok =>
    dsimp only [handle]
    split
    · exact .cons (by simp) ((nested_apiCalls 1).append (nested_of_not_mem (by simp)))
    · exact .cons (by simp) (nested_apiCalls 1)
    · exact nested_appResetState (nested_freeViewHolder s)
    · exact .nil
  | back =>
    dsimp only [handle]
    split
    · exact .nil
    · exact nested_appResetState (nested_freeViewHolder s)
  | format => exact nested_openDialog s 0 .format
  | info => exact nested_openDialog s _ .info
  | eject => exact nested_openDialog s 0 .eject
  | fileSelect => exact nested_handleFileSelect s card
  | checkError =>
    dsimp only [handle]
    split
    · exact .nil
    · exact nested_openDialog s 0 .checkError
  | showError => exact nested_openDialog s 0 .showError

theorem calls_inputOps (i : Input) : Calls (inputOps i ++ [Op.unlock .gui]) := by
  cases i with
  | none => exact .rest (by simp [inputOps])
  | archive calls => exact calls_apiCalls calls (by simp)
  | holder e => exact .rest (by simp [inputOps])
  | list calls listed =>
    simp only [inputOps, List.append_assoc]
    apply calls_apiCalls
    split <;> simp

theorem dispatch_not_mem_inputOps (i : Input) : .dispatch ∉ inputOps i := by
  have hcalls : ∀ n, .dispatch ∉ apiCalls n := by
    intro n
    induction n with
    | zero => simp [apiCalls]
    | succ n ih => simpa [apiCalls_succ] using ih
  cases i with
  | none => simp [inputOps]
  | archive calls => exact hcalls calls
  | holder e => simp [inputOps]
  | list calls listed =>
    simp only [inputOps, List.mem_append, not_or]
    refine ⟨hcalls calls, ?_⟩
    split <;> simp

theorem Calls.head (h : Calls ops) (hmem : .lock .fs ∈ ops) :
    ∃ rest, ops = .lock .fs :: .unlock .fs :: rest ∧ Calls rest := by
  cases h with
  | call h => exact ⟨_, rfl, h⟩
  | rest h => exact absurd hmem h

end Programs

section Steps

variable {s s' : State} {ops : List Op} {t u : Thread}

theorem step_cases (h : step s t = some s') : ∃ op ops, s.ops t = op :: ops ∧
    s'.ops = Function.update s.ops t ops ∧
    ((∃ m, op = .lock m ∧ s.owner m = none ∧ s'.owner = Function.update s.owner m (some t)) ∨
      (∃ m, op = .unlock m ∧ s.owner m = some t ∧ s'.owner = Function.update s.owner m none) ∨
      ((∀ m, op ≠ .lock m ∧ op ≠ .unlock m) ∧ s'.owner = s.owner)) := by
  unfold step at h
  split at h
  case h_1 => cases h
  case h_2 => cases h
  case h_3 m ops hops =>
    split at h
    · next hfree =>
      obtain rfl := Option.some.inj h
      exact ⟨_, ops, hops, rfl, .inl ⟨m, rfl, hfree, rfl⟩⟩
    · cases h
  case h_4 m ops hops =>
    split at h
    · next hown =>
      obtain rfl := Option.some.inj h
      exact ⟨_, ops, hops, rfl, .inr (.inl ⟨m, rfl, hown, rfl⟩)⟩
    · cases h
  case h_5 e ops hops =>
    split at h
    · obtain rfl := Option.some.inj h
      exact ⟨_, ops, hops, rfl, .inr (.inr ⟨by simp, rfl⟩)⟩
    · cases h
  case h_6 holder ops hops =>
    obtain rfl := Option.some.inj h
    exact ⟨_, ops, hops, rfl, .inr (.inr ⟨by simp, rfl⟩)⟩
  case h_7 enabled ops hops =>
    obtain ⟨_, -, rfl⟩ := Option.map_eq_some_iff.mp h
    exact ⟨_, ops, hops, rfl, .inr (.inr ⟨by simp, rfl⟩)⟩
  case h_8 state ops hops =>
    obtain rfl := Option.some.inj h
    exact ⟨_, ops, hops, rfl, .inr (.inr ⟨by simp, rfl⟩)⟩

/-- The application is before an operation, or waits for the lock of the GUI. -/
def Standing (s : State) : Prop :=
  Nested (s.ops .sd) ∨ ∃ ops, s.ops .sd = .lock .gui :: ops ∧ Nested ops

/-- What the GUI has ahead, and which locks it holds for it. -/
structure Serving (s : State) : Prop where
  ahead : Ahead s → s.owner .gui = some .gui ∧ (Calls (s.ops .gui) ∨
    s.owner .fs = some .gui ∧ ∃ ops, s.ops .gui = .unlock .fs :: ops ∧ Calls ops)
  dispatch : .dispatch ∈ s.ops .gui → s.ops .gui = [.lock .gui, .dispatch, .unlock .gui] ∨
    s.owner .gui = some .gui ∧ s.ops .gui = [.dispatch, .unlock .gui]

theorem Standing.tail (h : Standing s) {op : Op} (hops : s.ops .sd = op :: ops) :
    (op = .lock .fs ∧ ops.head? = some (.lock .gui) ∧ ∃ rest, ops = .lock .gui :: rest ∧ Nested rest)
      ∨ Nested ops := by
  rcases h with h | ⟨rest, he, h⟩
  · rw [hops] at h
    cases h with
    | nest h => exact .inl ⟨rfl, rfl, _, rfl, h⟩
    | cons _ h => exact .inr h
  · rw [hops] at he
    obtain ⟨-, rfl⟩ := List.cons.inj he
    exact .inr h

theorem Nested.head?_ne (h : Nested ops) : ops.head? ≠ some (.lock .gui) := by
  intro hhead
  cases h with
  | nil => cases hhead
  | nest _ => cases hhead
  | cons hop _ => exact hop (Option.some.inj hhead)

/-- A lock is with its owner until the owner's own step, and comes to a thread by its own step. -/
theorem owner_next {l : Label} (h : next s l = some s') (ht : t ≠ .other) (hl : l ≠ .step t)
    (m : Lock) : s'.owner m = some t ↔ s.owner m = some t := by
  cases l with
  | request e =>
    simp only [next] at h
    split at h
    · obtain rfl := Option.some.inj h
      exact Iff.rfl
    · cases h
  | take card =>
    simp only [next] at h
    split at h
    · obtain rfl := Option.some.inj h
      exact Iff.rfl
    · cases h
  | card | input | redraw =>
    simp only [next] at h
    split at h
    · obtain rfl := Option.some.inj h
      exact Iff.rfl
    · cases h
  | dispatch i =>
    simp only [next] at h
    split at h
    · split at h
      · obtain rfl := Option.some.inj h
        exact Iff.rfl
      · cases h
    · cases h
  | step u =>
    have hne : u ≠ t := fun he => hl (he ▸ rfl)
    obtain ⟨op, ops, -, -, ⟨n, -, hn, ho⟩ | ⟨n, -, hn, ho⟩ | ⟨-, ho⟩⟩ := step_cases h
    · rw [ho]
      rcases eq_or_ne m n with rfl | hmn
      · simp [hn, hne]
      · rw [Function.update_of_ne hmn]
    · rw [ho]
      rcases eq_or_ne m n with rfl | hmn
      · simp [hn, hne]
      · rw [Function.update_of_ne hmn]
    · rw [ho]
  | acquire n =>
    simp only [next] at h
    split at h
    · next hn =>
      obtain rfl := Option.some.inj h
      rcases eq_or_ne m n with rfl | hmn
      · simp [hn, ht.symm]
      · simp [Function.update_of_ne hmn]
    · cases h
  | release n =>
    simp only [next] at h
    split at h
    · next hn =>
      obtain rfl := Option.some.inj h
      rcases eq_or_ne m n with rfl | hmn
      · simp [hn, ht.symm]
      · simp [Function.update_of_ne hmn]
    · cases h

theorem sd_next {l : Label} (h : next s l = some s') : (l ≠ .step .sd ∧ s'.ops .sd = s.ops .sd) ∨
    (s.ops .sd = [] ∧ Nested (s'.ops .sd)) ∨
      (l = .step .sd ∧ ∃ op, s.ops .sd = op :: s'.ops .sd) := by
  cases l with
  | request e | acquire m | release m =>
    simp only [next] at h
    split at h
    · obtain rfl := Option.some.inj h
      exact .inl ⟨by simp, rfl⟩
    · cases h
  | take card =>
    simp only [next] at h
    split at h
    · next e events hops _ =>
      obtain rfl := Option.some.inj h
      exact .inr (.inl ⟨hops, by simpa [State.setOps] using nested_handle s card e⟩)
    · cases h
  | card =>
    simp only [next] at h
    split at h
    · next hops =>
      obtain rfl := Option.some.inj h
      exact .inr (.inl ⟨hops, by simpa [State.setOps] using nested_apiCalls 1⟩)
    · cases h
  | input | redraw =>
    simp only [next] at h
    split at h
    · obtain rfl := Option.some.inj h
      exact .inl ⟨by simp, rfl⟩
    · cases h
  | dispatch i =>
    simp only [next] at h
    split at h
    · split at h
      · obtain rfl := Option.some.inj h
        exact .inl ⟨by simp, rfl⟩
      · cases h
    · cases h
  | step t =>
    obtain ⟨op, ops, hops, ho, -⟩ := step_cases h
    cases t with
    | sd =>
      refine .inr (.inr ⟨rfl, op, ?_⟩)
      rw [ho, Function.update_self]
      exact hops
    | gui | other =>
      refine .inl ⟨by simp, ?_⟩
      rw [ho, Function.update_of_ne (by decide)]

/-- The operations of the GUI change with its own steps, an input, a redraw and a dispatch. -/
theorem gui_next {l : Label} (h : next s l = some s') : (l ≠ .step .gui ∧ s'.ops .gui = s.ops .gui) ∨
    (l ≠ .step .gui ∧ (s'.ops .gui = [.lock .gui, .dispatch, .unlock .gui] ∨
      s'.ops .gui = [.lock .gui, .unlock .gui])) ∨
    (∃ i ops, l = .dispatch i ∧ s.ops .gui = .dispatch :: ops ∧ s'.ops .gui = inputOps i ++ ops) ∨
      (l = .step .gui ∧ ∃ op, s.ops .gui = op :: s'.ops .gui) := by
  cases l with
  | request e | acquire m | release m | card =>
    simp only [next] at h
    split at h
    · obtain rfl := Option.some.inj h
      exact .inl ⟨by simp, rfl⟩
    · cases h
  | take card =>
    simp only [next] at h
    split at h
    · obtain rfl := Option.some.inj h
      exact .inl ⟨by simp, rfl⟩
    · cases h
  | input =>
    simp only [next] at h
    split at h
    · obtain rfl := Option.some.inj h
      exact .inr (.inl ⟨by simp, .inl rfl⟩)
    · cases h
  | redraw =>
    simp only [next] at h
    split at h
    · obtain rfl := Option.some.inj h
      exact .inr (.inl ⟨by simp, .inr rfl⟩)
    · cases h
  | dispatch i =>
    simp only [next] at h
    split at h
    · next ops hops =>
      split at h
      · obtain rfl := Option.some.inj h
        exact .inr (.inr (.inl ⟨i, ops, rfl, hops, rfl⟩))
      · cases h
    · cases h
  | step t =>
    obtain ⟨op, ops, hops, ho, -⟩ := step_cases h
    cases t with
    | gui =>
      refine .inr (.inr (.inr ⟨rfl, op, ?_⟩))
      rw [ho, Function.update_self]
      exact hops
    | sd | other =>
      refine .inl ⟨by simp, ?_⟩
      rw [ho, Function.update_of_ne (by decide)]

theorem Standing.next {l : Label} (hs : Standing s) (h : next s l = some s') : Standing s' := by
  rcases sd_next h with ⟨-, he⟩ | ⟨-, hn⟩ | ⟨-, op, hops⟩
  · unfold Standing
    rw [he]
    exact hs
  · exact .inl hn
  · rcases hs.tail hops with ⟨-, -, rest⟩ | hn
    · exact .inr rest
    · exact .inl hn

theorem Standing.waits {l : Label} (hs : Standing s) (h : LockOrder.next s l = some s')
    (hw : Waits s') :
    Waits s ∨ (l = .step .sd ∧ (s.ops .sd).take 2 = [.lock .fs, .lock .gui]) := by
  obtain ⟨hown, hhead⟩ := hw
  rcases sd_next h with ⟨hl, he⟩ | ⟨-, hn⟩ | ⟨rfl, op, hops⟩
  · rw [he] at hhead
    exact .inl ⟨(owner_next h (by decide) hl .fs).mp hown, hhead⟩
  · exact absurd hhead hn.head?_ne
  · rcases hs.tail hops with ⟨rfl, -, rest, he, -⟩ | hn
    · exact .inr ⟨rfl, by rw [hops, he]; rfl⟩
    · exact absurd hhead hn.head?_ne

theorem Serving.dispatching (hg : Serving s) (h : s.ops .gui = .dispatch :: ops) :
    s.owner .gui = some .gui ∧ ops = [.unlock .gui] := by
  rcases hg.dispatch (by simp [h]) with he | ⟨hown, he⟩
  · rw [h] at he
    cases he
  · rw [h] at he
    exact ⟨hown, (List.cons.inj he).2⟩

theorem Serving.ahead_next (hg : Serving s) {l : Label} (h : next s l = some s') (ha : Ahead s') :
    Ahead s ∨ ∃ i, l = .dispatch i ∧ .lock .fs ∈ inputOps i := by
  unfold Ahead at ha
  rcases gui_next h with ⟨-, he⟩ | ⟨-, he | he⟩ | ⟨i, ops, rfl, hops, he⟩ | ⟨-, op, hops⟩
  · rw [he] at ha
    exact .inl ha
  · simp [he] at ha
  · simp [he] at ha
  · obtain ⟨-, rfl⟩ := hg.dispatching hops
    rw [he] at ha
    exact .inr ⟨i, rfl, by simpa using ha⟩
  · refine .inl ?_
    rw [Ahead, hops]
    exact List.mem_cons_of_mem _ ha

theorem Serving.step (hg : Serving s) (h : LockOrder.step s .gui = some s') : Serving s' := by
  obtain ⟨op, ops, hops, ho, howner⟩ := step_cases h
  have hops' : s'.ops .gui = ops := by rw [ho, Function.update_self]
  constructor
  · intro ha
    rw [Ahead, hops'] at ha
    obtain ⟨hgui, hcalls | ⟨-, rest, he, hcalls⟩⟩ :=
      hg.ahead (by rw [Ahead, hops]; exact List.mem_cons_of_mem _ ha)
    · obtain ⟨rest, he, hrest⟩ := hcalls.head (by rw [hops]; exact List.mem_cons_of_mem _ ha)
      rw [hops] at he
      obtain ⟨rfl, rfl⟩ := List.cons.inj he
      obtain ⟨m, hm, -, ho⟩ | ⟨m, hm, -⟩ | ⟨hm, -⟩ := howner
      · obtain rfl := Op.lock.inj hm
        refine ⟨?_, .inr ⟨?_, rest, hops', hrest⟩⟩
        · rw [ho, Function.update_of_ne (by decide)]
          exact hgui
        · rw [ho, Function.update_self]
      · cases hm
      · exact absurd rfl (hm .fs).1
    · rw [hops] at he
      obtain ⟨rfl, rfl⟩ := List.cons.inj he
      obtain ⟨m, hm, -⟩ | ⟨m, hm, -, ho⟩ | ⟨hm, -⟩ := howner
      · cases hm
      · obtain rfl := Op.unlock.inj hm
        refine ⟨?_, .inl (hops' ▸ hcalls)⟩
        rw [ho, Function.update_of_ne (by decide)]
        exact hgui
      · exact absurd rfl (hm .fs).2
  · intro hd
    rw [hops'] at hd
    rcases hg.dispatch (by rw [hops]; exact List.mem_cons_of_mem _ hd) with he | ⟨-, he⟩
    · rw [hops] at he
      obtain ⟨rfl, rfl⟩ := List.cons.inj he
      obtain ⟨m, hm, -, ho⟩ | ⟨m, hm, -⟩ | ⟨hm, -⟩ := howner
      · obtain rfl := Op.lock.inj hm
        exact .inr ⟨by rw [ho, Function.update_self], hops'⟩
      · cases hm
      · exact absurd rfl (hm .gui).1
    · rw [hops] at he
      obtain ⟨-, rfl⟩ := List.cons.inj he
      simp at hd

theorem Serving.next {l : Label} (hg : Serving s) (h : next s l = some s') : Serving s' := by
  rcases gui_next h with ⟨hl, he⟩ | ⟨-, he | he⟩ | ⟨i, ops, rfl, hops, he⟩ | ⟨rfl, -⟩
  · have hown := owner_next h (by decide : Thread.gui ≠ .other) hl
    constructor
    · intro ha
      rw [hown, hown, he]
      rw [Ahead, he] at ha
      exact hg.ahead ha
    · intro hd
      rw [hown, he]
      exact hg.dispatch (he ▸ hd)
  · exact ⟨fun ha => (by simp [Ahead, he] at ha), fun _ => .inl he⟩
  · exact ⟨fun ha => (by simp [Ahead, he] at ha), fun hd => (by simp [he] at hd)⟩
  · obtain ⟨hgui, rfl⟩ := hg.dispatching hops
    have hown := owner_next h (by decide : Thread.gui ≠ .other) (by simp)
    constructor
    · intro _
      exact ⟨(hown .gui).mpr hgui, .inl (he ▸ calls_inputOps i)⟩
    · intro hd
      simp [he, dispatch_not_mem_inputOps] at hd
  · exact hg.step h

end Steps

section Runs

variable {s s' : State} {l : Label}

theorem serving_init : Serving State.init where
  ahead ha := by simp [Ahead, State.init] at ha
  dispatch hd := by simp [State.init] at hd

theorem serving_of_reachable (h : machine.Reachable s) : Serving s :=
  h.invariant serving_init fun _ _ _ hs hn => Serving.next hs hn

/-- The GUI never has calls of the file system ahead while the application waits with the mutex. -/
theorem not_waits_and_ahead (h : machine.ReachableWith Apart s) : ¬ (Waits s ∧ Ahead s) := by
  have hall : Standing s ∧ Serving s ∧ ¬ (Waits s ∧ Ahead s) := by
    refine h.invariant (P := fun s => Standing s ∧ Serving s ∧ ¬ (Waits s ∧ Ahead s))
      ⟨.inl .nil, serving_init, fun hno => ?_⟩ ?_
    · have hfs : (none : Option Thread) = some .sd := hno.1.1
      cases hfs
    rintro s l s' ⟨hs, hg, hno⟩ hok hn
    have hn : next s l = some s' := hn
    refine ⟨Standing.next hs hn, Serving.next hg hn, ?_⟩
    rintro ⟨hw, ha⟩
    rcases hs.waits hn hw with hw | ⟨rfl, htake⟩
    · rcases hg.ahead_next hn ha with ha | ⟨i, rfl, hi⟩
      · exact hno ⟨hw, ha⟩
      · exact hok hi hw
    · rcases hg.ahead_next hn ha with ha | ⟨i, hl, -⟩
      · exact hok htake ha
      · cases hl
  exact hall.2.2

theorem cycle_of_not_apart (h : machine.Reachable s) (hok : ¬ Apart s l)
    (hn : next s l = some s') : Cycle s' := by
  have hg := serving_of_reachable h
  cases l with
  | step t =>
    cases t with
    | sd =>
      obtain ⟨htake, ha⟩ := Classical.not_imp.mp hok
      have hn' : step s .sd = some s' := hn
      obtain ⟨op, ops, hops, ho, howner⟩ := step_cases hn'
      rw [hops] at htake
      obtain ⟨rest, rfl, rfl⟩ : ∃ rest, op = .lock .fs ∧ ops = .lock .gui :: rest := by
        cases ops with
        | nil => simp at htake
        | cons op' rest =>
          simp only [List.take_succ_cons, List.take_zero, List.cons.injEq, and_true] at htake
          exact ⟨rest, htake.1, by rw [htake.2]⟩
      obtain ⟨m, hm, hfree, ho'⟩ | ⟨m, hm, -⟩ | ⟨hm, -⟩ := howner
      · obtain rfl := Op.lock.inj hm
        obtain ⟨hgui, hcalls | ⟨hfs, -⟩⟩ := hg.ahead (not_not.mp ha)
        · obtain ⟨calls, he, -⟩ := hcalls.head (not_not.mp ha)
          refine ⟨⟨by rw [ho', Function.update_self], rest, by rw [ho, Function.update_self]⟩,
            ?_, .unlock .fs :: calls, ?_⟩
          · rw [ho', Function.update_of_ne (by decide)]
            exact hgui
          · rw [ho, Function.update_of_ne (by decide)]
            exact he
        · rw [hfree] at hfs
          cases hfs
      · cases hm
      · exact absurd rfl (hm .fs).1
    | gui | other => exact absurd trivial hok
  | dispatch i =>
    obtain ⟨hi, hw⟩ := Classical.not_imp.mp hok
    obtain ⟨hfs, hhead⟩ := not_not.mp hw
    obtain ⟨rest, hrest⟩ := List.head?_eq_some_iff.mp hhead
    have hn' : LockOrder.next s (.dispatch i) = some s' := hn
    simp only [next] at hn'
    split at hn'
    · next ops hops =>
      obtain ⟨hgui, rfl⟩ := hg.dispatching hops
      split at hn'
      · obtain rfl := Option.some.inj hn'
        obtain ⟨calls, he, -⟩ := (calls_inputOps i).head (List.mem_append_left _ hi)
        refine ⟨⟨hfs, rest, ?_⟩, hgui, .unlock .fs :: calls, ?_⟩
        · simpa [State.setOps] using hrest
        · simpa [State.setOps] using he
      · cases hn'
    · cases hn'
  | request e | take card | card | input | redraw | acquire m | release m =>
    exact absurd trivial hok

theorem Cycle.waits_and_ahead (h : Cycle s) : Waits s ∧ Ahead s := by
  obtain ⟨⟨hfs, ops, hsd⟩, -, ops', hgui⟩ := h
  exact ⟨⟨hfs, by rw [hsd]; rfl⟩, by rw [Ahead, hgui]; exact List.mem_cons_self⟩

/-- Along the runs that keep to the condition there is no cycle, and in any run a step against it
closes one. -/
theorem no_lock_cycle_iff :
    (machine.ReachableWith Apart s → ¬ Cycle s) ∧
      (machine.Reachable s → ¬ Apart s l → next s l = some s' → Cycle s') :=
  ⟨fun h hc => not_waits_and_ahead h hc.waits_and_ahead, cycle_of_not_apart⟩

def goodCard : Card := ⟨true, true, 1, true, 0⟩

/-- A client asks for a file, and the application shows the view. -/
def showFileSelect : List Label :=
  .request .fileSelect :: .take goodCard :: List.replicate 9 (.step .sd)

def pressBack : List Label :=
  [.input, .step .gui, .dispatch (.holder .back), .step .gui, .step .gui]

/-- The view is closed with nothing else pressed. -/
theorem no_lock_cycle_closed : ∃ s, s.viewHolder = none ∧ s.sdAppState = .background ∧ ¬ Cycle s := by
  obtain ⟨s, hs, hholder, hstate⟩ : ∃ s, machine.execWith Apart .init
      (showFileSelect ++ pressBack ++ Label.take goodCard :: List.replicate 7 (.step .sd)) = some s ∧
        s.viewHolder = none ∧ s.sdAppState = .background := ⟨_, rfl, rfl, rfl⟩
  have hreach : machine.ReachableWith Apart s := Machine.execWith_reachableWith .init hs
  exact ⟨s, hholder, hstate, (@no_lock_cycle_iff s s .card).1 hreach⟩

/-- Down is pressed before the application has handled Back. -/
theorem not_no_lock_cycle : ¬ ∀ s, machine.Reachable s → ¬ Cycle s := by
  intro hall
  obtain ⟨s, hs, hfs, hsd, hgui, hops⟩ : ∃ s, machine.exec .init
      (showFileSelect ++ pressBack ++ [Label.input, .step .gui, .dispatch (.list 3 true),
        .take goodCard, .step .sd, .step .sd]) = some s ∧
      s.owner .fs = some .sd ∧ s.ops .sd = [.lock .gui, .unlock .gui, .setHolder none, .unlock .fs,
        .setState .background] ∧ s.owner .gui = some .gui ∧
      s.ops .gui = .lock .fs :: .unlock .fs :: (apiCalls 2 ++ [Op.unlock .gui]) :=
    ⟨_, rfl, rfl, rfl, rfl, rfl⟩
  exact hall s (Machine.exec_reachable .init hs) ⟨⟨hfs, _, hsd⟩, hgui, _, hops⟩

end Runs

end FlipperZero.SdFilesystem.LockOrder
