import FlipperZero.Lib.Machine
import FlipperZero.Rtos.ThreadFlags

/-! # The loop of the GUI service

Other threads put input events into a queue and set the input flag afterwards, and set
the draw flag to have the screen drawn. The loop takes the flags, empties the queue and
draws. The log keeps what was put, delivered, asked for and drawn.
-/

namespace FlipperZero.Gui.Service

open Lib Rtos

def guiThreadFlagDraw : BitVec 32 := 1 <<< 0

def guiThreadFlagInput : BitVec 32 := 1 <<< 1

def guiThreadFlagAll : BitVec 32 := guiThreadFlagDraw ||| guiThreadFlagInput

def inputQueueLength : ℕ := 8

/-- Where the loop is, with the flags that it has taken. -/
inductive GuiPc (Event : Type) where
  | wait
  | input (flags : BitVec 32)
  | deliver (flags : BitVec 32) (event : Event)
  | draw (flags : BitVec 32)
  /-- The draw flag was cleared once more and `gui_redraw` is called. -/
  | redraw
  deriving DecidableEq

/-- Where a thread is in `gui_input_events_callback`. -/
inductive PublisherPc (Event : Type) where
  | idle
  | put (event : Event)
  | set
  deriving DecidableEq

inductive Entry (Event : Type) where
  | put (event : Event)
  | delivered (event : Event)
  | updated
  | redraw
  deriving DecidableEq

structure State (Thread Event : Type) where
  flags : ThreadFlags Thread
  inputQueue : List Event
  gui : GuiPc Event
  publishers : Thread → PublisherPc Event
  log : List (Entry Event)

inductive Label (Thread Event : Type) where
  | gui
  | publish (t : Thread) (event : Event)
  | put (t : Thread)
  | set (t : Thread)
  /-- A call of `gui_update` by any thread. -/
  | update

variable {Thread Event : Type}

def State.init : State Thread Event where
  flags _ := 0
  inputQueue := []
  gui := .wait
  publishers _ := .idle
  log := []

section Steps

variable [DecidableEq Thread]

/-- A step of the loop of `gui_task`. -/
def guiStep (gui : Thread) (s : State Thread Event) : Option (State Thread Event) :=
  match s.gui with
  | .wait => (osThreadFlagsWait s.flags gui guiThreadFlagAll).map fun flags =>
      { s with flags := flags, gui := .input (s.flags gui) }
  | .input flags =>
    if flags &&& guiThreadFlagInput ≠ 0 then
      match s.inputQueue with
      | [] => some { s with gui := .draw flags }
      | event :: events => some { s with inputQueue := events, gui := .deliver flags event }
    else some { s with gui := .draw flags }
  | .deliver flags event =>
    some { s with log := s.log ++ [.delivered event], gui := .input flags }
  | .draw flags =>
    if flags &&& guiThreadFlagDraw ≠ 0 then
      some { s with flags := osThreadFlagsClear s.flags gui guiThreadFlagDraw, gui := .redraw }
    else some { s with gui := .wait }
  | .redraw => some { s with log := s.log ++ [.redraw], gui := .wait }

def next (gui : Thread) (s : State Thread Event) :
    Label Thread Event → Option (State Thread Event)
  | .gui => guiStep gui s
  | .publish t event =>
    match s.publishers t with
    | .idle => some { s with publishers := Function.update s.publishers t (.put event) }
    | _ => none
  | .put t =>
    match s.publishers t with
    | .put event =>
      if s.inputQueue.length < inputQueueLength then
        some { s with
          inputQueue := s.inputQueue ++ [event]
          publishers := Function.update s.publishers t .set
          log := s.log ++ [.put event] }
      else none
    | _ => none
  | .set t =>
    match s.publishers t with
    | .set => some { s with
        flags := osThreadFlagsSet s.flags gui guiThreadFlagInput
        publishers := Function.update s.publishers t .idle }
    | _ => none
  | .update => some { s with
      flags := osThreadFlagsSet s.flags gui guiThreadFlagDraw
      log := s.log ++ [.updated] }

def machine (gui : Thread) : Machine (State Thread Event) (Label Thread Event) where
  init := .init
  next := next gui

end Steps

section Log

def puts (log : List (Entry Event)) : List Event :=
  log.filterMap fun entry => match entry with
    | .put event => some event
    | _ => none

def delivered (log : List (Entry Event)) : List Event :=
  log.filterMap fun entry => match entry with
    | .delivered event => some event
    | _ => none

/-- Somebody asked for a drawing after the last one was begun. -/
def Owed (log : List (Entry Event)) : Prop :=
  ∃ pre post, log = pre ++ Entry.updated :: post ∧ Entry.redraw ∉ post

variable {log : List (Entry Event)} {entry : Entry Event}

theorem owed_concat (h : Owed (log ++ [entry])) : entry = .updated ∨ entry ≠ .redraw ∧ Owed log := by
  obtain ⟨pre, post, he, hpost⟩ := h
  rcases List.eq_nil_or_concat post with rfl | ⟨post, last, rfl⟩
  · left
    have := List.append_inj_right' he rfl
    simpa using this
  · right
    rw [List.concat_eq_append] at he hpost
    have he' : log ++ [entry] = (pre ++ .updated :: post) ++ [last] := by simpa using he
    obtain ⟨hlog, hlast⟩ := List.append_inj' he' rfl
    rw [List.mem_append, not_or] at hpost
    refine ⟨?_, pre, post, hlog, hpost.1⟩
    rintro rfl
    apply hpost.2
    rw [← hlast]
    exact List.mem_singleton_self _

end Log

/-- The event that the loop has taken from the queue. -/
def GuiPc.inHand : GuiPc Event → List Event
  | .deliver _ event => [event]
  | _ => []

/-- The loop will look into the queue before it waits again. -/
def GuiPc.WillDrain : GuiPc Event → Prop
  | .input flags | .deliver flags _ => flags &&& guiThreadFlagInput ≠ 0
  | _ => False

def GuiPc.WillDraw : GuiPc Event → Prop
  | .input flags | .deliver flags _ | .draw flags => flags &&& guiThreadFlagDraw ≠ 0
  | .redraw => True
  | .wait => False

/-- The loop is blocked in `osThreadFlagsWait`. -/
def Blocked (gui : Thread) (s : State Thread Event) : Prop :=
  s.gui = .wait ∧ ¬ Pending s.flags gui guiThreadFlagAll

/-- The draw flag is set, or the loop has taken it and not drawn yet. -/
def DrawPending (gui : Thread) (s : State Thread Event) : Prop :=
  Pending s.flags gui guiThreadFlagDraw ∨ s.gui.WillDraw

/-- What the service keeps: the order of the events, and that work is always on its way. -/
structure Working (gui : Thread) (s : State Thread Event) : Prop where
  order : puts s.log = delivered s.log ++ s.gui.inHand ++ s.inputQueue
  input : s.inputQueue ≠ [] → (∃ t, s.publishers t = .set) ∨
    Pending s.flags gui guiThreadFlagInput ∨ s.gui.WillDrain
  draw : Owed s.log → DrawPending gui s
  taken : ∀ flags event, s.gui = .deliver flags event → flags &&& guiThreadFlagInput ≠ 0

variable {gui : Thread} {s s' : State Thread Event}

theorem working_init : Working gui (State.init : State Thread Event) where
  order := rfl
  input h := absurd rfl h
  draw h := by
    obtain ⟨pre, post, he, -⟩ := h
    cases pre <;> cases he
  taken _ _ h := by cases h

theorem DrawPending.of_flags (h : DrawPending gui s) (hflags : s'.flags = s.flags)
    (hwill : s.gui.WillDraw → s'.gui.WillDraw) : DrawPending gui s' := by
  rcases h with h | h
  · left
    rwa [hflags]
  · exact .inr (hwill h)

theorem pending_all (h : Pending s.flags gui guiThreadFlagInput) :
    Pending s.flags gui guiThreadFlagAll := by
  intro hz
  apply h
  have hsub : guiThreadFlagInput = guiThreadFlagAll &&& guiThreadFlagInput := by decide
  rw [hsub, ← BitVec.and_assoc, hz]
  exact BitVec.zero_and

variable [DecidableEq Thread]

theorem working_guiStep (h : Working gui s) (hs : guiStep gui s = some s') : Working gui s' := by
  have horder := h.order
  have hinput := h.input
  have hdraw := h.draw
  have htaken := h.taken
  unfold guiStep at hs
  split at hs
  case h_1 hpc =>
    rw [hpc] at horder hinput
    obtain ⟨flags, hwait, rfl⟩ := Option.map_eq_some_iff.mp hs
    refine ⟨horder, fun hne => ?_, fun hlog => .inr ?_, fun _ _ hpc => (by cases hpc)⟩
    · rcases hinput hne with hset | hpending | hwill
      · exact .inl hset
      · exact .inr (.inr hpending)
      · exact hwill.elim
    · rcases hdraw hlog with hpending | hwill
      · exact hpending
      · rw [hpc] at hwill
        exact hwill.elim
  case h_2 flags hpc =>
    rw [hpc] at horder hinput
    split at hs
    · next hflag =>
      split at hs
      · next hqueue =>
        obtain rfl := Option.some.inj hs
        refine ⟨horder, fun hne => absurd hqueue hne, fun hlog => ?_, fun _ _ hpc => (by cases hpc)⟩
        exact (hdraw hlog).of_flags rfl (by rw [hpc]; exact id)
      · next event events hqueue =>
        obtain rfl := Option.some.inj hs
        refine ⟨?_, fun _ => .inr (.inr hflag), fun hlog => ?_, ?_⟩
        · rw [horder, hqueue]
          simp [GuiPc.inHand]
        · exact (hdraw hlog).of_flags rfl (by rw [hpc]; exact id)
        · rintro flags' event' he
          obtain ⟨rfl, -⟩ := GuiPc.deliver.inj he
          exact hflag
    · next hflag =>
      obtain rfl := Option.some.inj hs
      refine ⟨horder, fun hne => ?_, fun hlog => ?_, fun _ _ hpc => (by cases hpc)⟩
      · rcases hinput hne with hset | hpending | hwill
        · exact .inl hset
        · exact .inr (.inl hpending)
        · exact absurd hwill hflag
      · exact (hdraw hlog).of_flags rfl (by rw [hpc]; exact id)
  case h_3 flags event hpc =>
    obtain rfl := Option.some.inj hs
    refine ⟨?_, fun _ => .inr (.inr (htaken flags event hpc)), fun hlog => ?_,
      fun _ _ hpc => (by cases hpc)⟩
    · rw [hpc] at horder
      simpa [puts, delivered, GuiPc.inHand] using horder
    · obtain he | ⟨-, hlog⟩ := owed_concat hlog
      · cases he
      · exact (hdraw hlog).of_flags rfl (by rw [hpc]; exact id)
  case h_4 flags hpc =>
    rw [hpc] at horder hinput
    split at hs
    · obtain rfl := Option.some.inj hs
      refine ⟨horder, fun hne => ?_, fun _ => .inr trivial, fun _ _ hpc => (by cases hpc)⟩
      rcases hinput hne with hset | hpending | hwill
      · exact .inl hset
      · exact .inr (.inl (hpending.clear (by decide)))
      · exact hwill.elim
    · next hflag =>
      obtain rfl := Option.some.inj hs
      refine ⟨horder, hinput, fun hlog => ?_, fun _ _ hpc => (by cases hpc)⟩
      refine (hdraw hlog).of_flags rfl fun hwill => ?_
      rw [hpc] at hwill
      exact absurd hwill hflag
  case h_5 hpc =>
    rw [hpc] at horder hinput
    obtain rfl := Option.some.inj hs
    refine ⟨?_, hinput, fun hlog => ?_, fun _ _ hpc => (by cases hpc)⟩
    · simpa [puts, delivered, GuiPc.inHand] using horder
    · obtain he | ⟨hne, -⟩ := owed_concat hlog
      · cases he
      · exact absurd rfl hne

theorem working_next (h : Working gui s) {l : Label Thread Event} (hs : next gui s l = some s') :
    Working gui s' := by
  cases l with
  | gui => exact working_guiStep h hs
  | publish t event =>
    simp only [next] at hs
    split at hs
    · next hidle =>
      obtain rfl := Option.some.inj hs
      refine ⟨h.order, fun hne => ?_, h.draw, h.taken⟩
      rcases h.input hne with ⟨u, hu⟩ | hrest
      · have hut : u ≠ t := by
          rintro rfl
          simp [hidle] at hu
        exact .inl ⟨u, by simpa [Function.update_of_ne hut] using hu⟩
      · exact .inr hrest
    · cases hs
  | put t =>
    simp only [next] at hs
    split at hs
    · next event hput =>
      split at hs
      · obtain rfl := Option.some.inj hs
        refine ⟨?_, fun _ => .inl ⟨t, Function.update_self ..⟩, fun hlog => ?_, h.taken⟩
        · have horder := h.order
          simp only [puts, delivered] at horder
          simp [puts, delivered, horder]
        · obtain he | ⟨-, hlog⟩ := owed_concat hlog
          · cases he
          · exact h.draw hlog
      · cases hs
    · cases hs
  | set t =>
    simp only [next] at hs
    split at hs
    · obtain rfl := Option.some.inj hs
      refine ⟨h.order, fun _ => .inr (.inl (pending_set_self (by decide))), fun hlog => ?_, h.taken⟩
      rcases h.draw hlog with hpending | hwill
      · exact .inl (hpending.set _)
      · exact .inr hwill
    · cases hs
  | update =>
    simp only [next] at hs
    obtain rfl := Option.some.inj hs
    refine ⟨?_, fun hne => ?_, fun _ => .inl (pending_set_self (by decide)), h.taken⟩
    · simpa [puts, delivered] using h.order
    · rcases h.input hne with hset | hpending | hwill
      · exact .inl hset
      · exact .inr (.inl (hpending.set _))
      · exact .inr (.inr hwill)

theorem working_of_reachable (h : (machine gui).Reachable s) : Working gui s :=
  h.invariant working_init fun _ _ _ hs hn => working_next hs hn

section Progress

def GuiRun (gui : Thread) : State Thread Event → State Thread Event → Prop :=
  Relation.ReflTransGen fun s s' => guiStep gui s = some s'

theorem GuiRun.head {t : State Thread Event} (h : guiStep gui s = some t) (ht : GuiRun gui t s') :
    GuiRun gui s s' :=
  Relation.ReflTransGen.head h ht

theorem drains {flags : BitVec 32} (hpc : s.gui = .input flags)
    (hflag : flags &&& guiThreadFlagInput ≠ 0) :
    ∃ s', GuiRun gui s s' ∧ delivered s'.log = delivered s.log ++ s.inputQueue := by
  induction hq : s.inputQueue generalizing s with
  | nil => exact ⟨s, .refl, by simp⟩
  | cons event events ih =>
    set t : State Thread Event := { s with inputQueue := events, gui := .deliver flags event }
    set u : State Thread Event := { t with log := s.log ++ [.delivered event], gui := .input flags }
    have ht : guiStep gui s = some t := by
      simp only [guiStep, hpc, if_pos hflag, hq, t]
    have hu : guiStep gui t = some u := rfl
    obtain ⟨s', hrun, hlog⟩ := ih (s := u) rfl rfl
    refine ⟨s', .head ht (.head hu hrun), ?_⟩
    rw [hlog]
    simp [u, delivered]

/-- A loop that will not look into the queue comes back to wait with the queue as it was. -/
theorem returns (hwill : ¬ s.gui.WillDrain) (hhand : s.gui.inHand = []) :
    ∃ s', GuiRun gui s s' ∧ s'.gui = .wait ∧ s'.publishers = s.publishers ∧
      puts s'.log = puts s.log := by
  have hredraw : ∀ t : State Thread Event, t.gui = .redraw → ∃ s', GuiRun gui t s' ∧
      s'.gui = .wait ∧ s'.publishers = t.publishers ∧ puts s'.log = puts t.log := by
    intro t hpc
    exact ⟨{ t with log := t.log ++ [.redraw], gui := .wait },
      .head (by simp [guiStep, hpc]) .refl, rfl, rfl, by simp [puts]⟩
  have hdraw : ∀ (t : State Thread Event) (flags : BitVec 32), t.gui = .draw flags →
      ∃ s', GuiRun gui t s' ∧ s'.gui = .wait ∧ s'.publishers = t.publishers ∧
        puts s'.log = puts t.log := by
    intro t flags hpc
    by_cases hflag : flags &&& guiThreadFlagDraw ≠ 0
    · obtain ⟨s', hrun, hrest⟩ := hredraw
        { t with flags := osThreadFlagsClear t.flags gui guiThreadFlagDraw, gui := .redraw } rfl
      exact ⟨s', .head (by simp only [guiStep, hpc, if_pos hflag]) hrun, hrest⟩
    · exact ⟨{ t with gui := .wait }, .head (by simp only [guiStep, hpc, if_neg hflag]) .refl, rfl, rfl, rfl⟩
  cases hpc : s.gui with
  | wait => exact ⟨s, .refl, hpc, rfl, rfl⟩
  | input flags =>
    rw [hpc] at hwill
    obtain ⟨s', hrun, hrest⟩ := hdraw { s with gui := .draw flags } flags rfl
    have hflag : ¬ flags &&& guiThreadFlagInput ≠ 0 := hwill
    exact ⟨s', .head (by simp only [guiStep, hpc, if_neg hflag]) hrun, hrest⟩
  | deliver flags event =>
    rw [hpc] at hhand
    cases hhand
  | draw flags => exact hdraw s flags hpc
  | redraw => exact hredraw s hpc

theorem working_run (h : Working gui s) (hrun : GuiRun gui s s') : Working gui s' := by
  induction hrun with
  | refl => exact h
  | tail _ hs ih => exact working_guiStep ih hs

theorem delivers_all (h : Working gui s) (hset : ∀ t, s.publishers t ≠ .set) :
    ∃ s', GuiRun gui s s' ∧ delivered s'.log = puts s.log := by
  by_cases hwill : s.gui.WillDrain
  · cases hpc : s.gui with
    | input flags =>
      rw [hpc] at hwill
      obtain ⟨s', hrun, hlog⟩ := drains hpc hwill
      refine ⟨s', hrun, ?_⟩
      rw [hlog, h.order, hpc]
      simp [GuiPc.inHand]
    | deliver flags event =>
      rw [hpc] at hwill
      set t : State Thread Event :=
        { s with log := s.log ++ [.delivered event], gui := .input flags }
      have ht : guiStep gui s = some t := by simp [guiStep, hpc, t]
      obtain ⟨s', hrun, hlog⟩ := drains (s := t) rfl hwill
      refine ⟨s', .head ht hrun, ?_⟩
      rw [hlog, h.order, hpc]
      simp [t, delivered, GuiPc.inHand]
    | wait | draw flags | redraw =>
      rw [hpc] at hwill
      exact hwill.elim
  · have hhand : s.gui.inHand = [] := by
      cases hpc : s.gui with
      | deliver flags event =>
        rw [hpc] at hwill
        exact absurd (h.taken flags event hpc) hwill
      | wait | input flags | draw flags | redraw => rfl
    obtain ⟨t, hrun, hpc, hpubs, hputs⟩ := returns hwill hhand
    have ht := working_run h hrun
    rcases eq_or_ne t.inputQueue [] with hqueue | hqueue
    · refine ⟨t, hrun, ?_⟩
      rw [← hputs, ht.order, hpc, hqueue]
      simp [GuiPc.inHand]
    · rcases ht.input hqueue with ⟨u, hu⟩ | hpending | hwill'
      · rw [hpubs] at hu
        exact absurd hu (hset u)
      · have hall : Pending t.flags gui guiThreadFlagAll := pending_all hpending
        set v : State Thread Event := { t with
          flags := Function.update t.flags gui (t.flags gui &&& ~~~guiThreadFlagAll)
          gui := .input (t.flags gui) }
        have hv : guiStep gui t = some v := by
          simp only [guiStep, hpc, osThreadFlagsWait, if_pos hall, Option.map_some, v]
        obtain ⟨s', hrun', hlog⟩ := drains (s := v) rfl hpending
        refine ⟨s', hrun.trans (.head hv hrun'), ?_⟩
        rw [hlog, ← hputs, ht.order, hpc]
        simp [v, GuiPc.inHand]
      · rw [hpc] at hwill'
        exact hwill'.elim

end Progress

/-- In every state reached, the events were delivered in the order in which they were put; a blocked
loop leaves no event behind once every publisher has set its flag, and the loop alone comes to deliver
all of them; and every request to draw was followed by a drawing or is pending. -/
theorem gui_loses_no_work (h : (machine gui).Reachable s) :
    puts s.log = delivered s.log ++ s.gui.inHand ++ s.inputQueue ∧
      (Blocked gui s → (∀ t, s.publishers t ≠ .set) → s.inputQueue = []) ∧
      ((∀ t, s.publishers t ≠ .set) → ∃ s', GuiRun gui s s' ∧ delivered s'.log = puts s.log) ∧
      ∀ pre post, s.log = pre ++ Entry.updated :: post → .redraw ∈ post ∨ DrawPending gui s := by
  have hs := working_of_reachable h
  refine ⟨hs.order, fun hblocked hset => ?_, delivers_all hs, fun pre post hlog => ?_⟩
  · by_contra hne
    rcases hs.input hne with ⟨t, ht⟩ | hpending | hwill
    · exact hset t ht
    · exact hblocked.2 (pending_all hpending)
    · rw [hblocked.1] at hwill
      exact hwill.elim
  · by_cases hpost : .redraw ∈ post
    · exact .inl hpost
    · exact .inr (hs.draw ⟨pre, post, hlog, hpost⟩)

/-- A key and a request to draw: the key was delivered and the drawing is pending. -/
theorem gui_loses_no_work_key : ∃ s : State Bool ℕ, s.log = [.put 7, .updated, .delivered 7] ∧
    puts s.log = delivered s.log ++ s.gui.inHand ++ s.inputQueue ∧ DrawPending false s := by
  obtain ⟨s, hs, hlog⟩ : ∃ s : State Bool ℕ, (machine false).exec .init
      [.publish true 7, .put true, .set true, .update, .gui, .gui, .gui] = some s ∧
        s.log = [.put 7, .updated, .delivered 7] := ⟨_, rfl, rfl⟩
  obtain ⟨horder, -, -, hdraw⟩ := gui_loses_no_work (Machine.exec_reachable .init hs)
  refine ⟨s, hlog, horder, ?_⟩
  rcases hdraw [.put 7] [.delivered 7] hlog with hmem | hpending
  · simp at hmem
  · exact hpending

end FlipperZero.Gui.Service
