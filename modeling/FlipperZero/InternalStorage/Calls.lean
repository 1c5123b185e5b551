import FlipperZero.InternalStorage.Basic
import FlipperZero.Record.Invariant

/-! # Blocking calls and the flag they share with the records

Both modules give their flag the value 1, so a notification of the record module
ends the wait of a storage call. While no flag is set for a thread whose command
is in flight, a call returns with the result of the command it enqueued.
-/

namespace FlipperZero.InternalStorage

open FlipperZero.Lib FlipperZero.Mlib FlipperZero.Rtos FlipperZero.Record

variable {D H Thread Data Lfs File : Type}

/-- A call returns what the task has stored in its command before, and no command is executed
after its call has returned. -/
def ReturnsExecuted : List (Event Thread) → Prop
  | [] => True
  | .returned c ret :: h => .executed c ret ∈ h ∧ ReturnsExecuted h
  | .executed c _ :: h => (∀ ret, .returned c ret ∉ h) ∧ ReturnsExecuted h

/-- The command that the task has taken from the queue and not executed yet. -/
def TaskPc.executing : TaskPc Thread File → List (InternalStorageCommand Thread)
  | .open c | .transfer c _ | .close c _ _ | .store c _ => [c]
  | .boot | .create | .get | .signal _ => []

def State.inFlight (s : State D H Thread Data Lfs File) : List (InternalStorageCommand Thread) :=
  s.task.executing ++ s.queue

def Pc.putting : Pc Thread → Bool
  | .put _ _ => true
  | .idle | .wait _ | .return _ => false

def Pc.command : Pc Thread → Option (InternalStorageCommand Thread)
  | .wait c | .return c => some c
  | .idle | .put _ _ => none

/-- The thread that `furi_record_create` flags next. -/
def notified {Name : Type} : Record.Pc Thread Name Data → Option Thread
  | .createNotify _ _ (holder :: _) => some holder
  | _ => none

def TaskPc.signalled : TaskPc Thread File → Option Thread
  | .signal c => some c.thread
  | _ => none

/-- The thread whose command the step puts into the queue. -/
def puts (s : State D H Thread Data Lfs File) : Label Thread Data → Option Thread
  | .client t => if (s.pc t).putting then some t else none
  | _ => none

def sets (s : State D H Thread Data Lfs File) : Label Thread Data → Option Thread
  | .record (.step t) => notified (s.record.pc t)
  | .task => s.task.signalled
  | _ => none

/-- No flag is pending for a thread that enqueues a command, and none is set for a thread
with a command in flight. -/
def Undisturbed (s : State D H Thread Data Lfs File) (l : Label Thread Data) : Prop :=
  (∀ t ∈ puts s l, ¬ Pending s.record.flags t internalStorageThreadFlagCallComplete) ∧
    ∀ t ∈ sets s l, ∀ c ∈ s.inFlight, c.thread ≠ t

instance [DecidableEq Thread] (s : State D H Thread Data Lfs File) (l : Label Thread Data) :
    Decidable (Undisturbed s l) :=
  inferInstanceAs (Decidable (_ ∧ _))

/-- The result of the command is in its frame and in the history. -/
def State.Done (s : State D H Thread Data Lfs File) (c : InternalStorageCommand Thread) : Prop :=
  .executed c (s.frames c.data).ret ∈ s.history

structure Inv (s : State D H Thread Data Lfs File) : Prop where
  waits : ∀ c ∈ s.inFlight, s.pc c.thread = .wait c
  unflagged : ∀ c ∈ s.inFlight,
    ¬ Pending s.record.flags c.thread internalStorageThreadFlagCallComplete
  own : ∀ t, ∀ c ∈ (s.pc t).command, c.thread = t ∧ c.data < s.fresh
  apart : ∀ t u, ∀ c ∈ (s.pc t).command, ∀ c' ∈ (s.pc u).command, c.data = c'.data → c = c'
  waiting : ∀ t c, s.pc t = .wait c → c ∈ s.inFlight ∨ s.Done c
  returning : ∀ t c, s.pc t = .return c → s.Done c
  events : ∀ c ret, .returned c ret ∈ s.history → c.data < s.fresh ∧ c ∉ s.inFlight
  history : ReturnsExecuted s.history

variable {s s' : State D H Thread Data Lfs File} {c : InternalStorageCommand Thread} {t : Thread}

/-- Two states that differ in nothing that the invariant reads but the flags. -/
structure SameCalls (s s' : State D H Thread Data Lfs File) : Prop where
  inFlight : s'.inFlight = s.inFlight
  frames : s'.frames = s.frames
  fresh : s'.fresh = s.fresh
  pc : s'.pc = s.pc
  history : s'.history = s.history

theorem Inv.sameCalls (hi : Inv s) (h : SameCalls s s')
    (hf : ∀ c ∈ s.inFlight,
      ¬ Pending s'.record.flags c.thread internalStorageThreadFlagCallComplete) : Inv s' := by
  obtain ⟨hin, hfr, hn, hpc, hh⟩ := h
  have hdone : ∀ c, s'.Done c ↔ s.Done c := fun c => by simp only [State.Done, hfr, hh]
  refine ⟨?_, ?_, ?_, ?_, ?_, ?_, ?_, ?_⟩
  · simpa only [hin, hpc] using hi.waits
  · simpa only [hin] using hf
  · simpa only [hpc, hn] using hi.own
  · simpa only [hpc] using hi.apart
  · simpa only [hin, hpc, hdone] using hi.waiting
  · simpa only [hpc, hdone] using hi.returning
  · simpa only [hin, hh, hn] using hi.events
  · simpa only [hh] using hi.history

theorem inv_init [Dict D String ℕ] (cfg : Config Thread Data Lfs File) :
    Inv (init cfg : State D H Thread Data Lfs File) where
  waits _ hc := by cases hc
  unflagged _ hc := by cases hc
  own _ _ hc := by cases hc
  apart _ _ _ hc := by cases hc
  waiting _ _ hu := by cases hu
  returning _ _ hu := by cases hu
  events _ _ hm := by cases hm
  history := trivial

theorem Inv.done_of_pending (hi : Inv s) (ht : s.pc t = .wait c)
    (hp : Pending s.record.flags t internalStorageThreadFlagCallComplete) :
    c ∉ s.inFlight ∧ s.Done c := by
  have hc : c ∉ s.inFlight := by
    intro hc
    have hown := (hi.own t c (by rw [ht]; rfl)).1
    exact hi.unflagged c hc (hown ▸ hp)
  exact ⟨hc, (hi.waiting t c ht).resolve_left hc⟩

theorem Inv.logReturn (hi : Inv s) (ht : s.pc t = .return c) :
    Inv (s.log (.returned c (s.frames c.data).ret)) := by
  have hc : c ∉ s.inFlight := by
    intro hc
    have hown := (hi.own t c (by rw [ht]; rfl)).1
    have := hi.waits c hc
    simp [hown, ht] at this
  refine ⟨hi.waits, hi.unflagged, hi.own, hi.apart, fun u c' hu => ?_, fun u c' hu => ?_,
    fun c' ret hm => ?_, hi.returning t c ht, hi.history⟩
  · exact (hi.waiting u c' hu).imp_right (List.mem_cons_of_mem _)
  · exact List.mem_cons_of_mem _ (hi.returning u c' hu)
  · rcases List.mem_cons.mp hm with he | hm
    · cases he
      exact ⟨(hi.own t c (by rw [ht]; rfl)).2, hc⟩
    · exact hi.events c' ret hm

theorem Inv.store (hi : Inv s) {ret : ℤ} (ht : s.task = .store c ret) :
    Inv ({ s.log (.executed c ret) with
      frames := Function.update s.frames c.data { s.frames c.data with ret := ret }
      task := .signal c } : State D H Thread Data Lfs File) := by
  set s₁ : State D H Thread Data Lfs File := { s.log (.executed c ret) with
    frames := Function.update s.frames c.data { s.frames c.data with ret := ret }
    task := .signal c } with hs₁
  have hin : s.inFlight = c :: s₁.inFlight := by
    rw [State.inFlight, ht]
    rfl
  have hc : c ∈ s.inFlight := by rw [hin]; exact List.mem_cons_self
  have hsub : ∀ c' ∈ s₁.inFlight, c' ∈ s.inFlight := by
    intro c' hc'
    rw [hin]
    exact List.mem_cons_of_mem c hc'
  have hself : s₁.Done c := by simp [State.Done, hs₁, State.log]
  have hdone : ∀ u, ∀ c' ∈ (s.pc u).command, s.Done c' → s₁.Done c' := by
    intro u c' hc' hd
    by_cases he : c'.data = c.data
    · have hcc := hi.apart u c.thread c' hc' c (by rw [hi.waits c hc]; rfl) he
      rw [hcc]
      exact hself
    · have hframe : s₁.frames c'.data = s.frames c'.data := by simp [hs₁, he]
      rw [State.Done, hframe]
      exact List.mem_cons_of_mem _ hd
  refine ⟨fun c' hc' => hi.waits c' (hsub c' hc'), fun c' hc' => hi.unflagged c' (hsub c' hc'),
    hi.own, hi.apart, fun u c' hu => ?_, fun u c' hu => ?_, fun c' r hm => ?_, ?_⟩
  · rcases hi.waiting u c' hu with hm | hd
    · rw [hin] at hm
      rcases List.mem_cons.mp hm with rfl | hm
      · exact .inr hself
      · exact .inl hm
    · refine .inr (hdone u c' ?_ hd)
      rw [show s.pc u = .wait c' from hu]
      rfl
  · refine hdone u c' ?_ (hi.returning u c' hu)
    rw [show s.pc u = .return c' from hu]
    rfl
  · rcases List.mem_cons.mp hm with he | hm
    · cases he
    · obtain ⟨hlt, hn⟩ := hi.events c' r hm
      exact ⟨hlt, fun h => hn (hsub c' h)⟩
  · exact ⟨fun r hm => (hi.events c r hm).2 hc, hi.history⟩

variable [DecidableEq Thread]

section Record

variable {Name : Type} [Dict D Name ℕ] [DictSet H Thread] {u : Thread}
variable {d d' : FuriRecordData D H Thread Data} {fl fl' : ThreadFlags Thread}
variable {p p' : Record.Pc Thread Name Data} {evs : List (Record.Event Thread Name Data)}

theorem pending_wait {f : BitVec 32}
    (h : osThreadFlagsWait fl t f = some fl') (hp : Pending fl' u f) : Pending fl u f := by
  by_cases hut : u = t
  · subst hut
    exact pending_of_wait h
  · rwa [Pending, ← wait_of_ne h hut]

theorem Move.pending_or_notified (hm : Move d fl t p d' fl' p' evs)
    (hp : Pending fl' u internalStorageThreadFlagCallComplete) :
    Pending fl u internalStorageThreadFlagCallComplete ∨ u ∈ notified p := by
  cases hm
  case createNotify n q holder rest =>
    by_cases hu : u = holder
    · exact .inr (by rw [hu]; rfl)
    · exact .inl ((pending_set_of_ne hu _).mp hp)
  case openWait hfl => exact .inl (pending_wait hfl hp)
  all_goals exact .inl hp

end Record

theorem Inv.recordCall {r : Record.State D H Thread String Data} {c : Record.Call String Data}
    (hi : Inv s) (hr : Record.call s.record t c = some r) : Inv { s with record := r } := by
  refine hi.sameCalls ⟨rfl, rfl, rfl, rfl, rfl⟩ fun c hc => ?_
  obtain ⟨-, evs, rfl, -⟩ := Record.call_cases hr
  exact hi.unflagged c hc

theorem goto_pc_cases (s : State D H Thread Data Lfs File) (t u : Thread) (p : Pc Thread) :
    (u = t ∧ (s.goto t p).pc u = p) ∨ (u ≠ t ∧ (s.goto t p).pc u = s.pc u) := by
  by_cases hut : u = t
  · exact .inl ⟨hut, by simp [State.goto, hut]⟩
  · exact .inr ⟨hut, by simp [State.goto, hut]⟩

/-- A thread with no command in flight may go on to a program counter without a command. -/
theorem Inv.goto (hi : Inv s) (ht : ∀ c ∈ (s.pc t).command, c ∉ s.inFlight) {p : Pc Thread}
    (hp : p.command = none) : Inv (s.goto t p) := by
  have hcmd : ∀ u, ∀ c ∈ ((s.goto t p).pc u).command, s.pc u = (s.goto t p).pc u := by
    intro u c hc
    obtain ⟨-, he⟩ | ⟨-, he⟩ := goto_pc_cases s t u p
    · rw [he, hp] at hc
      cases hc
    · exact he.symm
  refine ⟨fun c hc => ?_, hi.unflagged, fun u c hc => ?_, fun u v c hc c' hc' => ?_,
    fun u c hu => ?_, fun u c hu => ?_, hi.events, hi.history⟩
  · have hw := hi.waits c hc
    obtain ⟨hct, -⟩ | ⟨-, he⟩ := goto_pc_cases s t c.thread p
    · rw [hct] at hw
      exact absurd hc (ht c (by rw [hw]; rfl))
    · exact he.trans hw
  · exact hi.own u c (by rwa [hcmd u c hc])
  · exact hi.apart u v c (by rwa [hcmd u c hc]) c' (by rwa [hcmd v c' hc'])
  · refine hi.waiting u c ((hcmd u c ?_).trans hu)
    rw [hu]
    rfl
  · refine hi.returning u c ((hcmd u c ?_).trans hu)
    rw [hu]
    rfl

theorem Inv.enqueue (hi : Inv s) {function : InternalStorageCommandFunction}
    {data : InternalStorageCommandKey} (ht : s.pc t = .put function data)
    (hf : ¬ Pending s.record.flags t internalStorageThreadFlagCallComplete) :
    Inv (({ s with
        queue := s.queue ++ [⟨t, function, s.fresh⟩]
        frames := Function.update s.frames s.fresh data
        fresh := s.fresh + 1 } : State D H Thread Data Lfs File).goto t
      (.wait ⟨t, function, s.fresh⟩)) := by
  set new : InternalStorageCommand Thread := ⟨t, function, s.fresh⟩ with hnew
  set s₁ : State D H Thread Data Lfs File := { s with
    queue := s.queue ++ [new], frames := Function.update s.frames s.fresh data
    fresh := s.fresh + 1 } with hs₁
  have hin : ∀ c, c ∈ (s₁.goto t (.wait new)).inFlight ↔ c ∈ s.inFlight ∨ c = new := by
    intro c
    simp only [State.inFlight, State.goto, hs₁, List.mem_append, List.mem_singleton, or_assoc]
  have hdone : ∀ c, c.data < s.fresh → s.Done c → (s₁.goto t (.wait new)).Done c := by
    intro c hc hd
    simpa [State.Done, State.goto, hs₁, Nat.ne_of_lt hc] using hd
  have hother : ∀ c ∈ s.inFlight, c.thread ≠ t := by
    intro c hc he
    have := hi.waits c hc
    simp [he, ht] at this
  refine ⟨fun c hc => ?_, fun c hc => ?_, fun u c hc => ?_, fun u v c hc c' hc' he => ?_,
    fun u c hu => ?_, fun u c hu => ?_, fun c ret hc => ?_, hi.history⟩
  · rcases (hin c).mp hc with hc | rfl
    · obtain ⟨he, -⟩ | ⟨-, he⟩ := goto_pc_cases s₁ t c.thread (.wait new)
      · exact absurd he (hother c hc)
      · exact he.trans (hi.waits c hc)
    · simp [State.goto, hnew]
  · rcases (hin c).mp hc with hc | rfl
    · exact hi.unflagged c hc
    · exact hf
  · obtain ⟨rfl, he⟩ | ⟨-, he⟩ := goto_pc_cases s₁ t u (.wait new)
    · rw [he] at hc
      obtain rfl : new = c := Option.some.inj hc
      exact ⟨rfl, Nat.lt_succ_self _⟩
    · rw [he] at hc
      obtain ⟨hu, hlt⟩ := hi.own u c hc
      exact ⟨hu, Nat.lt_succ_of_lt hlt⟩
  · obtain ⟨-, hu⟩ | ⟨-, hu⟩ := goto_pc_cases s₁ t u (.wait new) <;>
      obtain ⟨-, hv⟩ | ⟨-, hv⟩ := goto_pc_cases s₁ t v (.wait new) <;>
      rw [hu] at hc <;> rw [hv] at hc'
    · exact Option.some.inj (hc.symm.trans hc')
    · obtain rfl : new = c := Option.some.inj hc
      exact absurd he (Nat.ne_of_gt (hi.own v c' hc').2)
    · obtain rfl : new = c' := Option.some.inj hc'
      exact absurd he (Nat.ne_of_lt (hi.own u c hc).2)
    · exact hi.apart u v c hc c' hc' he
  · obtain ⟨-, he⟩ | ⟨-, he⟩ := goto_pc_cases s₁ t u (.wait new)
    · rw [he] at hu
      cases hu
      exact .inl ((hin _).mpr (.inr rfl))
    · rw [he] at hu
      rcases hi.waiting u c hu with hc | hd
      · exact .inl ((hin c).mpr (.inl hc))
      · refine .inr (hdone c ?_ hd)
        exact (hi.own u c (by rw [hu]; rfl)).2
  · obtain ⟨-, he⟩ | ⟨-, he⟩ := goto_pc_cases s₁ t u (.wait new)
    · rw [he] at hu
      cases hu
    · rw [he] at hu
      refine hdone c ?_ (hi.returning u c hu)
      exact (hi.own u c (by rw [hu]; rfl)).2
  · obtain ⟨hlt, hn⟩ := hi.events c ret hc
    refine ⟨Nat.lt_succ_of_lt hlt, fun hm => ?_⟩
    rcases (hin c).mp hm with hm | rfl
    · exact hn hm
    · exact absurd hlt (Nat.lt_irrefl _)

theorem Inv.wake (hi : Inv s) (ht : s.pc t = .wait c) {flags : ThreadFlags Thread}
    (hw : osThreadFlagsWait s.record.flags t internalStorageThreadFlagCallComplete =
      some flags) :
    Inv (({ s with record := { s.record with flags := flags } } :
      State D H Thread Data Lfs File).goto t (.return c)) := by
  set s₁ : State D H Thread Data Lfs File :=
    { s with record := { s.record with flags := flags } }
  obtain ⟨hc, hd⟩ := hi.done_of_pending ht (pending_of_wait hw)
  have hcmd : ∀ u, ((s₁.goto t (.return c)).pc u).command = (s.pc u).command := by
    intro u
    obtain ⟨rfl, he⟩ | ⟨-, he⟩ := goto_pc_cases s₁ t u (.return c)
    · rw [he, ht]
      rfl
    · rw [he]
  refine ⟨fun c' hc' => ?_, fun c' hc' hp => ?_, fun u => ?_, fun u v => ?_, fun u c' hu => ?_,
    fun u c' hu => ?_, hi.events, hi.history⟩
  · have hw := hi.waits c' hc'
    obtain ⟨he, -⟩ | ⟨-, he⟩ := goto_pc_cases s₁ t c'.thread (.return c)
    · rw [he, ht] at hw
      cases hw
      exact absurd hc' hc
    · exact he.trans hw
  · exact hi.unflagged c' hc' (pending_wait hw hp)
  · rw [hcmd]
    exact hi.own u
  · rw [hcmd, hcmd]
    exact hi.apart u v
  · obtain ⟨-, he⟩ | ⟨-, he⟩ := goto_pc_cases s₁ t u (.return c) <;> rw [he] at hu
    · cases hu
    · exact hi.waiting u c' hu
  · obtain ⟨-, he⟩ | ⟨-, he⟩ := goto_pc_cases s₁ t u (.return c) <;> rw [he] at hu
    · cases hu
      exact hd
    · exact hi.returning u c' hu

theorem Inv.return (hi : Inv s) (ht : s.pc t = .return c) :
    Inv ((s.log (.returned c (s.frames c.data).ret)).goto t .idle) := by
  refine (hi.logReturn ht).goto ?_ rfl
  intro c' hc' hin
  have hw := hi.waits c' hin
  rw [(hi.own t c' hc').1, ht] at hw
  cases hw

theorem Inv.signal (hi : Inv s) (ht : s.task = .signal c)
    (hok : Undisturbed s (.task : Label Thread Data)) :
    Inv ({ s with
      record := { s.record with
        flags := osThreadFlagsSet s.record.flags c.thread
          internalStorageThreadFlagCallComplete }
      task := .get } : State D H Thread Data Lfs File) := by
  refine hi.sameCalls ⟨?_, rfl, rfl, rfl, rfl⟩ fun c' hc' hp => ?_
  · simp only [State.inFlight, ht, TaskPc.executing]
  · have hne := hok.2 c.thread (by simp [sets, ht, TaskPc.signalled]) c' hc'
    exact hi.unflagged c' hc' ((pending_set_of_ne hne _).mp hp)

theorem taskStep_sameCalls {cfg : Config Thread Data Lfs File} (h : taskStep cfg s = some s')
    (hs : ∀ c ret, s.task ≠ .store c ret) (hg : ∀ c, s.task ≠ .signal c) :
    SameCalls s s' ∧ s'.record.flags = s.record.flags := by
  cases ht : s.task with
  | store c ret => exact absurd ht (hs c ret)
  | signal c => exact absurd ht (hg c)
  | boot =>
    simp only [taskStep, ht] at h
    obtain ⟨r, hr, rfl⟩ := Option.map_eq_some_iff.mp h
    obtain ⟨-, evs, rfl, -⟩ := Record.call_cases hr
    exact ⟨⟨by simp [State.inFlight, ht, TaskPc.executing], rfl, rfl, rfl, rfl⟩, rfl⟩
  | create =>
    simp only [taskStep, ht] at h
    split at h <;> cases h
    exact ⟨⟨by simp [State.inFlight, ht, TaskPc.executing], rfl, rfl, rfl, rfl⟩, rfl⟩
  | get =>
    simp only [taskStep, ht] at h
    split at h <;> cases h
    next hq => exact ⟨⟨by simp [State.inFlight, ht, hq, TaskPc.executing], rfl, rfl, rfl, rfl⟩, rfl⟩
  | «open» c =>
    simp only [taskStep, ht] at h
    cases h
    refine ⟨⟨?_, rfl, rfl, rfl, rfl⟩, rfl⟩
    simp only [State.inFlight, ht]
    split <;> rfl
  | transfer c file =>
    simp only [taskStep, ht] at h
    split at h <;> cases h <;>
      exact ⟨⟨by simp [State.inFlight, State.fill, ht, TaskPc.executing], rfl, rfl, rfl, rfl⟩, rfl⟩
  | close c file ret =>
    simp only [taskStep, ht] at h
    cases h
    exact ⟨⟨by simp [State.inFlight, ht, TaskPc.executing], rfl, rfl, rfl, rfl⟩, rfl⟩

theorem Inv.task {cfg : Config Thread Data Lfs File} (hi : Inv s)
    (hok : Undisturbed s (.task : Label Thread Data)) (h : taskStep cfg s = some s') :
    Inv s' := by
  by_cases hs : ∃ c ret, s.task = .store c ret
  · obtain ⟨c, ret, ht⟩ := hs
    simp only [taskStep, ht] at h
    cases h
    exact hi.store ht
  by_cases hg : ∃ c, s.task = .signal c
  · obtain ⟨c, ht⟩ := hg
    simp only [taskStep, ht] at h
    cases h
    exact hi.signal ht hok
  push Not at hs hg
  obtain ⟨hsame, hflags⟩ := taskStep_sameCalls h hs hg
  refine hi.sameCalls hsame fun c hc => ?_
  rw [hflags]
  exact hi.unflagged c hc

theorem Inv.client (hi : Inv s) (hok : Undisturbed s (.client t : Label Thread Data))
    (h : clientStep s t = some s') : Inv s' := by
  cases ht : s.pc t with
  | idle => simp [clientStep, ht] at h
  | put function data =>
    simp only [clientStep, ht] at h
    split at h <;> cases h
    exact hi.enqueue ht (hok.1 t (by simp [puts, ht, Pc.putting]))
  | wait c =>
    simp only [clientStep, ht] at h
    obtain ⟨flags, hw, rfl⟩ := Option.map_eq_some_iff.mp h
    exact hi.wake ht hw
  | «return» c =>
    simp only [clientStep, ht] at h
    cases h
    exact hi.return ht

theorem Inv.call {cfg : Config Thread Data Lfs File} (hi : Inv s)
    {function : InternalStorageCommandFunction} {key : String} {buffer size : ℕ}
    (h : call cfg s t function key buffer size = some s') : Inv s' := by
  unfold InternalStorage.call at h
  split at h
  · next ht _ =>
    split at h <;> cases h
    exact hi.goto (by simp [ht, Pc.command]) rfl
  · cases h

variable [DictSet H Thread] [Dict D String ℕ]

theorem Inv.record {r : Record.State D H Thread String Data} (hi : Inv s)
    (hok : Undisturbed s (.record (.step t))) (hr : Record.step s.record t = some r) :
    Inv { s with record := r } := by
  refine hi.sameCalls ⟨rfl, rfl, rfl, rfl, rfl⟩ fun c hc hp => ?_
  obtain ⟨_, _, _, _, hm, rfl⟩ := Record.step_move hr
  rcases Move.pending_or_notified hm hp with hp | hn
  · exact hi.unflagged c hc hp
  · exact hok.2 c.thread hn c hc rfl

theorem Inv.next {cfg : Config Thread Data Lfs File} {l : Label Thread Data} (hi : Inv s)
    (hok : Undisturbed s l) (h : next cfg s l = some s') : Inv s' := by
  rcases l with (⟨t, c⟩ | t) | ⟨t, function, key, buffer, size⟩ | t | _
  · simp only [InternalStorage.next] at h
    split at h
    · split at h
      · cases h
      · obtain ⟨r, hr, rfl⟩ := Option.map_eq_some_iff.mp h
        exact hi.recordCall hr
    · cases h
  · obtain ⟨r, hr, rfl⟩ := Option.map_eq_some_iff.mp h
    exact hi.record hok hr
  · exact hi.call h
  · exact hi.client hok h
  · exact hi.task hok h

/-- Along every run in which no flag is pending for a thread that enqueues a command and none is
set for a thread with a command in flight, a call returns with the result of its command. -/
theorem internal_storage_returns_executed {cfg : Config Thread Data Lfs File}
    {s : State D H Thread Data Lfs File}
    (h : (machine D H cfg).ReachableWith Undisturbed s) : ReturnsExecuted s.history :=
  (h.invariant (inv_init cfg) fun _ _ _ hi hok hs => Inv.next hi hok hs : Inv s).history

/-- A file system that keeps whole files, opened at their start. -/
def fileFs : LittleFs (String → Option (List (BitVec 8))) String where
  format _ := (0, fun _ => none)
  mount lfs := (0, lfs)
  fileOpen lfs key flags :=
    if .creat ∈ flags then (0, key, Function.update lfs key (some []))
    else (if (lfs key).isSome then 0 else -2, key, lfs)
  fileRead lfs file size :=
    let bytes := ((lfs file).getD []).take size
    (bytes.length, bytes, file, lfs)
  fileWrite lfs file bytes size :=
    (size, file, Function.update lfs file (some (bytes.take size)))
  fileClose lfs _ := (0, lfs)

/-- Thread 0 is the storage task, and the file `key` has three bytes. -/
def fileConfig : Config ℕ ℕ (String → Option (List (BitVec 8))) String where
  task := 0
  storage := 7
  fs := fileFs
  factoryReset := false
  flash := Function.update (fun _ => none) "key" (some [1, 2, 3])

abbrev fileMachine := machine (String → Option ℕ) (ListSet ℕ) fileConfig

/-- Thread 1 opens the storage after it was created and reads the file. -/
def openedRun : List (Label ℕ ℕ) :=
  [.task, .record (.step 0), .record (.step 0), .record (.step 0), .record (.step 0),
    .record (.step 0), .task, .record (.call 1 (.open "internal-storage")),
    .record (.step 1), .record (.step 1), .record (.step 1), .record (.step 1),
    .record (.step 1), .record (.step 1), .call 1 .readKey "key" 0 3, .client 1,
    .task, .task, .task, .task, .task, .task, .client 1, .client 1]

theorem internal_storage_returns_executed_read :
    ∃ s, fileMachine.ReachableWith Undisturbed s ∧
      .returned ⟨1, .readKey, 0⟩ 3 ∈ s.history ∧ ReturnsExecuted s.history := by
  have hrun : ∃ s, fileMachine.execWith Undisturbed fileMachine.init openedRun = some s ∧
      s.history = [.returned ⟨1, .readKey, 0⟩ 3, .executed ⟨1, .readKey, 0⟩ 3] := ⟨_, rfl, rfl⟩
  obtain ⟨s, hs, hh⟩ := hrun
  have hr := Machine.execWith_reachableWith (M := fileMachine) .init hs
  exact ⟨s, hr, by simp [hh], internal_storage_returns_executed hr⟩

/-- Thread 1 is between releasing the mutex and checking the owner while the task creates the
record, so it leaves `furi_record_open` with the flag of the notification pending. -/
def flaggedRun : List (Label ℕ ℕ) :=
  [.record (.call 1 (.open "internal-storage")), .record (.step 1), .record (.step 1),
    .record (.step 1), .record (.step 1), .task, .record (.step 0), .record (.step 0),
    .record (.step 0), .record (.step 0), .record (.step 0), .record (.step 0), .task,
    .record (.step 1), .record (.step 1), .call 1 .readKey "key" 0 3, .client 1,
    .client 1, .client 1, .task, .task, .task, .task, .task]

/-- The read returns 0 before the task has taken its command from the queue. -/
theorem internal_storage_returns_early :
    ¬ ∀ s, fileMachine.Reachable s → ReturnsExecuted s.history := by
  intro hall
  have hrun : ∃ s, fileMachine.exec fileMachine.init flaggedRun = some s ∧
      s.history = [.executed ⟨1, .readKey, 0⟩ 3, .returned ⟨1, .readKey, 0⟩ 0] := ⟨_, rfl, rfl⟩
  obtain ⟨s, hs, hh⟩ := hrun
  have hn := hall s (Machine.exec_reachable .init hs)
  rw [hh] at hn
  exact hn.1 0 (by decide)

end FlipperZero.InternalStorage
