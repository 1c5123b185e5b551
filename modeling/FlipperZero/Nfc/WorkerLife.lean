import FlipperZero.Lib.Machine
import Mathlib.Data.Nat.Notation

/-! # The life cycle of the NFC worker

The task of the app starts a worker thread, asks it to stop through the state that both write, and
frees the worker at the end. The threads run in any order; a worker thread leaves its mode where it
finds another state.
-/

namespace FlipperZero.Nfc

open Lib

inductive NfcWorkerState where
  | none
  | broken
  | ready
  | poll
  | readEMV
  | emulateEMV
  | emulate
  | field
  | stop
deriving DecidableEq, Repr

inductive NfcMessageType where
  | detect
  | readEMV
  | emulateEMV
  | emulate
  | field
  | stop
  | exit
  | deviceFound
  | deviceNotFound
  | emvFound
  | emvNotFound
deriving DecidableEq, Repr

/-- Where a worker thread is in `nfc_worker_task`. -/
inductive WorkerPc where
  | compare (states : List NfcWorkerState)
  | enter (mode : NfcWorkerState)
  | loop (mode : NfcWorkerState)
  | body (mode : NfcWorkerState)
  | finish
  /-- The state is ready again, and the thread has still to exit. -/
  | exit
deriving DecidableEq, Repr

/-- Where `nfc_task` is. -/
inductive TaskPc where
  | get
  | start (mode : NfcWorkerState)
  | workerStart (mode : NfcWorkerState)
  | newThread
  | workerStop
  | stop
  | workerFree
  | queueDelete
  | done
  | halted
deriving DecidableEq, Repr

structure NfcApp where
  state : NfcWorkerState
  /-- The memory of the worker is freed. -/
  freed : Bool
  queue : List NfcMessageType
  deleted : Bool
  task : TaskPc
  /-- The worker threads that exist. -/
  workers : List WorkerPc
deriving DecidableEq, Repr

namespace NfcApp

def queueLength : ℕ := 8

def put (s : NfcApp) (message : NfcMessageType) : Option NfcApp :=
  if s.queue.length < queueLength then some { s with queue := s.queue ++ [message] } else .none

def menuMessage (index : Fin 5) : NfcMessageType :=
  match index with
  | 0 => .detect
  | 1 => .readEMV
  | 2 => .emulateEMV
  | 3 => .emulate
  | 4 => .field

/-- The dispatch of a message by `nfc_task`; those of the worker only change what is drawn. -/
def dispatch : NfcMessageType → TaskPc
  | .detect => .start .poll
  | .readEMV => .start .readEMV
  | .emulateEMV => .start .emulateEMV
  | .emulate => .start .emulate
  | .field => .start .field
  | .stop => .workerStop
  | .exit => .workerFree
  | .deviceFound | .deviceNotFound | .emvFound | .emvNotFound => .get

def taskNext (s : NfcApp) : Option NfcApp :=
  match s.task with
  | .get =>
    match s.queue with
    | [] => .none
    | message :: queue => some { s with queue := queue, task := dispatch message }
  | .start mode => some { s with task := if s.state = .ready then .workerStart mode else .get }
  | .workerStart mode =>
    if s.state = .ready then some { s with state := mode, task := .newThread }
    else some { s with task := .halted }
  | .newThread =>
    some { s with
      workers := s.workers ++ [.compare [.poll, .readEMV, .emulateEMV, .emulate, .field]]
      task := .get }
  | .workerStop => some { s with task := if s.state = .broken then .get else .stop }
  | .stop => some { s with state := .stop, task := .get }
  | .workerFree => some { s with freed := true, task := .queueDelete }
  | .queueDelete => some { s with deleted := true, task := .done }
  | .done | .halted => .none

/-- A step of a worker thread, and where the thread is then unless it has exited. What the radio
finds decides which message is sent, and whether the discovery of `nfc_worker_emulate` fails. -/
def workerNext (s : NfcApp) (found : Bool) : WorkerPc → Option (NfcApp × Option WorkerPc)
  | .compare [] => some (s, some .finish)
  | .compare (mode :: modes) =>
    some (s, some (if s.state = mode then .enter mode else .compare modes))
  | .enter mode =>
    match mode with
    | .poll => (s.put .deviceNotFound).map fun s => (s, some (.loop mode))
    | .emulate => some (s, some (if found then .loop mode else .finish))
    | _ => some (s, some (.loop mode))
  | .loop mode => some (s, some (if s.state = mode then .body mode else .finish))
  | .body mode =>
    match mode with
    | .poll =>
      (s.put (if found then .deviceFound else .deviceNotFound)).map fun s => (s, some (.loop mode))
    | .readEMV =>
      (s.put (if found then .emvFound else .emvNotFound)).map fun s => (s, some (.loop mode))
    | _ => some (s, some (.loop mode))
  | .finish => some ({ s with state := .ready }, some .exit)
  | .exit => some (s, .none)

inductive Label where
  | menu (index : Fin 5)
  | viewStop
  | viewExit
  | task
  | worker (k : ℕ) (found : Bool)
deriving DecidableEq, Repr

/-- The callbacks, the task and the worker threads; the reader may be broken from the start. -/
def machine (broken : Bool) : Machine NfcApp Label where
  init :=
    { state := if broken then .broken else .ready
      freed := false
      queue := []
      deleted := false
      task := .get
      workers := [] }
  next s
    | .menu index => if s.deleted then .none else s.put (menuMessage index)
    | .viewStop => if s.deleted then .none else s.put .stop
    | .viewExit => if s.deleted then .none else s.put .exit
    | .task => s.taskNext
    | .worker k found =>
      match s.workers[k]? with
      | .none => .none
      | some pc => (s.workerNext found pc).map fun (s', pc') =>
        match pc' with
        | some pc' => { s' with workers := s.workers.set k pc' }
        | .none => { s' with workers := s.workers.eraseIdx k }

/-- At most one worker thread exists; where the state is Stop, one has still to leave it; and none
exists from when the worker is freed or the queue is deleted. -/
structure LifeCycle (s : NfcApp) : Prop where
  workers : s.workers.length ≤ 1
  stop : s.state = .stop → ∃ pc ∈ s.workers, pc ≠ .exit
  freed : s.freed ∨ s.deleted → s.workers = []

/-- A thread is created when none exists, Stop is written while one has still to write Ready, and
the worker is freed when none exists. -/
def Keeps (s : NfcApp) : Label → Prop
  | .task =>
    (s.task = .newThread → s.workers = []) ∧ (s.task = .stop → ∃ pc ∈ s.workers, pc ≠ .exit) ∧
      (s.task = .workerFree → s.workers = [])
  | _ => True

/-- Where the task is when the memory is freed, and the states that it starts a worker in. -/
structure Settled (s : NfcApp) : Prop where
  freed : s.freed → s.task = .queueDelete ∨ s.task = .done
  deleted : s.deleted → s.task = .done
  queueDelete : s.task = .queueDelete → s.freed
  mode : ∀ mode, s.task = .start mode ∨ s.task = .workerStart mode → mode ≠ .stop

variable {s s' : NfcApp} {l : Label} {message : NfcMessageType} {found : Bool} {pc : WorkerPc}
  {pc' : Option WorkerPc}

theorem put_eq_some (h : s.put message = some s') :
    s' = { s with queue := s.queue ++ [message] } := by
  unfold put at h
  split at h
  · exact (Option.some.inj h).symm
  · cases h

/-- A step of a worker thread goes on without exiting, writes Ready, or exits. -/
inductive WorkerStep (s : NfcApp) (pc : WorkerPc) : NfcApp → Option WorkerPc → Prop where
  | goOn (queue : List NfcMessageType) (pc' : WorkerPc) (hpc : pc ≠ .exit) (hpc' : pc' ≠ .exit) :
    WorkerStep s pc { s with queue := queue } (some pc')
  | ready (hpc : pc = .finish) : WorkerStep s pc { s with state := .ready } (some .exit)
  | exit (hpc : pc = .exit) : WorkerStep s pc s .none

theorem workerNext_step (h : s.workerNext found pc = some (s', pc')) : WorkerStep s pc s' pc' := by
  have hsame {pc'' : WorkerPc} (hpc : pc ≠ .exit) (hpc' : pc'' ≠ .exit)
      (heq : some (s, some pc'') = some (s', pc')) : WorkerStep s pc s' pc' := by
    obtain ⟨rfl, rfl⟩ := Prod.mk.inj (Option.some.inj heq)
    exact .goOn s.queue pc'' hpc hpc'
  have hput {message : NfcMessageType} {pc'' : WorkerPc} (hpc : pc ≠ .exit) (hpc' : pc'' ≠ .exit)
      (heq : (s.put message).map (fun s => (s, some pc'')) = some (s', pc')) :
      WorkerStep s pc s' pc' := by
    obtain ⟨s₁, hs, heq⟩ := Option.map_eq_some_iff.mp heq
    obtain ⟨rfl, rfl⟩ := Prod.mk.inj heq
    rw [put_eq_some hs]
    exact .goOn _ pc'' hpc hpc'
  cases pc with
  | compare states =>
    cases states with
    | nil => exact hsame WorkerPc.noConfusion WorkerPc.noConfusion h
    | cons mode modes =>
      refine hsame WorkerPc.noConfusion ?_ h
      split <;> exact WorkerPc.noConfusion
  | enter mode =>
    cases mode with
    | poll => exact hput WorkerPc.noConfusion WorkerPc.noConfusion h
    | emulate =>
      refine hsame WorkerPc.noConfusion ?_ h
      split <;> exact WorkerPc.noConfusion
    | _ => exact hsame WorkerPc.noConfusion WorkerPc.noConfusion h
  | loop mode =>
    refine hsame WorkerPc.noConfusion ?_ h
    split <;> exact WorkerPc.noConfusion
  | body mode =>
    cases mode with
    | poll => exact hput WorkerPc.noConfusion WorkerPc.noConfusion h
    | readEMV => exact hput WorkerPc.noConfusion WorkerPc.noConfusion h
    | _ => exact hsame WorkerPc.noConfusion WorkerPc.noConfusion h
  | finish =>
    obtain ⟨rfl, rfl⟩ := Prod.mk.inj (Option.some.inj h)
    exact .ready rfl
  | exit =>
    obtain ⟨rfl, rfl⟩ := Prod.mk.inj (Option.some.inj h)
    exact .exit rfl

inductive Next (s : NfcApp) : Label → NfcApp → Prop where
  | post (l : Label) (queue : List NfcMessageType) (hl : l ≠ .task) :
    Next s l { s with queue := queue }
  | goOn (k : ℕ) (found : Bool) (queue : List NfcMessageType) (pc pc' : WorkerPc)
      (hget : s.workers[k]? = some pc) (hpc : pc ≠ .exit) (hpc' : pc' ≠ .exit) :
    Next s (.worker k found) { s with queue := queue, workers := s.workers.set k pc' }
  | ready (k : ℕ) (found : Bool) (hget : s.workers[k]? = some .finish) :
    Next s (.worker k found) { s with state := .ready, workers := s.workers.set k .exit }
  | exit (k : ℕ) (found : Bool) (hget : s.workers[k]? = some .exit) :
    Next s (.worker k found) { s with workers := s.workers.eraseIdx k }
  | task {s' : NfcApp} (hs : s.taskNext = some s') : Next s .task s'

theorem machine_next {broken : Bool} (hs : (machine broken).next s l = some s') : s.Next l s' := by
  have hpost {message : NfcMessageType} (hl : l ≠ .task)
      (h : (if s.deleted then .none else s.put message) = some s') : s.Next l s' := by
    split at h
    · cases h
    · rw [put_eq_some h]
      exact .post l _ hl
  cases l with
  | menu index => exact hpost Label.noConfusion hs
  | viewStop => exact hpost Label.noConfusion hs
  | viewExit => exact hpost Label.noConfusion hs
  | task => exact .task hs
  | worker k found =>
    simp only [machine] at hs
    split at hs
    · cases hs
    · next pc hget =>
      obtain ⟨⟨t, pc'⟩, hstep, heq⟩ := Option.map_eq_some_iff.mp hs
      cases workerNext_step hstep with
      | goOn queue pc' hpc hpc' => exact heq ▸ .goOn k found queue pc pc' hget hpc hpc'
      | ready hpc => exact heq ▸ .ready k found (hpc ▸ hget)
      | exit hpc => exact heq ▸ .exit k found (hpc ▸ hget)

theorem Settled.next (h : s.Settled) (hs : s.Next l s') : s'.Settled := by
  cases hs with
  | post | goOn | ready | exit => exact ⟨h.freed, h.deleted, h.queueDelete, h.mode⟩
  | task hs =>
    have hlive {t : NfcApp} (htask : ¬(s.task = .queueDelete ∨ s.task = .done))
        (hfreed : t.freed = s.freed) (hdeleted : t.deleted = s.deleted)
        (hdelete : t.task ≠ .queueDelete)
        (hmode : ∀ mode, t.task = .start mode ∨ t.task = .workerStart mode → mode ≠ .stop) :
        t.Settled := by
      constructor
      · exact fun ht => absurd (h.freed (hfreed ▸ ht)) htask
      · exact fun ht => absurd (.inr (h.deleted (hdeleted ▸ ht))) htask
      · exact fun ht => absurd ht hdelete
      · exact hmode
    unfold taskNext at hs
    cases htask : s.task with
    | get =>
      simp only [htask] at hs
      cases hqueue : s.queue with
      | nil =>
        rw [hqueue] at hs
        cases hs
      | cons message queue =>
        rw [hqueue] at hs
        obtain rfl := Option.some.inj hs
        refine hlive (by simp [htask]) rfl rfl ?_ ?_ <;> cases message <;> simp [dispatch]
    | start mode =>
      simp only [htask] at hs
      obtain rfl := Option.some.inj hs
      have hne := h.mode mode (.inl htask)
      refine hlive (by simp [htask]) rfl rfl (by simp only; split <;> exact TaskPc.noConfusion) ?_
      split
      · rintro mode' (hmode | hmode)
        · cases hmode
        · exact TaskPc.workerStart.inj hmode ▸ hne
      · rintro mode' (hmode | hmode) <;> cases hmode
    | workerStart mode =>
      simp only [htask] at hs
      split at hs <;>
      · obtain rfl := Option.some.inj hs
        refine hlive (by simp [htask]) rfl rfl TaskPc.noConfusion ?_
        rintro mode' (hmode | hmode) <;> cases hmode
    | newThread | stop =>
      simp only [htask] at hs
      obtain rfl := Option.some.inj hs
      refine hlive (by simp [htask]) rfl rfl TaskPc.noConfusion ?_
      rintro mode' (hmode | hmode) <;> cases hmode
    | workerStop =>
      simp only [htask] at hs
      obtain rfl := Option.some.inj hs
      refine hlive (by simp [htask]) rfl rfl (by simp only; split <;> exact TaskPc.noConfusion) ?_
      split <;>
      · rintro mode' (hmode | hmode) <;> cases hmode
    | workerFree =>
      simp only [htask] at hs
      obtain rfl := Option.some.inj hs
      refine ⟨fun _ => .inl rfl, fun hdeleted => ?_, fun _ => rfl, ?_⟩
      · have hdone := h.deleted hdeleted
        rw [htask] at hdone
        cases hdone
      · rintro mode' (hmode | hmode) <;> cases hmode
    | queueDelete =>
      simp only [htask] at hs
      obtain rfl := Option.some.inj hs
      refine ⟨fun _ => .inr rfl, fun _ => rfl, TaskPc.noConfusion, ?_⟩
      rintro mode' (hmode | hmode) <;> cases hmode
    | done | halted =>
      simp only [htask] at hs
      cases hs

theorem mem_of_set {k : ℕ} {workers : List WorkerPc} {pc pc' : WorkerPc}
    (hget : workers[k]? = some pc) : pc' ∈ workers.set k pc' := by
  obtain ⟨hlt, -⟩ := List.getElem?_eq_some_iff.mp hget
  exact List.mem_set hlt _

theorem ne_nil_of_getElem? {k : ℕ} {workers : List WorkerPc} {pc : WorkerPc}
    (hget : workers[k]? = some pc) : workers ≠ [] :=
  List.ne_nil_of_mem (List.mem_of_getElem? hget)

theorem keeps_task (hnew : s.task ≠ .newThread) (hstop : s.task ≠ .stop)
    (hfree : s.task ≠ .workerFree) : s.Keeps .task :=
  ⟨fun ht => absurd ht hnew, fun ht => absurd ht hstop, fun ht => absurd ht hfree⟩

theorem LifeCycle.exit (h : s.LifeCycle) {k : ℕ} (hget : s.workers[k]? = some .exit) :
    LifeCycle { s with workers := s.workers.eraseIdx k } := by
  have hsingle : s.workers = [.exit] := by
    obtain ⟨pc, hpc⟩ := List.length_eq_one_iff.mp
      (Nat.le_antisymm h.workers (List.length_pos_of_ne_nil (ne_nil_of_getElem? hget)))
    have hmem := List.mem_of_getElem? hget
    rw [hpc, List.mem_singleton] at hmem
    rw [hpc, ← hmem]
  refine ⟨?_, fun hstop => ?_, ?_⟩
  · exact Nat.le_trans (List.length_eraseIdx_le _ _) h.workers
  · obtain ⟨pc, hmem, hne⟩ := h.stop hstop
    rw [hsingle, List.mem_singleton] at hmem
    exact absurd hmem hne
  · exact fun hfreed => absurd (h.freed hfreed) (ne_nil_of_getElem? hget)

theorem Settled.newThread_iff (hsettled : s.Settled) (htask : s.task = .newThread)
    (hs : s.taskNext = some s') : s'.LifeCycle ↔ s.Keeps .task := by
  simp only [taskNext, htask] at hs
  obtain rfl := Option.some.inj hs
  constructor
  · intro h'
    have hlength := h'.workers
    rw [List.length_append, List.length_singleton] at hlength
    refine ⟨fun _ => List.eq_nil_of_length_eq_zero (by omega), fun ht => ?_, fun ht => ?_⟩
    · rw [htask] at ht
      cases ht
    · rw [htask] at ht
      cases ht
  · rintro ⟨hnone, -, -⟩
    constructor
    · rw [hnone htask]
      exact Nat.le_refl 1
    · exact fun _ => ⟨_, List.mem_append_right _ (List.mem_singleton_self _),
        WorkerPc.noConfusion⟩
    · rintro (hfreed | hdeleted)
      · exact absurd (hsettled.freed hfreed) (by simp [htask])
      · exact absurd (hsettled.deleted hdeleted) (by simp [htask])

theorem LifeCycle.stop_iff (h : s.LifeCycle) (htask : s.task = .stop)
    (hs : s.taskNext = some s') : s'.LifeCycle ↔ s.Keeps .task := by
  simp only [taskNext, htask] at hs
  obtain rfl := Option.some.inj hs
  constructor
  · intro h'
    refine ⟨fun ht => ?_, fun _ => h'.stop rfl, fun ht => ?_⟩
    · rw [htask] at ht
      cases ht
    · rw [htask] at ht
      cases ht
  · exact fun hstop => ⟨h.workers, fun _ => hstop.2.1 htask, h.freed⟩

theorem LifeCycle.workerFree_iff (h : s.LifeCycle) (htask : s.task = .workerFree)
    (hs : s.taskNext = some s') : s'.LifeCycle ↔ s.Keeps .task := by
  simp only [taskNext, htask] at hs
  obtain rfl := Option.some.inj hs
  constructor
  · intro h'
    refine ⟨fun ht => ?_, fun ht => ?_, fun _ => h'.freed (.inl rfl)⟩
    · rw [htask] at ht
      cases ht
    · rw [htask] at ht
      cases ht
  · exact fun hfree => ⟨h.workers, h.stop, fun _ => hfree.2.2 htask⟩

theorem LifeCycle.task_iff (h : s.LifeCycle) (hsettled : s.Settled) (hs : s.taskNext = some s') :
    s'.LifeCycle ↔ s.Keeps .task := by
  cases htask : s.task with
  | newThread => exact hsettled.newThread_iff htask hs
  | stop => exact h.stop_iff htask hs
  | workerFree => exact h.workerFree_iff htask hs
  | get =>
    simp only [taskNext, htask] at hs
    cases hqueue : s.queue with
    | nil =>
      rw [hqueue] at hs
      cases hs
    | cons message queue =>
      rw [hqueue] at hs
      obtain rfl := Option.some.inj hs
      exact iff_of_true ⟨h.workers, h.stop, h.freed⟩
        (keeps_task (by simp [htask]) (by simp [htask]) (by simp [htask]))
  | start | workerStop =>
    simp only [taskNext, htask] at hs
    obtain rfl := Option.some.inj hs
    exact iff_of_true ⟨h.workers, h.stop, h.freed⟩
      (keeps_task (by simp [htask]) (by simp [htask]) (by simp [htask]))
  | workerStart mode =>
    simp only [taskNext, htask] at hs
    have hmode := hsettled.mode mode (.inr htask)
    split at hs
    · obtain rfl := Option.some.inj hs
      exact iff_of_true ⟨h.workers, fun hstop => absurd hstop hmode, h.freed⟩
        (keeps_task (by simp [htask]) (by simp [htask]) (by simp [htask]))
    · obtain rfl := Option.some.inj hs
      exact iff_of_true ⟨h.workers, h.stop, h.freed⟩
        (keeps_task (by simp [htask]) (by simp [htask]) (by simp [htask]))
  | queueDelete =>
    simp only [taskNext, htask] at hs
    obtain rfl := Option.some.inj hs
    refine iff_of_true ⟨h.workers, h.stop, fun _ => ?_⟩
      (keeps_task (by simp [htask]) (by simp [htask]) (by simp [htask]))
    exact h.freed (.inl (hsettled.queueDelete htask))
  | done | halted =>
    simp only [taskNext, htask] at hs
    cases hs

theorem LifeCycle.next_iff (h : s.LifeCycle) (hsettled : s.Settled) (hs : s.Next l s') :
    s'.LifeCycle ↔ s.Keeps l := by
  cases hs with
  | post l queue hl =>
    refine iff_of_true ⟨h.workers, h.stop, h.freed⟩ ?_
    cases l with
    | task => exact absurd rfl hl
    | _ => trivial
  | goOn k found queue pc pc' hget hpc hpc' =>
    refine iff_of_true ⟨?_, fun _ => ⟨pc', mem_of_set hget, hpc'⟩, ?_⟩ trivial
    · exact Nat.le_trans (Nat.le_of_eq List.length_set) h.workers
    · exact fun hfreed => absurd (h.freed hfreed) (ne_nil_of_getElem? hget)
  | ready k found hget =>
    refine iff_of_true ⟨?_, NfcWorkerState.noConfusion, ?_⟩ trivial
    · exact Nat.le_trans (Nat.le_of_eq List.length_set) h.workers
    · exact fun hfreed => absurd (h.freed hfreed) (ne_nil_of_getElem? hget)
  | exit k found hget => exact iff_of_true (h.exit hget) trivial
  | task hs => exact h.task_iff hsettled hs

theorem lifeCycle_init (broken : Bool) : (machine broken).init.LifeCycle where
  workers := Nat.zero_le 1
  stop := by cases broken <;> exact NfcWorkerState.noConfusion
  freed _ := rfl

theorem settled_init (broken : Bool) : (machine broken).init.Settled where
  freed := Bool.noConfusion
  deleted := Bool.noConfusion
  queueDelete := TaskPc.noConfusion
  mode := by rintro mode (hmode | hmode) <;> cases hmode

end NfcApp

/-- In every run in which the steps of the task meet the condition, at most one worker thread
exists, a state that is Stop is left by one, and none exists any more when the worker is freed. From
every state of such a run the next step keeps this if and only if it meets the condition. -/
theorem nfc_worker_life_cycle {broken : Bool} {s : NfcApp}
    (hreach : (NfcApp.machine broken).ReachableWith NfcApp.Keeps s) :
    s.LifeCycle ∧ ∀ l s', (NfcApp.machine broken).next s l = some s' →
      (s'.LifeCycle ↔ s.Keeps l) := by
  have hinv : s.LifeCycle ∧ s.Settled := by
    refine hreach.invariant (P := fun s => s.LifeCycle ∧ s.Settled)
      ⟨NfcApp.lifeCycle_init broken, NfcApp.settled_init broken⟩ ?_
    rintro t l t' ⟨hlife, hsettled⟩ hkeeps hs
    have hnext := NfcApp.machine_next hs
    exact ⟨(hlife.next_iff hsettled hnext).mpr hkeeps, hsettled.next hnext⟩
  exact ⟨hinv.1, fun l s' hs => hinv.1.next_iff hinv.2 (NfcApp.machine_next hs)⟩

/-- Detect is chosen, and its worker thread runs. -/
theorem nfc_worker_life_cycle_detect : ∃ s : NfcApp, s.state = .poll ∧ s.workers = [.enter .poll] ∧
    s.LifeCycle := by
  have hmenu : (NfcApp.machine false).ReachableWith NfcApp.Keeps
      ⟨.ready, false, [.detect], false, .get, []⟩ :=
    Machine.ReachableWith.init.step (l := .menu 0) trivial rfl
  have hget : (NfcApp.machine false).ReachableWith NfcApp.Keeps
      ⟨.ready, false, [], false, .start .poll, []⟩ :=
    hmenu.step (l := .task) (NfcApp.keeps_task (by decide) (by decide) (by decide)) rfl
  have hstart : (NfcApp.machine false).ReachableWith NfcApp.Keeps
      ⟨.ready, false, [], false, .workerStart .poll, []⟩ :=
    hget.step (l := .task) (NfcApp.keeps_task (by decide) (by decide) (by decide)) rfl
  have hwrite : (NfcApp.machine false).ReachableWith NfcApp.Keeps
      ⟨.poll, false, [], false, .newThread, []⟩ :=
    hstart.step (l := .task) (NfcApp.keeps_task (by decide) (by decide) (by decide)) rfl
  have hnew : (NfcApp.machine false).ReachableWith NfcApp.Keeps
      ⟨.poll, false, [], false, .get,
        [.compare [.poll, .readEMV, .emulateEMV, .emulate, .field]]⟩ :=
    hwrite.step (l := .task) ⟨fun _ => rfl, fun ht => (by cases ht), fun ht => (by cases ht)⟩ rfl
  have hcompare : (NfcApp.machine false).ReachableWith NfcApp.Keeps
      ⟨.poll, false, [], false, .get, [.enter .poll]⟩ :=
    hnew.step (l := .worker 0 false) trivial rfl
  exact ⟨_, rfl, rfl, (nfc_worker_life_cycle hcompare).1⟩

/-- The app exits while the worker runs. -/
theorem nfc_worker_life_cycle_exit : ¬∀ s : NfcApp, (NfcApp.machine false).Reachable s →
    s.LifeCycle := by
  intro h
  have hrun : (NfcApp.machine false).exec (NfcApp.machine false).init
      [.menu 0, .task, .task, .task, .task, .viewExit, .task, .task] =
      some ⟨.poll, true, [], false, .queueDelete,
        [.compare [.poll, .readEMV, .emulateEMV, .emulate, .field]]⟩ := rfl
  have hfreed := (h _ (Machine.exec_reachable .init hrun)).freed (.inl rfl)
  cases hfreed

end FlipperZero.Nfc
