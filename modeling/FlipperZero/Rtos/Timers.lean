import Mathlib.Logic.Function.Basic
import Mathlib.Data.List.Basic

/-! # Software timers

Commands to a timer wait in a queue for the timer task. Between two drains of the queue
the task lets at most one active timer expire, and runs its callback itself. A timer that
the queue will leave stopped stays silent until it is started again, as soon as it has
been seen inactive once.
-/

namespace FlipperZero.Rtos

inductive TimerCommand where
  | changePeriod
  | stop
deriving DecidableEq, Repr

/-- What the timer task does; a callback carries its own progress. -/
inductive TimerTask (ι γ : Type) where
  | wait
  | drain
  | callback (timer : ι) (progress : γ)
deriving DecidableEq

structure Timers (ι γ : Type) where
  active : ι → Bool
  queue : List (ι × TimerCommand)
  task : TimerTask ι γ

def configTimerQueueLength : ℕ := 10

namespace Timers

variable {ι γ : Type}

def init : Timers ι γ := ⟨fun _ => false, [], .wait⟩

def setTask (t : Timers ι γ) (task : TimerTask ι γ) : Timers ι γ := { t with task := task }

/-- Send a command with `portMAX_DELAY`: `none` while the queue is full. -/
def post (t : Timers ι γ) (k : ι) (c : TimerCommand) : Option (Timers ι γ) :=
  if t.queue.length < configTimerQueueLength then some { t with queue := t.queue ++ [(k, c)] }
  else none

/-- The timer task goes to its queue, takes the next command or leaves the empty queue. -/
def turn [DecidableEq ι] (t : Timers ι γ) : Option (Timers ι γ) :=
  match t.task, t.queue with
  | .wait, _ => some (t.setTask .drain)
  | .drain, [] => some (t.setTask .wait)
  | .drain, (k, c) :: cs =>
    some { t with active := Function.update t.active k (c == .changePeriod), queue := cs }
  | .callback _ _, _ => none

def expire (t : Timers ι γ) (k : ι) (entry : γ) : Option (Timers ι γ) :=
  match t.task, t.active k with
  | .wait, true => some (t.setTask (.callback k entry))
  | _, _ => none

/-- A timer that runs once expires and is not active any more. -/
def expireOnce [DecidableEq ι] (t : Timers ι γ) (k : ι) (entry : γ) : Option (Timers ι γ) :=
  match t.task, t.active k with
  | .wait, true =>
    some { t with active := Function.update t.active k false, task := .callback k entry }
  | _, _ => none

def progress [DecidableEq ι] (t : Timers ι γ) (k : ι) : Option γ :=
  match t.task with
  | .callback k' c => if k' = k then some c else none
  | _ => none

/-- Whether the timer is active once the commands of the queue are processed. -/
def settles [DecidableEq ι] (t : Timers ι γ) (k : ι) : Bool :=
  t.queue.foldl (fun a c => if c.1 = k then c.2 == .changePeriod else a) (t.active k)

/-- The timer does not expire before it is started again. -/
structure Quiet [DecidableEq ι] (t : Timers ι γ) (k : ι) : Prop where
  settles : t.settles k = false
  drains : t.active k = true → t.task = .drain

/-- The callback that runs belongs to an active timer. -/
def Live (t : Timers ι γ) : Prop := ∀ k c, t.task = .callback k c → t.active k = true

/-- What steps on behalf of other timers keep of a timer. -/
structure Keeps [DecidableEq ι] (k : ι) (t t' : Timers ι γ) : Prop where
  settles : t'.settles k = t.settles k
  progress : t'.progress k = t.progress k
  quiet : t.Quiet k → t'.Quiet k

variable {t t' : Timers ι γ} {k k' : ι} {c : TimerCommand} {a b : γ}

theorem live_init : (init : Timers ι γ).Live := by
  intro k c h
  cases h

theorem post_eq_some (h : t.post k c = some t') : t' = { t with queue := t.queue ++ [(k, c)] } := by
  unfold post at h
  split at h
  · exact (Option.some.inj h).symm
  · cases h

theorem Live.post (hl : t.Live) (h : t.post k c = some t') : t'.Live := by
  obtain rfl := post_eq_some h
  exact hl

theorem expire_eq_some (h : t.expire k a = some t') :
    t.task = .wait ∧ t.active k = true ∧ t' = t.setTask (.callback k a) := by
  unfold expire at h
  split at h
  · next hw ha => exact ⟨hw, ha, (Option.some.inj h).symm⟩
  · cases h

theorem Live.expire (h : t.expire k a = some t') : t'.Live := by
  obtain ⟨-, ha, rfl⟩ := expire_eq_some h
  intro k' c hc
  obtain ⟨rfl, -⟩ := TimerTask.callback.inj hc
  exact ha

theorem Live.callback (hl : t.Live) (h : t.task = .callback k a) :
    (t.setTask (.callback k b)).Live := by
  intro k' c hc
  obtain ⟨rfl, -⟩ := TimerTask.callback.inj hc
  exact hl _ _ h

variable [DecidableEq ι]

theorem Keeps.refl (k : ι) (t : Timers ι γ) : Keeps k t t := ⟨rfl, rfl, id⟩

@[simp]
theorem settles_setTask (task : TimerTask ι γ) : (t.setTask task).settles k = t.settles k := rfl

@[simp]
theorem progress_setTask_callback : (t.setTask (.callback k a)).progress k = some a := by
  simp [progress, setTask]

@[simp]
theorem progress_setTask_drain : (t.setTask .drain).progress k = none := rfl

theorem progress_post (h : t.post k' c = some t') : t'.progress k = t.progress k := by
  unfold post at h
  split at h
  · exact Option.some.inj h ▸ rfl
  · cases h

theorem progress_turn (h : t.turn = some t') :
    t.progress k = none ∧ t'.progress k = none := by
  unfold turn at h
  split at h
  · next ht => exact ⟨by simp [progress, ht], Option.some.inj h ▸ rfl⟩
  · next ht _ => exact ⟨by simp [progress, ht], Option.some.inj h ▸ rfl⟩
  · next ht _ =>
    refine ⟨by simp [progress, ht], ?_⟩
    rw [← Option.some.inj h]
    simp [progress, ht]
  · cases h

theorem progress_expireOnce (h : t.expireOnce k a = some t') :
    t.progress k = none ∧ t'.progress k = some a := by
  unfold expireOnce at h
  split at h
  · next ht _ =>
    refine ⟨by simp [progress, ht], ?_⟩
    rw [← Option.some.inj h]
    simp [progress]
  · cases h

theorem quiet_init (k : ι) : (init : Timers ι γ).Quiet k :=
  ⟨rfl, fun h => absurd h (by decide : ¬false = true)⟩

theorem progress_eq_some : t.progress k = some a ↔ t.task = .callback k a := by
  unfold progress
  constructor
  · intro h
    split at h
    · next k' c hc =>
      split at h
      · next hk =>
        obtain rfl := Option.some.inj h
        rw [hc, hk]
      · cases h
    · cases h
  · intro h
    simp [h]

theorem Quiet.progress (h : t.Quiet k) (hl : t.Live) : t.progress k = none := by
  rcases hp : t.progress k with _ | c
  · rfl
  · have hc := progress_eq_some.mp hp
    have hd := h.drains (hl k c hc)
    rw [hc] at hd
    cases hd

theorem settles_post (h : t.post k c = some t') : t'.settles k = (c == .changePeriod) := by
  obtain rfl := post_eq_some h
  simp [settles]

theorem settles_post_of_ne (h : t.post k' c = some t') (hk : k' ≠ k) :
    t'.settles k = t.settles k := by
  obtain rfl := post_eq_some h
  simp [settles, hk]

theorem keeps_post (h : t.post k' c = some t') (hk : k' ≠ k) : Keeps k t t' := by
  have hs := settles_post_of_ne h hk
  obtain rfl := post_eq_some h
  exact ⟨hs, rfl, fun hq => ⟨hs.trans hq.settles, hq.drains⟩⟩

theorem Live.turn (h : t.turn = some t') : t'.Live := by
  unfold Timers.turn at h
  split at h <;> cases h
  · intro k c hc
    cases hc
  · intro k c hc
    cases hc
  · next hd _ =>
    intro k c hc
    rw [hd] at hc
    cases hc

theorem keeps_turn (h : t.turn = some t') : Keeps k t t' := by
  unfold Timers.turn at h
  split at h <;> cases h
  · next hw =>
    refine ⟨rfl, by simp [Timers.progress, setTask, hw], fun hq => ⟨hq.settles, fun _ => rfl⟩⟩
  · next hd hq =>
    refine ⟨rfl, by simp [Timers.progress, setTask, hd], fun hquiet => ⟨hquiet.settles, fun ha => ?_⟩⟩
    have hs := hquiet.settles
    simp only [settles, hq, List.foldl_nil] at hs
    exact absurd ha (hs ▸ Bool.false_ne_true)
  · next k' c cs hd hq =>
    have hs : ∀ b : Bool, cs.foldl (fun a c => if c.1 = k then c.2 == .changePeriod else a)
        (Function.update t.active k' b k) = cs.foldl
        (fun a c => if c.1 = k then c.2 == .changePeriod else a) (if k' = k then b else t.active k) := by
      intro b
      by_cases hk : k' = k
      · subst hk
        simp
      · rw [Function.update_of_ne (Ne.symm hk), if_neg hk]
    have hsettles : settles { t with
        active := Function.update t.active k' (c == .changePeriod), queue := cs } k = t.settles k := by
      simp only [settles, hs, hq, List.foldl_cons]
    exact ⟨hsettles, rfl, fun hquiet => ⟨hsettles.trans hquiet.settles, fun _ => hd⟩⟩

theorem Quiet.not_expire (hq : t.Quiet k) : t.expire k a = none := by
  rcases h : t.expire k a with _ | t'
  · rfl
  · obtain ⟨hw, ha, -⟩ := expire_eq_some h
    have hd := hq.drains ha
    rw [hw] at hd
    cases hd

theorem keeps_expire (h : t.expire k' a = some t') (hk : k' ≠ k) : Keeps k t t' := by
  obtain ⟨hw, -, rfl⟩ := expire_eq_some h
  refine ⟨rfl, by simp [Timers.progress, setTask, hw, hk], fun hq => ⟨hq.settles, fun ha => ?_⟩⟩
  have hd := hq.drains ha
  rw [hw] at hd
  cases hd

theorem keeps_callback (h : t.task = .callback k' a) (hk : k' ≠ k)
    (h' : t' = t.setTask (.callback k' b) ∨ t' = t.setTask .drain) :
    Keeps k t t' := by
  have hq : t.Quiet k → t.active k = false := by
    intro hq
    rcases ha : t.active k
    · rfl
    · have hd := hq.drains ha
      rw [h] at hd
      cases hd
  rcases h' with rfl | rfl
  · exact ⟨rfl, by simp [Timers.progress, setTask, h, hk],
      fun hquiet => ⟨hquiet.settles, fun ha => absurd ha (by simp [setTask, hq hquiet])⟩⟩
  · exact ⟨rfl, by simp [Timers.progress, setTask, h, hk], fun hquiet => ⟨hquiet.settles, fun _ => rfl⟩⟩

theorem quiet_of_inactive (hs : t.settles k = false) (ha : t.active k = false) : t.Quiet k :=
  ⟨hs, fun h => absurd h (by simp [ha])⟩

end Timers

end FlipperZero.Rtos
