import FlipperZero.Input.Task
import FlipperZero.Rtos.ThreadFlags

/-! # Edges at the pins

A pin changes its level at an edge, whose interrupt sets a flag of the input thread. The
thread takes the flag before it samples the pins and waits for it when no pin was
changing, so the pins are as they were sampled as long as the flag is not set.
-/

namespace FlipperZero.Input

open Lib Rtos

variable {n : ℕ}

def inputThreadFlagIsr : BitVec 32 := 0x00000001

/-- The input task with the pins that it reads. -/
structure EdgeState (n : ℕ) where
  input : InputState n
  /-- What `GPIO_Read` returns for each pin: whether the key is pressed. -/
  levels : Fin n → Bool
  flags : ThreadFlags Unit

inductive EdgeLabel (n : ℕ) where
  /-- The level of a pin changes and `input_isr` runs. -/
  | edge (key : Fin n)
  | task
  | delay
  | wait
  | timers
  | expire (key : Fin n)
  | callback

def inputIsr (flags : ThreadFlags Unit) : ThreadFlags Unit :=
  osThreadFlagsSet flags () inputThreadFlagIsr

namespace EdgeState

/-- A step of the loop before its end; the level is read from the pin. -/
def task (s : EdgeState n) : Option (InputState n) :=
  match s.input.pc with
  | .read i => if h : i < n then s.input.read (s.levels ⟨i, h⟩) else s.input.taskStep
  | _ => s.input.taskStep

def next (s : EdgeState n) : EdgeLabel n → Option (EdgeState n)
  | .edge k => some
    { s with levels := Function.update s.levels k (!s.levels k), flags := inputIsr s.flags }
  | .task => s.task.map fun input => { s with input := input }
  | .delay =>
    if s.input.isChanging then s.input.wake.map fun input => { s with input := input } else none
  | .wait =>
    if s.input.isChanging then none
    else s.input.wake.bind fun input =>
      (osThreadFlagsWait s.flags () inputThreadFlagIsr).map fun flags =>
        { s with input := input, flags := flags }
  | .timers => s.input.timers.turn.map fun t => { s with input := { s.input with timers := t } }
  | .expire k => (s.input.timers.expire k .entered).map fun t =>
    { s with input := { s.input with timers := t } }
  | .callback => s.input.inputPressTimerCallback.map fun input => { s with input := input }

/-- The thread is blocked in `osThreadFlagsWait`. -/
structure Blocked (s : EdgeState n) : Prop where
  pc : s.input.pc = .sleep
  steady : s.input.isChanging = false
  flag : ¬ Pending s.flags () inputThreadFlagIsr

end EdgeState

/-- The input task from the levels that it read at its start, with the levels and flags that
edges have left since. -/
def inputEdges (read levels : Fin n → Bool) (flags : ThreadFlags Unit) :
    Machine (EdgeState n) (EdgeLabel n) where
  init := ⟨(inputTask read).init, levels, flags⟩
  next := EdgeState.next

/-- The last press or release that was published for a key. -/
def InputState.lastChange (s : InputState n) (k : Fin n) : Option InputType :=
  ((s.eventsOf k).filter fun type => type = .press ∨ type = .release).getLast?

def TaskPc.Past (k : Fin n) : TaskPc n → Prop
  | .read i => k < i
  | .notify k' _ | .timerStart k' | .timerStop k' | .timerStopWait k' | .short k' | .reset k' =>
    k ≤ k'
  | .sleep => True

/-- The callback of a press timer publishes no press and no release. -/
def Late (t : Timers (Fin n) PressTimerCallback) : Prop :=
  ∀ k type, t.task = .callback k (.notify type) → type ≠ .press ∧ type ≠ .release

/-- The states of the sampled pins are their levels unless the thread will sample again, and the
last publication for a key is its state. -/
structure Fresh (s : EdgeState n) : Prop where
  sampled : ∀ k, s.input.pc.Past k → Pending s.flags () inputThreadFlagIsr ∨
    s.input.isChanging = true ∨ (s.input.pins k).state = s.levels k
  notifying : ∀ k state, s.input.pc = .notify k state → (s.input.pins k).state = state
  published : ∀ k, (∀ state, s.input.pc ≠ .notify k state) →
    ∀ type, s.input.lastChange k = some type → type = changeType (s.input.pins k).state
  late : Late s.input.timers

variable {s s' : InputState n} {e e' : EdgeState n} {k k' : Fin n} {type : InputType}

theorem lastChange_notifyPubsub_self (h : type = .press ∨ type = .release) :
    (s.notifyPubsub k type).lastChange k = some type := by
  simp [InputState.lastChange, InputState.eventsOf, InputState.notifyPubsub, List.filter_append, h]

theorem lastChange_notifyPubsub (h : k' ≠ k ∨ type ≠ .press ∧ type ≠ .release) :
    (s.notifyPubsub k' type).lastChange k = s.lastChange k := by
  unfold InputState.lastChange InputState.eventsOf InputState.notifyPubsub
  rw [List.filter_append, List.map_append, List.filter_append]
  rcases h with h | ⟨hpress, hrelease⟩
  · simp [h]
  · by_cases hk : k' = k <;> simp [hk, hpress, hrelease]

/-- Steps that sample no pin keep the states and publish what is to be notified. -/
structure Proceeds (s s' : InputState n) : Prop where
  state : ∀ k, (s'.pins k).state = (s.pins k).state
  changing : s'.isChanging = s.isChanging
  past : ∀ k, s'.pc.Past k → s.pc.Past k
  notifying : ∀ k state, s'.pc = .notify k state → s.pc = .notify k state
  published : ∀ k, (∃ state, s.pc = .notify k state ∧
      s'.lastChange k = some (changeType state)) ∨ s'.lastChange k = s.lastChange k ∧
    ((∀ state, s'.pc ≠ .notify k state) → ∀ state, s.pc ≠ .notify k state)
  late : Late s.timers → Late s'.timers

theorem Proceeds.fresh {levels : Fin n → Bool} {flags flags' : ThreadFlags Unit}
    (h : Proceeds s s') (hs : Fresh ⟨s, levels, flags⟩)
    (hflags : Pending flags () inputThreadFlagIsr → Pending flags' () inputThreadFlagIsr) :
    Fresh ⟨s', levels, flags'⟩ := by
  constructor
  · intro k hpast
    rcases hs.sampled k (h.past k hpast) with hflag | hchanging | hstate
    · exact .inl (hflags hflag)
    · exact .inr (.inl (h.changing.trans hchanging))
    · exact .inr (.inr ((h.state k).trans hstate))
  · intro k state hpc
    exact (h.state k).trans (hs.notifying k state (h.notifying k state hpc))
  · intro k hpc type htype
    rw [h.state k]
    rcases h.published k with ⟨state, hnotify, hlast⟩ | ⟨hlast, hquiet⟩
    · obtain rfl := Option.some.inj (hlast.symm.trans htype)
      rw [hs.notifying k state hnotify]
    · exact hs.published k (hquiet hpc) type (hlast ▸ htype)
  · exact h.late hs.late

theorem proceeds_of_pc (hpins : ∀ k, (s'.pins k).state = (s.pins k).state)
    (hchanging : s'.isChanging = s.isChanging) (hpast : ∀ k, s'.pc.Past k → s.pc.Past k)
    (hquiet : ∀ k state, s.pc ≠ .notify k state) (hquiet' : ∀ k state, s'.pc ≠ .notify k state)
    (hlast : ∀ k, s'.lastChange k = s.lastChange k) (htask : s'.timers.task = s.timers.task) :
    Proceeds s s' where
  state := hpins
  changing := hchanging
  past := hpast
  notifying k state hpc := absurd hpc (hquiet' k state)
  published k := .inr ⟨hlast k, fun _ => hquiet k⟩
  late hlate k type hc := hlate k type (htask ▸ hc)

theorem setPin_pressCounter (pressCounter : ℕ) (k' : Fin n) :
    ((s.setPin k { s.pins k with pressCounter := pressCounter }).pins k').state =
      (s.pins k').state :=
  InputState.setPin_state (p := { s.pins k with pressCounter := pressCounter }) rfl k'

theorem task_of_post {t t' : Timers (Fin n) PressTimerCallback} {c : TimerCommand}
    (h : t.post k c = some t') : t'.task = t.task := by
  obtain rfl := Timers.post_eq_some h
  rfl

theorem proceeds_taskStep (h : s.taskStep = some s') : Proceeds s s' := by
  unfold InputState.taskStep at h
  split at h
  case h_1 i hpc =>
    split at h
    · cases h
    · next hi =>
      obtain rfl := Option.some.inj h
      refine proceeds_of_pc (fun _ => rfl) rfl (fun j _ => ?_) (by simp [hpc]) nofun (fun _ => rfl) rfl
      rw [hpc]
      exact Nat.lt_of_lt_of_le j.isLt (Nat.le_of_not_lt hi)
  case h_2 k state hpc =>
    obtain rfl := Option.some.inj h
    refine ⟨fun _ => rfl, rfl, fun j hj => ?_, fun j st hj => ?_, fun j => ?_, id⟩
    · rw [hpc]
      cases state <;> exact hj
    · cases state <;> cases hj
    · by_cases hj : k = j
      · subst hj
        refine .inl ⟨state, hpc, ?_⟩
        apply lastChange_notifyPubsub_self
        cases state <;> simp [changeType]
      · refine .inr ⟨lastChange_notifyPubsub (.inl hj), fun _ st hst => ?_⟩
        rw [hpc] at hst
        exact hj (TaskPc.notify.inj hst).1
  case h_3 k hpc =>
    obtain ⟨t, hpost, rfl⟩ := Option.map_eq_some_iff.mp h
    refine proceeds_of_pc (fun _ => rfl) rfl (fun j hj => ?_) (by simp [hpc]) nofun (fun _ => rfl)
      (task_of_post hpost)
    rw [hpc]
    exact Nat.lt_succ_iff.mp hj
  case h_4 k hpc =>
    obtain ⟨t, hpost, rfl⟩ := Option.map_eq_some_iff.mp h
    refine proceeds_of_pc (fun _ => rfl) rfl (fun j hj => ?_) (by simp [hpc]) nofun (fun _ => rfl)
      (task_of_post hpost)
    rw [hpc]
    exact hj
  case h_5 k hpc =>
    split at h
    · obtain rfl := Option.some.inj h
      exact proceeds_of_pc (fun _ => rfl) rfl (fun _ => id) (by simp [hpc]) (by simp [hpc])
        (fun _ => rfl) rfl
    · obtain rfl := Option.some.inj h
      refine proceeds_of_pc (fun _ => rfl) rfl (fun j hj => ?_) (by simp [hpc]) nofun (fun _ => rfl) rfl
      rw [hpc]
      exact hj
  case h_6 k hpc =>
    split at h
    · obtain rfl := Option.some.inj h
      refine proceeds_of_pc (fun _ => rfl) rfl (fun j hj => ?_) (by simp [hpc]) nofun
        (fun _ => lastChange_notifyPubsub (.inr (by decide))) rfl
      rw [hpc]
      exact hj
    · obtain rfl := Option.some.inj h
      refine proceeds_of_pc (fun _ => rfl) rfl (fun j hj => ?_) (by simp [hpc]) nofun (fun _ => rfl) rfl
      rw [hpc]
      exact hj
  case h_7 k hpc =>
    obtain rfl := Option.some.inj h
    refine proceeds_of_pc (setPin_pressCounter _) rfl (fun j hj => ?_) (by simp [hpc]) nofun (fun _ => rfl) rfl
    rw [hpc]
    exact Nat.lt_succ_iff.mp hj
  case h_8 hpc => cases h

theorem proceeds_of_same (hpins : ∀ k, (s'.pins k).state = (s.pins k).state)
    (hchanging : s'.isChanging = s.isChanging) (hpc : s'.pc = s.pc)
    (hlast : ∀ k, s'.lastChange k = s.lastChange k) (hlate : Late s.timers → Late s'.timers) :
    Proceeds s s' where
  state := hpins
  changing := hchanging
  past _ hk := hpc ▸ hk
  notifying _ _ hk := hpc ▸ hk
  published k := .inr ⟨hlast k, fun h => hpc ▸ h⟩
  late := hlate

theorem late_notify {t : Timers (Fin n) PressTimerCallback} (h : type ≠ .press ∧ type ≠ .release) :
    Late (t.setTask (.callback k (.notify type))) := by
  rintro k' type' ⟨⟩
  exact h

theorem proceeds_callback (h : s.inputPressTimerCallback = some s') (hlate : Late s.timers) :
    Proceeds s s' := by
  unfold InputState.inputPressTimerCallback at h
  split at h
  case h_1 k hc =>
    obtain rfl := Option.some.inj h
    exact proceeds_of_same (setPin_pressCounter _) rfl rfl (fun _ => rfl) fun _ => nofun
  case h_2 k hc =>
    split at h
    · obtain rfl := Option.some.inj h
      exact proceeds_of_same (fun _ => rfl) rfl rfl (fun _ => rfl) fun _ => late_notify (by decide)
    · split at h
      · obtain rfl := Option.some.inj h
        exact proceeds_of_same (setPin_pressCounter _) rfl rfl (fun _ => rfl)
          fun _ => late_notify (by decide)
      · obtain rfl := Option.some.inj h
        exact proceeds_of_same (fun _ => rfl) rfl rfl (fun _ => rfl) fun _ => nofun
  case h_3 k type hc =>
    obtain rfl := Option.some.inj h
    exact proceeds_of_same (fun _ => rfl) rfl rfl
      (fun k' => lastChange_notifyPubsub (.inr (hlate k type hc))) fun _ => nofun
  case h_4 => cases h

theorem proceeds_timers {t : Timers (Fin n) PressTimerCallback}
    (h : Late s.timers → Late t) : Proceeds s { s with timers := t } :=
  proceeds_of_same (fun _ => rfl) rfl rfl (fun _ => rfl) h

theorem late_turn {t t' : Timers (Fin n) PressTimerCallback} (h : t.turn = some t') : Late t' := by
  unfold Timers.turn at h
  split at h
  · obtain rfl := Option.some.inj h
    exact nofun
  · obtain rfl := Option.some.inj h
    exact nofun
  · next hdrain _ =>
    obtain rfl := Option.some.inj h
    intro k type hc
    rw [hdrain] at hc
    cases hc
  · cases h

theorem late_expire {t t' : Timers (Fin n) PressTimerCallback}
    (h : t.expire k .entered = some t') : Late t' := by
  obtain ⟨-, -, rfl⟩ := Timers.expire_eq_some h
  exact nofun

theorem sample_cases (p : InputPinState) (level : Bool) :
    (p.sample level).2 = .changing ∧ (p.sample level).1.state = p.state ∨
    (p.sample level).2 = .changed ∧ (p.sample level).1.state = level ∨
    (p.sample level).2 = .same ∧ (p.sample level).1.state = p.state ∧ p.state = level := by
  unfold InputPinState.sample
  split
  · exact .inl ⟨rfl, rfl⟩
  · split
    · exact .inr (.inl ⟨rfl, rfl⟩)
    · next hsame => exact .inr (.inr ⟨rfl, rfl, not_not.mp hsame⟩)

theorem read_cases {level : Bool} (hpc : s.pc = .read k) (h : s.read level = some s') :
    ∃ p, (s' = { s.setPin k p with isChanging := true, pc := .read (k + 1) } ∧
        p.state = (s.pins k).state) ∨
      (s' = (s.setPin k p).goto (.notify k level) ∧ p.state = level) ∨
      (s' = (s.setPin k p).goto (.read (k + 1)) ∧ p.state = (s.pins k).state ∧
        (s.pins k).state = level) := by
  simp only [InputState.read, hpc, k.isLt, dif_pos, Fin.eta] at h
  have hcases := sample_cases (s.pins k) level
  generalize (s.pins k).sample level = sampled at h hcases
  obtain ⟨p, result⟩ := sampled
  refine ⟨p, ?_⟩
  rcases hcases with ⟨hresult, hstate⟩ | ⟨hresult, hstate⟩ | ⟨hresult, hstate, hlevel⟩
  · subst hresult
    exact .inl ⟨(Option.some.inj h).symm, hstate⟩
  · subst hresult
    exact .inr (.inl ⟨(Option.some.inj h).symm, hstate⟩)
  · subst hresult
    exact .inr (.inr ⟨(Option.some.inj h).symm, hstate, hlevel⟩)

theorem fresh_read {levels : Fin n → Bool} {flags : ThreadFlags Unit}
    (hs : Fresh ⟨s, levels, flags⟩) (hpc : s.pc = .read k) (h : s.read (levels k) = some s') :
    Fresh ⟨s', levels, flags⟩ := by
  have hpublished := fun j => hs.published j (by simp [hpc])
  have hsampled : ∀ p : InputPinState, p.state = levels k → ∀ j : Fin n, (j : ℕ) < k + 1 →
      Pending flags () inputThreadFlagIsr ∨ s.isChanging = true ∨
        ((s.setPin k p).pins j).state = levels j := by
    intro p hp j hj
    by_cases hne : j = k
    · subst hne
      rw [InputState.setPin_self]
      exact .inr (.inr hp)
    · rw [InputState.setPin_of_ne p hne]
      apply hs.sampled
      rw [hpc]
      exact Nat.lt_of_le_of_ne (Nat.lt_succ_iff.mp hj) fun he => hne (Fin.ext he)
  obtain ⟨p, ⟨rfl, hp⟩ | ⟨rfl, hp⟩ | ⟨rfl, hp, hlevel⟩⟩ := read_cases hpc h
  · refine ⟨fun _ _ => .inr (.inl rfl), nofun, fun j _ type htype => ?_, hs.late⟩
    exact (hpublished j type htype).trans (congrArg changeType (InputState.setPin_state hp j).symm)
  · refine ⟨fun j hj => hsampled p hp j (Nat.lt_succ_of_le hj), ?_, fun j hj type htype => ?_,
      hs.late⟩
    · rintro j state ⟨⟩
      exact (congrArg InputPinState.state (InputState.setPin_self p)).trans hp
    · have hne : j ≠ k := by
        rintro rfl
        exact hj _ rfl
      exact (hpublished j type htype).trans
        (congrArg (fun p => changeType p.state) (InputState.setPin_of_ne p hne).symm)
  · refine ⟨hsampled p (hp.trans hlevel), nofun, fun j _ type htype => ?_, hs.late⟩
    exact (hpublished j type htype).trans (congrArg changeType (InputState.setPin_state hp j).symm)

theorem fresh_wake {levels : Fin n → Bool} {flags flags' : ThreadFlags Unit}
    (hs : Fresh ⟨s, levels, flags⟩) (h : s.wake = some s') : Fresh ⟨s', levels, flags'⟩ := by
  unfold InputState.wake at h
  split at h
  · next hpc =>
    obtain rfl := Option.some.inj h
    refine ⟨fun k hk => absurd hk (Nat.not_lt_zero _), nofun, fun k _ => ?_, hs.late⟩
    exact hs.published k (by simp [hpc])
  · cases h

theorem fresh_edge (h : Fresh e) (k : Fin n) :
    Fresh { e with levels := Function.update e.levels k (!e.levels k), flags := inputIsr e.flags } :=
  ⟨fun _ _ => .inl (pending_set_self (by decide)), h.notifying, h.published, h.late⟩

theorem fresh_next {l : EdgeLabel n} (h : Fresh e) (hs : e.next l = some e') : Fresh e' := by
  cases l with
  | edge k =>
    obtain rfl := Option.some.inj hs
    exact fresh_edge h k
  | task =>
    obtain ⟨input, htask, rfl⟩ := Option.map_eq_some_iff.mp hs
    unfold EdgeState.task at htask
    split at htask
    · next i hpc =>
      split at htask
      · next hi => exact fresh_read (k := ⟨i, hi⟩) h hpc htask
      · exact (proceeds_taskStep htask).fresh h id
    · exact (proceeds_taskStep htask).fresh h id
  | delay =>
    simp only [EdgeState.next] at hs
    split at hs
    · obtain ⟨input, hwake, rfl⟩ := Option.map_eq_some_iff.mp hs
      exact fresh_wake h hwake
    · cases hs
  | wait =>
    simp only [EdgeState.next] at hs
    split at hs
    · cases hs
    · obtain ⟨input, hwake, hs⟩ := Option.bind_eq_some_iff.mp hs
      obtain ⟨flags, -, rfl⟩ := Option.map_eq_some_iff.mp hs
      exact fresh_wake h hwake
  | timers =>
    obtain ⟨t, hturn, rfl⟩ := Option.map_eq_some_iff.mp hs
    exact (proceeds_timers fun _ => late_turn hturn).fresh h id
  | expire k =>
    obtain ⟨t, hexpire, rfl⟩ := Option.map_eq_some_iff.mp hs
    exact (proceeds_timers fun _ => late_expire hexpire).fresh h id
  | callback =>
    obtain ⟨input, hcallback, rfl⟩ := Option.map_eq_some_iff.mp hs
    exact (proceeds_callback hcallback h.late).fresh h id

theorem fresh_init (read levels : Fin n → Bool) (flags : ThreadFlags Unit) :
    Fresh (inputEdges read levels flags).init :=
  ⟨fun _ hk => absurd hk (Nat.not_lt_zero _), nofun, fun _ _ => nofun, nofun⟩

/-- No key is stuck: while the input thread is blocked, the states are the levels and the last
publications say so. -/
theorem no_stuck_key (read levels : Fin n → Bool) (flags : ThreadFlags Unit)
    (h : (inputEdges read levels flags).Reachable e) (hblocked : e.Blocked) (k : Fin n) :
    (e.input.pins k).state = e.levels k ∧
    ∀ type, e.input.lastChange k = some type → type = changeType (e.levels k) := by
  have hfresh : Fresh e := by
    apply h.invariant (fresh_init read levels flags)
    intro e l e' he hs
    exact fresh_next he hs
  have hstate : (e.input.pins k).state = e.levels k := by
    rcases hfresh.sampled k (by rw [hblocked.pc]; trivial) with hflag | hchanging | hstate
    · exact absurd hflag hblocked.flag
    · simp [hblocked.steady] at hchanging
    · exact hstate
  refine ⟨hstate, fun type htype => ?_⟩
  rw [hfresh.published k (by simp [hblocked.pc]) type htype, hstate]

/-- The only key is pressed after its pin has settled, and the thread waits again. -/
theorem no_stuck_key_pressed : ∃ e : EdgeState 1,
    (inputEdges (fun _ => false) (fun _ => false) fun _ => 0).Reachable e ∧ e.Blocked ∧
    e.input.lastChange 0 = some .press ∧
    ((e.input.pins 0).state = e.levels 0 ∧
      ∀ type, e.input.lastChange 0 = some type → type = changeType (e.levels 0)) := by
  have hrun : ∃ e, (inputEdges (n := 1) (fun _ => false) (fun _ => false) fun _ => 0).exec
      (inputEdges (fun _ => false) (fun _ => false) fun _ => 0).init
      ((List.replicate 10 [EdgeLabel.task, .task, .delay]).flatten ++
        [EdgeLabel.task, .task, .edge 0, .wait, .task, .task, .task, .task]) = some e ∧
      e.input.pc = .sleep ∧ e.input.isChanging = false ∧ e.flags () = 0 ∧
      e.input.lastChange 0 = some .press := ⟨_, rfl, rfl, rfl, rfl, rfl⟩
  obtain ⟨e, hexec, hpc, hsteady, hflags, hlast⟩ := hrun
  have hreach := Machine.exec_reachable .init hexec
  have hblocked : e.Blocked := ⟨hpc, hsteady, by simp [Pending, hflags]⟩
  exact ⟨e, hreach, hblocked, hlast, no_stuck_key _ _ _ hreach hblocked 0⟩

end FlipperZero.Input
