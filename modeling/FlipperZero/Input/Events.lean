import FlipperZero.Input.Task

/-! # The events of a key

The events of one key are words: a press, perhaps a long press with its repeats, a release,
and a short press where there was no long one. The callback of the press timer breaks a
word when it still publishes after the release, before the task has stopped the timer.
-/

namespace FlipperZero.Input

open Lib Rtos

inductive Word : List InputType → Prop
  | short : Word [.press, .release, .short]
  | long (m : ℕ) : Word (InputType.press :: .long :: List.replicate m InputType.repeated ++ [InputType.release])

def Words (l : List InputType) : Prop := ∃ ws : List (List InputType), (∀ w ∈ ws, Word w) ∧ l = ws.flatten

def Grammatical (l : List InputType) : Prop := ∃ l' v u, Words l' ∧ Word (v ++ u) ∧ l = l' ++ v

/-- The part of a word before the release, without or with a long press. -/
inductive Held : Bool → List InputType → Prop
  | tap : Held false [.press]
  | long (m : ℕ) : Held true (.press :: .long :: List.replicate m .repeated)

variable {l v w : List InputType} {b : Bool}

theorem words_nil : Words [] := ⟨[], by simp, rfl⟩

theorem Words.append (h : Words l) (hw : Word w) : Words (l ++ w) := by
  obtain ⟨ws, hws, rfl⟩ := h
  refine ⟨ws ++ [w], ?_, by simp⟩
  intro x hx
  rcases List.mem_append.mp hx with hx | hx
  · exact hws x hx
  · exact List.mem_singleton.mp hx ▸ hw

theorem Words.grammatical (h : Words l) : Grammatical l := ⟨l, [], _, h, .short, by simp⟩

theorem Held.grammatical (hv : Held b v) (h : Words l) : Grammatical (l ++ v) := by
  cases hv with
  | tap => exact ⟨l, _, [.release, .short], h, .short, rfl⟩
  | long m => exact ⟨l, _, [.release], h, .long m, rfl⟩

theorem Held.released (hv : Held b v) (h : Words l) : Grammatical (l ++ (v ++ [InputType.release])) := by
  cases hv with
  | tap => exact ⟨l, _, [.short], h, .short, rfl⟩
  | long m => exact ⟨l, _, [], h, by simpa using Word.long m, rfl⟩

theorem Held.long_press (hv : Held false v) : Held true (v ++ [InputType.long]) := by
  cases hv
  exact .long 0

theorem Held.repeat_press (hv : Held true v) : Held true (v ++ [InputType.repeated]) := by
  cases hv with
  | long m =>
    have hm := Held.long (m + 1)
    rwa [List.replicate_succ'] at hm

theorem Held.word (hv : Held true v) : Word (v ++ [InputType.release]) := by
  cases hv with
  | long m => exact .long m

/-- How the press counter counts, next to the callback that is under way and to whether the long
press was published. -/
inductive Counts : Option PressTimerCallback → ℕ → Bool → Prop
  | idle {c : ℕ} : c < inputLongPressCounts → Counts none c false
  | idleLong : Counts none inputLongPressCounts true
  | entered {c : ℕ} : c < inputLongPressCounts → Counts (some .entered) c false
  | enteredLong : Counts (some .entered) inputLongPressCounts true
  | counted {c : ℕ} : c ≤ inputLongPressCounts → Counts (some .counted) c false
  | countedLong : Counts (some .counted) (inputLongPressCounts + 1) true
  | notifyLong : Counts (some (.notify .long)) inputLongPressCounts false
  | notifyRepeated : Counts (some (.notify .repeated)) inputLongPressCounts true

def WillNotify : Option PressTimerCallback → ℕ → Prop
  | none, _ => False
  | some .entered, c => inputLongPressCounts ≤ c + 1
  | some .counted, c => inputLongPressCounts ≤ c
  | some (.notify _), _ => True

inductive Phase where
  | up
  | starting
  | down
  | released
  | stopping
  | stopped
  | resetting
deriving DecidableEq

variable {n : ℕ}

/-- The key that the task handles, with the state it handles. -/
def TaskPc.handles : TaskPc n → Option (Fin n × Bool)
  | .notify k state => some (k, state)
  | .timerStart k => some (k, true)
  | .timerStop k | .timerStopWait k | .short k | .reset k => some (k, false)
  | .read _ | .sleep => none

def phaseOf (state : Bool) : Phase := if state then .down else .up

def TaskPc.phase (pc : TaskPc n) (k : Fin n) (state : Bool) : Phase :=
  match pc with
  | .notify k' state' => if k' = k then phaseOf !state' else phaseOf state
  | .timerStart k' => if k' = k then .starting else phaseOf state
  | .timerStop k' => if k' = k then .released else phaseOf state
  | .timerStopWait k' => if k' = k then .stopping else phaseOf state
  | .short k' => if k' = k then .stopped else phaseOf state
  | .reset k' => if k' = k then .resetting else phaseOf state
  | .read _ | .sleep => phaseOf state

/-- What holds of a key with its press counter, its timer and its events. -/
inductive KeyInv (k : Fin n) (t : Timers (Fin n) PressTimerCallback) :
    ℕ → List InputType → Phase → Prop
  | up {l : List InputType} : Words l → t.Quiet k → KeyInv k t 0 l .up
  | starting {l : List InputType} : Words l → t.Quiet k → KeyInv k t 0 (l ++ [InputType.press]) .starting
  | down {c : ℕ} {l v : List InputType} {b : Bool} : Words l → Held b v →
      Counts (t.progress k) c b → t.settles k = true → KeyInv k t c (l ++ v) .down
  | released {c : ℕ} {l v : List InputType} {b : Bool} : Words l → Held b v →
      Counts (t.progress k) c b → ¬WillNotify (t.progress k) c → t.settles k = true →
      KeyInv k t c (l ++ (v ++ [InputType.release])) .released
  | stopping {c : ℕ} {l v : List InputType} {b : Bool} : Words l → Held b v →
      Counts (t.progress k) c b → ¬WillNotify (t.progress k) c → t.settles k = false →
      KeyInv k t c (l ++ (v ++ [InputType.release])) .stopping
  | stopped {c : ℕ} {l : List InputType} : Words l → c < inputLongPressCounts → t.Quiet k →
      KeyInv k t c (l ++ [InputType.press, .release]) .stopped
  | stoppedLong {c : ℕ} {l : List InputType} : Words l → inputLongPressCounts ≤ c → t.Quiet k →
      KeyInv k t c l .stopped
  | resetting {c : ℕ} {l : List InputType} : Words l → t.Quiet k → KeyInv k t c l .resetting

variable {k k' : Fin n} {t t' : Timers (Fin n) PressTimerCallback} {c : ℕ} {phase : Phase}

theorem KeyInv.grammatical (h : KeyInv k t c l phase) : Grammatical l := by
  cases h with
  | up hl | resetting hl => exact hl.grammatical
  | stoppedLong hl => exact hl.grammatical
  | starting hl => exact Held.tap.grammatical hl
  | down hl hv => exact hv.grammatical hl
  | released hl hv | stopping hl hv => exact hv.released hl
  | stopped hl => exact Held.tap.released hl

theorem KeyInv.keeps (h : KeyInv k t c l phase) (hk : Timers.Keeps k t t') :
    KeyInv k t' c l phase := by
  cases h with
  | up hl hq => exact .up hl (hk.quiet hq)
  | starting hl hq => exact .starting hl (hk.quiet hq)
  | down hl hv hc hs => exact .down hl hv (hk.progress.symm ▸ hc) (hk.settles.trans hs)
  | released hl hv hc hn hs =>
    exact .released hl hv (hk.progress.symm ▸ hc) (hk.progress.symm ▸ hn) (hk.settles.trans hs)
  | stopping hl hv hc hn hs =>
    exact .stopping hl hv (hk.progress.symm ▸ hc) (hk.progress.symm ▸ hn) (hk.settles.trans hs)
  | stopped hl hc hq => exact .stopped hl hc (hk.quiet hq)
  | stoppedLong hl hc hq => exact .stoppedLong hl hc (hk.quiet hq)
  | resetting hl hq => exact .resetting hl (hk.quiet hq)

theorem KeyInv.expire (h : KeyInv k t c l phase) (ht : t.expire k .entered = some t')
    (hok : phase = .released ∨ phase = .stopping → c + 1 < inputLongPressCounts) :
    KeyInv k t' c l phase := by
  have hquiet : ¬t.Quiet k := by
    intro hq
    rw [hq.not_expire] at ht
    cases ht
  obtain ⟨hw, -, rfl⟩ := Timers.expire_eq_some ht
  have hnone : t.progress k = none := by simp [Timers.progress, hw]
  have hcounts : ∀ {b : Bool}, Counts (t.progress k) c b → Counts (some .entered) c b := by
    intro b hc
    rw [hnone] at hc
    cases hc with
    | idle hc => exact .entered hc
    | idleLong => exact .enteredLong
  have hsome : (t.setTask (.callback k .entered)).progress k = some .entered :=
    Timers.progress_setTask_callback
  cases h with
  | up _ hq | starting _ hq | stopped _ _ hq | stoppedLong _ _ hq | resetting _ hq =>
    exact absurd hq hquiet
  | down hl hv hc hs => exact .down hl hv (hsome.symm ▸ hcounts hc) hs
  | released hl hv hc _ hs =>
    have hlt := hok (.inl rfl)
    exact .released hl hv (hsome.symm ▸ hcounts hc) (hsome.symm ▸ Nat.not_le_of_lt hlt) hs
  | stopping hl hv hc _ hs =>
    have hlt := hok (.inr rfl)
    exact .stopping hl hv (hsome.symm ▸ hcounts hc) (hsome.symm ▸ Nat.not_le_of_lt hlt) hs

/-- While the callback of a key runs, the key is down, or it was released and the callback does not
publish any more. -/
theorem KeyInv.callback_cases {a : PressTimerCallback} (h : KeyInv k t c l phase) (ht : t.Live)
    (ha : t.progress k = some a) :
    ∃ b, Counts (some a) c b ∧
      (∀ t' c', Timers.settles t' k = t.settles k → Counts (Timers.progress t' k) c' b →
        (¬WillNotify (some a) c → ¬WillNotify (Timers.progress t' k) c') →
        KeyInv k t' c' l phase) ∧
      (WillNotify (some a) c → t.settles k = true ∧ phase = .down ∧
        ∃ l' v, Words l' ∧ Held b v ∧ l = l' ++ v) := by
  have hquiet : ¬t.Quiet k := by
    intro hq
    rw [hq.progress ht] at ha
    cases ha
  cases h with
  | up _ hq | starting _ hq | stopped _ _ hq | stoppedLong _ _ hq | resetting _ hq =>
    exact absurd hq hquiet
  | @down _ l v b hl hv hc hs =>
    exact ⟨b, ha ▸ hc, fun t' c' hs' hc' _ => .down hl hv hc' (hs'.trans hs),
      fun _ => ⟨hs, rfl, l, v, hl, hv, rfl⟩⟩
  | @released _ l v b hl hv hc hn hs =>
    rw [ha] at hc hn
    exact ⟨b, hc, fun t' c' hs' hc' hn' => .released hl hv hc' (hn' hn) (hs'.trans hs),
      fun hw => absurd hw hn⟩
  | @stopping _ l v b hl hv hc hn hs =>
    rw [ha] at hc hn
    exact ⟨b, hc, fun t' c' hs' hc' hn' => .stopping hl hv hc' (hn' hn) (hs'.trans hs),
      fun hw => absurd hw hn⟩

section Callback

variable (h : KeyInv k t c l phase) (ht : t.Live)

include h ht

theorem KeyInv.count (ha : t.progress k = some .entered) :
    KeyInv k (t.setTask (.callback k .counted)) ((c + 1) % 256) l phase := by
  obtain ⟨b, hc, hkeep, -⟩ := h.callback_cases ht ha
  have hlong : inputLongPressCounts = 4 := rfl
  have hmod : (c + 1) % 256 = c + 1 := by
    apply Nat.mod_eq_of_lt
    cases hc with
    | entered hc => omega
    | enteredLong => decide
  have hcounter : Counts (some .counted) (c + 1) b := by
    cases hc with
    | entered hc => exact .counted hc
    | enteredLong => exact .countedLong
  rw [hmod]
  apply hkeep
  · simp
  · simpa using hcounter
  · simp [WillNotify]

theorem KeyInv.long (ha : t.progress k = some .counted) (hlong : c = inputLongPressCounts) :
    KeyInv k (t.setTask (.callback k (.notify .long))) c l phase := by
  obtain ⟨b, hc, hkeep, -⟩ := h.callback_cases ht ha
  subst hlong
  apply hkeep
  · simp
  · rw [Timers.progress_setTask_callback]
    cases hc
    exact .notifyLong
  · simp [WillNotify]

theorem KeyInv.repeats (ha : t.progress k = some .counted) (hlong : inputLongPressCounts < c) :
    KeyInv k (t.setTask (.callback k (.notify .repeated))) ((c + 255) % 256) l phase := by
  obtain ⟨b, hc, hkeep, -⟩ := h.callback_cases ht ha
  apply hkeep
  · simp
  · rw [Timers.progress_setTask_callback]
    cases hc with
    | counted hle => exact absurd hle (Nat.not_le_of_lt hlong)
    | countedLong => exact .notifyRepeated
  · intro hn
    exact absurd (Nat.le_of_lt hlong) hn

theorem KeyInv.quit (ha : t.progress k = some .counted) (hlong : c < inputLongPressCounts) :
    KeyInv k (t.setTask .drain) c l phase := by
  obtain ⟨b, hc, hkeep, -⟩ := h.callback_cases ht ha
  apply hkeep
  · simp
  · rw [Timers.progress_setTask_drain]
    cases hc with
    | counted => exact .idle hlong
    | countedLong => exact absurd hlong (by decide)
  · simp [WillNotify]

theorem KeyInv.notify {type : InputType} (ha : t.progress k = some (.notify type)) :
    KeyInv k (t.setTask .drain) c (l ++ [type]) phase := by
  obtain ⟨b, hc, -, hdown⟩ := h.callback_cases ht ha
  obtain ⟨hs, rfl, l', v, hl', hv, rfl⟩ := hdown trivial
  rw [List.append_assoc]
  cases hc with
  | notifyLong => exact .down hl' hv.long_press .idleLong hs
  | notifyRepeated => exact .down hl' hv.repeat_press .idleLong hs

end Callback

theorem KeyInv.press (h : KeyInv k t c l .up) : KeyInv k t c (l ++ [InputType.press]) .starting := by
  cases h with
  | up hl hq => exact .starting hl hq

theorem KeyInv.start (h : KeyInv k t c l .starting) (ht : t.Live)
    (hpost : t.post k .changePeriod = some t') : KeyInv k t' c l .down := by
  have hs := Timers.settles_post hpost
  cases h with
  | starting hl hq =>
    have hp : t'.progress k = none := by
      obtain rfl := Timers.post_eq_some hpost
      exact hq.progress ht
    exact .down hl .tap (hp ▸ .idle (by decide)) hs

theorem KeyInv.release (h : KeyInv k t c l .down) (hn : ¬WillNotify (t.progress k) c) :
    KeyInv k t c (l ++ [InputType.release]) .released := by
  cases h with
  | down hl hv hc hs =>
    rw [List.append_assoc]
    exact .released hl hv hc hn hs

theorem KeyInv.stop (h : KeyInv k t c l .released) (hpost : t.post k .stop = some t') :
    KeyInv k t' c l .stopping := by
  have hs := Timers.settles_post hpost
  obtain rfl := Timers.post_eq_some hpost
  cases h with
  | released hl hv hc hn => exact .stopping hl hv hc hn hs

theorem KeyInv.inactive (h : KeyInv k t c l .stopping) (ht : t.Live) (ha : t.active k = false) :
    KeyInv k t c l .stopped := by
  cases h with
  | stopping hl hv hc _ hs =>
    have hq := Timers.quiet_of_inactive hs ha
    rw [hq.progress ht] at hc
    cases hc with
    | idle hlt =>
      cases hv
      exact .stopped hl hlt hq
    | idleLong => exact .stoppedLong (hl.append hv.word) (Nat.le_refl _) hq

theorem KeyInv.short (h : KeyInv k t c l .stopped) (hc : c < inputLongPressCounts) :
    KeyInv k t c (l ++ [InputType.short]) .resetting := by
  cases h with
  | stopped hl _ hq =>
    rw [List.append_assoc]
    exact .resetting (hl.append .short) hq
  | stoppedLong _ hle => exact absurd hc (Nat.not_lt_of_le hle)

theorem KeyInv.not_short (h : KeyInv k t c l .stopped) (hc : ¬c < inputLongPressCounts) :
    KeyInv k t c l .resetting := by
  cases h with
  | stopped _ hlt => exact absurd hlt hc
  | stoppedLong hl _ hq => exact .resetting hl hq

theorem KeyInv.reset (h : KeyInv k t c l .resetting) : KeyInv k t 0 l .up := by
  cases h with
  | resetting hl hq => exact .up hl hq

theorem KeyInv.fresh (h : KeyInv k t c l phase) (ht : t.Live)
    (hphase : phase = .up ∨ phase = .starting) : c = 0 ∧ t.progress k = none := by
  cases h with
  | up _ hq | starting _ hq => exact ⟨rfl, hq.progress ht⟩
  | down | released | stopping | stopped | stoppedLong | resetting => simp at hphase

variable {s s' : InputState n} {levels : Fin n → Bool}

namespace InputState

def At (s : InputState n) (k : Fin n) : Prop :=
  KeyInv k s.timers (s.pins k).pressCounter (s.eventsOf k) (s.pc.phase k (s.pins k).state)

/-- The key that is handled has the state it is handled for. -/
def Handling (s : InputState n) : Prop :=
  ∀ k state, s.pc.handles = some (k, state) → (s.pins k).state = state

structure Inv (levels : Fin n → Bool) (s : InputState n) : Prop where
  live : s.timers.Live
  handling : s.Handling
  key : ∀ k, levels k = false → s.At k

@[simp]
theorem eventsOf_notifyPubsub (s : InputState n) (k k' : Fin n) (type : InputType) :
    (s.notifyPubsub k' type).eventsOf k =
      if k' = k then s.eventsOf k ++ [type] else s.eventsOf k := by
  by_cases h : k' = k <;> simp [eventsOf, notifyPubsub, h]

theorem At.keeps (h : s.At k) (hk : Timers.Keeps k s.timers s'.timers)
    (hpin : s'.pins k = s.pins k) (he : s'.eventsOf k = s.eventsOf k) (hpc : s'.pc = s.pc) :
    s'.At k := by
  unfold At
  rw [hpin, he, hpc]
  exact KeyInv.keeps h hk

theorem Inv.turn (h : s.Inv levels) (ht : s.timers.turn = some t) :
    Inv levels { s with timers := t } :=
  ⟨Timers.Live.turn ht, h.handling, fun k hk => (h.key k hk).keeps (Timers.keeps_turn ht) rfl rfl rfl⟩

theorem phase_released {pc : TaskPc n} {state : Bool} :
    pc.phase k state = .released ∨ pc.phase k state = .stopping →
      pc = .timerStop k ∨ pc = .timerStopWait k := by
  have hph : phaseOf state ≠ .released ∧ phaseOf state ≠ .stopping := by cases state <;> decide
  have hph' : ∀ b, phaseOf b ≠ .released ∧ phaseOf b ≠ .stopping := by decide
  unfold TaskPc.phase
  cases pc <;> grind

theorem Inv.expire (h : s.Inv levels) (ht : s.timers.expire k .entered = some t)
    (hok : s.pc = .timerStop k ∨ s.pc = .timerStopWait k →
      (s.pins k).pressCounter + 1 < inputLongPressCounts) :
    Inv levels { s with timers := t } := by
  refine ⟨Timers.Live.expire ht, h.handling, fun k' hk' => ?_⟩
  by_cases hne : k = k'
  · subst hne
    exact KeyInv.expire (h.key k hk') ht fun hphase => hok (phase_released hphase)
  · exact (h.key k' hk').keeps (Timers.keeps_expire ht hne) rfl rfl rfl

theorem Inv.of_callback {a : PressTimerCallback} (h : s.Inv levels)
    (ht : s.timers.task = .callback k a)
    (ht' : (∃ b, s'.timers = s.timers.setTask (.callback k b)) ∨
      s'.timers = s.timers.setTask .drain)
    (hpc : s'.pc = s.pc) (hstate : ∀ k', (s'.pins k').state = (s.pins k').state)
    (hframe : ∀ k', k' ≠ k → s'.pins k' = s.pins k' ∧ s'.eventsOf k' = s.eventsOf k')
    (hkey : s.At k → KeyInv k s'.timers (s'.pins k).pressCounter (s'.eventsOf k)
      (s.pc.phase k (s.pins k).state)) : s'.Inv levels := by
  refine ⟨?_, ?_, fun k' hk' => ?_⟩
  · rcases ht' with ⟨b, hb⟩ | hd
    · exact hb ▸ h.live.callback ht
    · rw [hd]
      intro k' c hc
      cases hc
  · intro k' state hs
    rw [hstate]
    exact h.handling k' state (hpc ▸ hs)
  · by_cases hne : k' = k
    · subst hne
      unfold At
      rw [hpc, hstate]
      exact hkey (h.key k' hk')
    · obtain ⟨hpin, he⟩ := hframe k' hne
      refine (h.key k' hk').keeps ?_ hpin he hpc
      rcases ht' with ⟨b, hb⟩ | hd
      · exact Timers.keeps_callback (b := b) ht (Ne.symm hne) (.inl hb)
      · exact Timers.keeps_callback (b := a) ht (Ne.symm hne) (.inr hd)

theorem Inv.callback (h : s.Inv levels) (hs : s.inputPressTimerCallback = some s') :
    s'.Inv levels := by
  unfold inputPressTimerCallback at hs
  split at hs
  · next k ht =>
    cases hs
    have ha := Timers.progress_eq_some.mpr ht
    refine h.of_callback ht (.inl ⟨_, rfl⟩) rfl (setPin_state rfl)
      (fun k' hne => ⟨setPin_of_ne _ hne, rfl⟩) fun hk => ?_
    change KeyInv k _ ((s.setPin k _).pins k).pressCounter (s.eventsOf k) _
    rw [setPin_self]
    exact KeyInv.count hk h.live ha
  · next k ht =>
    have ha := Timers.progress_eq_some.mpr ht
    split at hs
    · next hc =>
      cases hs
      exact h.of_callback ht (.inl ⟨_, rfl⟩) rfl (fun _ => rfl) (fun _ _ => ⟨rfl, rfl⟩)
        fun hk => KeyInv.long hk h.live ha hc
    · next hc =>
      split at hs
      · next hlt =>
        cases hs
        refine h.of_callback ht (.inl ⟨_, rfl⟩) rfl (setPin_state rfl)
          (fun k' hne => ⟨setPin_of_ne _ hne, rfl⟩) fun hk => ?_
        change KeyInv k _ ((s.setPin k _).pins k).pressCounter (s.eventsOf k) _
        rw [setPin_self]
        exact KeyInv.repeats hk h.live ha hlt
      · next hlt =>
        cases hs
        have hlt' := Nat.lt_of_le_of_ne (Nat.not_lt.mp hlt) hc
        exact h.of_callback ht (.inr rfl) rfl (fun _ => rfl) (fun _ _ => ⟨rfl, rfl⟩)
          fun hk => KeyInv.quit hk h.live ha hlt'
  · next k type ht =>
    cases hs
    have ha := Timers.progress_eq_some.mpr ht
    refine h.of_callback ht (.inr rfl) rfl (fun _ => rfl) (fun k' hne => ⟨rfl, ?_⟩) fun hk => ?_
    · exact (eventsOf_notifyPubsub s k' k type).trans (if_neg (Ne.symm hne))
    · have hkey := KeyInv.notify hk h.live ha
      have he := (eventsOf_notifyPubsub s k k type).trans (if_pos rfl)
      exact he.symm ▸ hkey
  · cases hs

theorem phase_of_ne {pc : TaskPc n} {state : Bool} (h : ∀ state, pc.handles ≠ some (k, state)) :
    pc.phase k state = phaseOf state := by
  cases pc with
  | read | sleep => rfl
  | notify k' state' =>
    refine if_neg ?_
    rintro rfl
    exact h state' rfl
  | timerStart k' =>
    refine if_neg ?_
    rintro rfl
    exact h true rfl
  | timerStop k' | timerStopWait k' | short k' | reset k' =>
    refine if_neg ?_
    rintro rfl
    exact h false rfl

theorem At.frame (h : s.At k) (hk : Timers.Keeps k s.timers s'.timers)
    (hpin : s'.pins k = s.pins k) (he : s'.eventsOf k = s.eventsOf k)
    (hpc : ∀ state, s.pc.handles ≠ some (k, state))
    (hpc' : ∀ state, s'.pc.handles ≠ some (k, state)) : s'.At k := by
  unfold At
  rw [hpin, he, phase_of_ne hpc', ← phase_of_ne hpc]
  exact KeyInv.keeps h hk

theorem sample_pressCounter (p : InputPinState) (level : Bool) :
    (p.sample level).1.pressCounter = p.pressCounter := by
  unfold InputPinState.sample
  split
  · rfl
  · split <;> rfl

theorem sample_state (p : InputPinState) (level : Bool) :
    (p.sample level).2 = .changed ∧ p.state = !level ∧ (p.sample level).1.state = level ∨
      (p.sample level).2 ≠ .changed ∧ (p.sample level).1.state = p.state := by
  unfold InputPinState.sample
  split
  · exact .inr ⟨by simp, rfl⟩
  · split
    · next hne => exact .inl ⟨rfl, Bool.eq_not.mpr hne, rfl⟩
    · exact .inr ⟨by simp, rfl⟩

theorem Inv.of_read {p : InputPinState} (h : s.Inv levels) (hpc : s.pc.handles = none)
    (hpins : s'.pins = (s.setPin k p).pins) (htimers : s'.timers = s.timers)
    (hevents : s'.events = s.events) (hp : p.pressCounter = (s.pins k).pressCounter)
    (hphase : s'.pc.phase k p.state = phaseOf (s.pins k).state)
    (hhandles : ∀ k' state, s'.pc.handles = some (k', state) → k' = k ∧ p.state = state) :
    s'.Inv levels := by
  have hnone : ∀ k' state, s.pc.handles ≠ some (k', state) := by simp [hpc]
  refine ⟨htimers ▸ h.live, ?_, fun k' hk' => ?_⟩
  · intro k' state hs
    obtain ⟨rfl, hstate⟩ := hhandles k' state hs
    rw [hpins, setPin_self]
    exact hstate
  · have he : s'.eventsOf k' = s.eventsOf k' := by rw [eventsOf, hevents, eventsOf]
    by_cases hne : k' = k
    · subst hne
      have hkey := h.key k' hk'
      unfold At at hkey ⊢
      rw [phase_of_ne (hnone k')] at hkey
      rwa [htimers, hpins, setPin_self, hp, he, hphase]
    · refine (h.key k' hk').frame (htimers ▸ .refl _ _) ?_ he (hnone k') ?_
      · rw [hpins, setPin_of_ne p hne]
      · intro state hs
        exact hne (hhandles k' state hs).1

theorem Inv.read {level : Bool} (h : s.Inv levels) (hs : s.read level = some s') :
    s'.Inv levels := by
  unfold InputState.read at hs
  split at hs
  · next i hpc =>
    split at hs
    · next hi =>
      have hnone : s.pc.handles = none := by rw [hpc]; rfl
      have hcount := sample_pressCounter (s.pins ⟨i, hi⟩) level
      have hstate := sample_state (s.pins ⟨i, hi⟩) level
      rcases hsample : (s.pins ⟨i, hi⟩).sample level with ⟨p, r⟩
      simp only [hsample] at hs hcount hstate
      cases r with
      | changing =>
        cases hs
        obtain ⟨_, hsame⟩ := hstate.resolve_left fun hc => by cases hc.1
        exact h.of_read hnone rfl rfl rfl hcount (by simp [TaskPc.phase, hsame])
          (by simp [TaskPc.handles])
      | changed =>
        cases hs
        obtain ⟨_, hold, hnew⟩ := hstate.resolve_right fun hc => hc.1 rfl
        refine h.of_read hnone rfl rfl rfl hcount ?_ ?_
        · simp [goto, TaskPc.phase, hold]
        · rintro k' state hh
          obtain ⟨rfl, rfl⟩ := Prod.mk.inj (Option.some.inj hh)
          exact ⟨rfl, hnew⟩
      | same =>
        cases hs
        obtain ⟨_, hsame⟩ := hstate.resolve_left fun hc => by cases hc.1
        exact h.of_read hnone rfl rfl rfl hcount (by simp [goto, TaskPc.phase, hsame])
          (by simp [goto, TaskPc.handles])
    · cases hs
  · cases hs

theorem Inv.of_task {state : Bool} (h : s.Inv levels) (hpc : s.pc.handles = some (k, state))
    (hlive : s'.timers.Live) (hkeeps : ∀ k', k ≠ k' → Timers.Keeps k' s.timers s'.timers)
    (hframe : ∀ k', k' ≠ k → s'.pins k' = s.pins k' ∧ s'.eventsOf k' = s.eventsOf k')
    (hhandles : ∀ k' state', s'.pc.handles = some (k', state') →
      k' = k ∧ (s'.pins k).state = state')
    (hkey : s.At k → s'.At k) : s'.Inv levels := by
  refine ⟨hlive, ?_, fun k' hk' => ?_⟩
  · intro k' state' hs
    obtain ⟨rfl, hstate⟩ := hhandles k' state' hs
    exact hstate
  · by_cases hne : k' = k
    · subst hne
      exact hkey (h.key k' hk')
    · obtain ⟨hpin, he⟩ := hframe k' hne
      refine (h.key k' hk').frame (hkeeps k' (Ne.symm hne)) hpin he ?_ ?_
      · intro state' hs
        exact hne (Prod.mk.inj (Option.some.inj (hpc.symm.trans hs))).1.symm
      · intro state' hs
        exact hne (hhandles k' state' hs).1

theorem At.keyInv (h : s.At k) (phase : Phase) (hphase : s.pc.phase k (s.pins k).state = phase) :
    KeyInv k s.timers (s.pins k).pressCounter (s.eventsOf k) phase := hphase ▸ h

theorem At.of_keyInv (phase : Phase) (hphase : s.pc.phase k (s.pins k).state = phase)
    (h : KeyInv k s.timers (s.pins k).pressCounter (s.eventsOf k) phase) : s.At k := by
  unfold At
  rwa [hphase]

theorem eventsOf_notify_self (type : InputType) :
    (s.notifyPubsub k type).eventsOf k = s.eventsOf k ++ [type] :=
  (eventsOf_notifyPubsub s k k type).trans (if_pos rfl)

theorem eventsOf_notify_of_ne (type : InputType) (h : k' ≠ k) :
    (s.notifyPubsub k type).eventsOf k' = s.eventsOf k' :=
  (eventsOf_notifyPubsub s k' k type).trans (if_neg (Ne.symm h))

theorem Inv.notify {state : Bool} (h : s.Inv levels) (hpc : s.pc = .notify k state)
    (hok : state = false → ¬WillNotify (s.timers.progress k) (s.pins k).pressCounter) :
    ((s.notifyPubsub k (changeType state)).goto
      (if state then .timerStart k else .timerStop k)).Inv levels := by
  have hhandles : s.pc.handles = some (k, state) := by rw [hpc]; rfl
  have hstate := h.handling k state hhandles
  refine h.of_task hhandles h.live (fun k' _ => .refl _ _)
    (fun k' hne => ⟨rfl, eventsOf_notify_of_ne _ hne⟩) ?_ ?_
  · rintro k' state' hs
    cases state <;> obtain ⟨rfl, rfl⟩ := Prod.mk.inj (Option.some.inj hs) <;> exact ⟨rfl, hstate⟩
  · intro hk
    cases state with
    | true =>
      have hup := hk.keyInv .up (by simp [hpc, TaskPc.phase, phaseOf])
      refine .of_keyInv _ (if_pos rfl) ?_
      exact (eventsOf_notify_self (s := s) (k := k) .press).symm ▸ hup.press
    | false =>
      have hdown := hk.keyInv .down (by simp [hpc, TaskPc.phase, phaseOf])
      refine .of_keyInv _ (if_pos rfl) ?_
      exact (eventsOf_notify_self (s := s) (k := k) .release).symm ▸ hdown.release (hok rfl)

/-- A release stays with its key from the stop of the timer to the reset of its counter. -/
theorem Inv.of_release (h : s.Inv levels) (hpc : s.pc.handles = some (k, false))
    (hpc' : s'.pc.handles = some (k, false)) (hlive : s'.timers.Live)
    (hkeeps : ∀ k', k ≠ k' → Timers.Keeps k' s.timers s'.timers) (hpins : s'.pins = s.pins)
    (hframe : ∀ k', k' ≠ k → s'.eventsOf k' = s.eventsOf k') (hkey : s.At k → s'.At k) :
    s'.Inv levels := by
  refine h.of_task hpc hlive hkeeps (fun k' hne => ⟨by rw [hpins], hframe k' hne⟩) ?_ hkey
  intro k' state hk
  obtain ⟨rfl, rfl⟩ := Prod.mk.inj (Option.some.inj (hpc'.symm.trans hk))
  exact ⟨rfl, hpins ▸ h.handling _ _ hpc⟩

theorem Inv.timerStart (h : s.Inv levels) (hpc : s.pc = .timerStart k)
    (hs : s.taskStep = some s') : s'.Inv levels := by
  simp only [taskStep, hpc] at hs
  obtain ⟨t, hpost, rfl⟩ := Option.map_eq_some_iff.mp hs
  have hhandles : s.pc.handles = some (k, true) := by rw [hpc]; rfl
  refine h.of_task hhandles (h.live.post hpost) (fun k' hne => Timers.keeps_post hpost hne)
    (fun k' hne => ⟨rfl, rfl⟩) ?_ ?_
  · intro k' state hk
    cases hk
  · intro hk
    have hstarting := hk.keyInv .starting (by simp [hpc, TaskPc.phase])
    refine .of_keyInv _ ?_ (hstarting.start h.live hpost)
    simp [TaskPc.phase, phaseOf, h.handling k true hhandles]

theorem Inv.timerStop (h : s.Inv levels) (hpc : s.pc = .timerStop k)
    (hs : s.taskStep = some s') : s'.Inv levels := by
  simp only [taskStep, hpc] at hs
  obtain ⟨t, hpost, rfl⟩ := Option.map_eq_some_iff.mp hs
  refine h.of_release (by rw [hpc]; rfl) rfl (h.live.post hpost)
    (fun k' hne => Timers.keeps_post hpost hne) rfl (fun k' hne => rfl) fun hk => ?_
  have hreleased := hk.keyInv .released (by simp [hpc, TaskPc.phase])
  exact .of_keyInv _ (if_pos rfl) (hreleased.stop hpost)

theorem Inv.timerStopWait (h : s.Inv levels) (hpc : s.pc = .timerStopWait k)
    (hs : s.taskStep = some s') : s'.Inv levels := by
  simp only [taskStep, hpc] at hs
  split at hs
  · cases hs
    exact h
  · next ha =>
    cases hs
    refine h.of_release (by rw [hpc]; rfl) rfl h.live (fun k' _ => .refl _ _) rfl
      (fun k' hne => rfl) fun hk => ?_
    have hstopping := hk.keyInv .stopping (by simp [hpc, TaskPc.phase])
    exact .of_keyInv _ (if_pos rfl) (hstopping.inactive h.live (Bool.eq_false_iff.mpr ha))

theorem Inv.short (h : s.Inv levels) (hpc : s.pc = .short k) (hs : s.taskStep = some s') :
    s'.Inv levels := by
  simp only [taskStep, hpc] at hs
  split at hs
  · next hlt =>
    cases hs
    refine h.of_release (by rw [hpc]; rfl) rfl h.live (fun k' _ => .refl _ _) rfl
      (fun k' hne => eventsOf_notify_of_ne _ hne) fun hk => ?_
    have hstopped := hk.keyInv .stopped (by simp [hpc, TaskPc.phase])
    refine .of_keyInv _ (if_pos rfl) ?_
    exact (eventsOf_notify_self (s := s) (k := k) .short).symm ▸ hstopped.short hlt
  · next hle =>
    cases hs
    refine h.of_release (by rw [hpc]; rfl) rfl h.live (fun k' _ => .refl _ _) rfl
      (fun k' hne => rfl) fun hk => ?_
    have hstopped := hk.keyInv .stopped (by simp [hpc, TaskPc.phase])
    exact .of_keyInv _ (if_pos rfl) (hstopped.not_short hle)

theorem Inv.reset (h : s.Inv levels) (hpc : s.pc = .reset k) (hs : s.taskStep = some s') :
    s'.Inv levels := by
  simp only [taskStep, hpc] at hs
  cases hs
  have hhandles : s.pc.handles = some (k, false) := by rw [hpc]; rfl
  refine h.of_task hhandles h.live (fun k' _ => .refl _ _)
    (fun k' hne => ⟨setPin_of_ne _ hne, rfl⟩) ?_ ?_
  · intro k' state hk
    cases hk
  · intro hk
    have hresetting := hk.keyInv .resetting (by simp [hpc, TaskPc.phase])
    refine .of_keyInv .up ?_ ?_
    · simp [goto, TaskPc.phase, phaseOf, h.handling k false hhandles]
    · change KeyInv k s.timers ((s.setPin k _).pins k).pressCounter (s.eventsOf k) _
      rw [setPin_self]
      exact hresetting.reset

theorem Inv.task (h : s.Inv levels)
    (hok : ∀ k, s.pc = .notify k false →
      ¬WillNotify (s.timers.progress k) (s.pins k).pressCounter)
    (hs : s.taskStep = some s') : s'.Inv levels := by
  cases hpc : s.pc with
  | read i =>
    simp only [taskStep, hpc] at hs
    split at hs
    · cases hs
    · cases hs
      refine ⟨h.live, fun k state hk => ?_, fun k hk => ?_⟩
      · cases hk
      · exact (h.key k hk).frame (.refl _ _) rfl rfl (by simp [hpc, TaskPc.handles])
          (by simp [goto, TaskPc.handles])
  | notify k state =>
    simp only [taskStep, hpc] at hs
    cases hs
    exact h.notify hpc fun hstate => hok k (hstate ▸ hpc)
  | timerStart k => exact h.timerStart hpc hs
  | timerStop k => exact h.timerStop hpc hs
  | timerStopWait k => exact h.timerStopWait hpc hs
  | short k => exact h.short hpc hs
  | reset k => exact h.reset hpc hs
  | sleep =>
    simp only [taskStep, hpc] at hs
    cases hs

theorem Inv.wake (h : s.Inv levels) (hs : s.wake = some s') : s'.Inv levels := by
  unfold InputState.wake at hs
  split at hs
  · next hpc =>
    cases hs
    refine ⟨h.live, fun k state hk => ?_, fun k hk => ?_⟩
    · cases hk
    · exact (h.key k hk).frame (.refl _ _) rfl rfl (by simp [hpc, TaskPc.handles])
        (by simp [TaskPc.handles])
  · cases hs

end InputState

/-- The timer of a key does not expire to publish between the release of the key and the stop of
the timer, and a release does not overtake a callback that publishes. -/
def Timely (s : InputState n) : InputLabel n → Prop
  | .task => ∀ k, s.pc = .notify k false →
      ¬WillNotify (s.timers.progress k) (s.pins k).pressCounter
  | .expire k => s.pc = .timerStop k ∨ s.pc = .timerStopWait k →
      (s.pins k).pressCounter + 1 < inputLongPressCounts
  | _ => True

theorem inv_init (levels : Fin n → Bool) : (inputTask levels).init.Inv levels := by
  refine ⟨Timers.live_init, fun k state hk => ?_, fun k hk => ?_⟩
  · cases hk
  · refine .of_keyInv .up ?_ ?_
    · simp [inputTask, TaskPc.phase, InputPinState.init, hk, phaseOf]
    · exact .up words_nil (Timers.quiet_init k)

theorem InputState.Inv.next {label : InputLabel n} (h : s.Inv levels) (hok : Timely s label)
    (hs : (inputTask levels).next s label = some s') : s'.Inv levels := by
  cases label with
  | read level => exact h.read hs
  | task => exact h.task hok hs
  | wake => exact h.wake hs
  | timers =>
    obtain ⟨t, ht, rfl⟩ := Option.map_eq_some_iff.mp hs
    exact h.turn ht
  | expire k =>
    obtain ⟨t, ht, rfl⟩ := Option.map_eq_some_iff.mp hs
    exact h.expire ht hok
  | callback => exact h.callback hs

/-- In every run in which the timers are timely, the events of a key that is not held down at the
start are words of the grammar, and each press begins with its counter at zero. -/
theorem input_events_grammatical (levels : Fin n → Bool)
    (hs : (inputTask levels).ReachableWith Timely s) (k : Fin n) (hk : levels k = false) :
    Grammatical (s.eventsOf k) ∧
      (s.pc = .notify k true ∨ s.pc = .timerStart k →
        (s.pins k).pressCounter = 0 ∧ s.timers.progress k = none) := by
  have h := hs.invariant (inv_init levels) fun s l s' h hok hs => h.next hok hs
  refine ⟨KeyInv.grammatical (h.key k hk), ?_⟩
  rintro (hpc | hpc)
  · have hup := (h.key k hk).keyInv .up (by simp [hpc, TaskPc.phase, phaseOf])
    exact hup.fresh h.live (.inl rfl)
  · have hstarting := (h.key k hk).keyInv .starting (by simp [hpc, TaskPc.phase])
    exact hstarting.fresh h.live (.inr rfl)

instance (o : Option PressTimerCallback) (c : ℕ) : Decidable (WillNotify o c) :=
  match o with
  | none => inferInstanceAs (Decidable False)
  | some .entered => inferInstanceAs (Decidable (_ ≤ _))
  | some .counted => inferInstanceAs (Decidable (_ ≤ _))
  | some (.notify _) => inferInstanceAs (Decidable True)

instance (s : InputState n) (label : InputLabel n) : Decidable (Timely s label) :=
  match label with
  | .task => inferInstanceAs (Decidable (∀ _, _))
  | .expire _ => inferInstanceAs (Decidable (_ → _))
  | .read _ | .wake | .timers | .callback => inferInstanceAs (Decidable True)

/-- A key is pressed: its counter is at the start of its range, and ten samples settle it. -/
def pressRun : List (InputLabel 1) :=
  (List.replicate 10 [InputLabel.read true, .task, .wake]).flatten ++
    [InputLabel.read true, .task, .task, .task, .timers, .timers, .timers]

def countRun : List (InputLabel 1) := [.expire 0, .callback, .callback, .timers]

def tapRun : List (InputLabel 1) := 
  pressRun ++ countRun ++ [InputLabel.wake, .read false, .task, .task]

theorem input_events_grammatical_tap :
    ∃ s, (inputTask fun _ : Fin 1 => false).execWith Timely (inputTask fun _ => false).init
      tapRun = some s ∧ s.events ≠ [] ∧ Grammatical (s.eventsOf 0) := by
  have hrun : ∃ s, (inputTask fun _ : Fin 1 => false).execWith Timely
      (inputTask fun _ => false).init tapRun = some s ∧ s.events ≠ [] :=
    ⟨_, rfl, List.cons_ne_nil _ _⟩
  obtain ⟨s, hs, hne⟩ := hrun
  have hreach := Machine.execWith_reachableWith .init hs
  exact ⟨s, hs, hne, (input_events_grammatical (fun _ => false) hreach 0 rfl).1⟩

theorem not_grammatical_long : ¬Grammatical [.press, .release, .long] := by
  have hword : ∀ u : List InputType, ¬Word (.press :: .release :: .long :: u) := by
    intro u hw
    generalize he : InputType.press :: .release :: .long :: u = w at hw
    cases hw <;> simp at he
  rintro ⟨l, v, u, ⟨ws, hws, rfl⟩, hv, he⟩
  cases ws with
  | nil =>
    obtain rfl : _ = v := he
    exact hword u hv
  | cons w ws =>
    have hw := hws w List.mem_cons_self
    cases hw <;> simp at he

/-- The release overtakes the callback of the fourth expiry, after it has counted. -/
def overtakeRun : List (InputLabel 1) :=
  pressRun ++ countRun ++ countRun ++ countRun ++
    [InputLabel.expire 0, .callback, .wake, .read false, .task, .callback, .callback]

theorem input_long_after_release :
    ∃ s, (inputTask fun _ : Fin 1 => false).Reachable s ∧
      s.eventsOf 0 = [.press, .release, .long] ∧ ¬Grammatical (s.eventsOf 0) := by
  have hrun : ∃ s, (inputTask fun _ : Fin 1 => false).exec (inputTask fun _ => false).init
      overtakeRun = some s ∧ s.eventsOf 0 = [.press, .release, .long] := ⟨_, rfl, rfl⟩
  obtain ⟨s, hs, he⟩ := hrun
  exact ⟨s, Machine.exec_reachable .init hs, he, he ▸ not_grammatical_long⟩

end FlipperZero.Input
