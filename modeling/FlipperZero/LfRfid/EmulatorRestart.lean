import FlipperZero.LfRfid.EmulatorWaveform

/-! # Restarting an emulation

A waveform that begins with pulses of an earlier emulation is not that of a new emulator, because
no encoder's waveform repeats itself so soon; except where one cycle of an Indala card is pending
and its bit clock, which no start sets, is ahead by that cycle.
-/

namespace FlipperZero.LfRfid

open Lib PulseJoiner Encoder

variable {l : List Pulse} {type : EmulatorType} {e : Encoder type} {n t : ℕ}

/-- The waveform does not repeat itself within the time that pulses can be pending for. -/
def Aperiodic (e : Encoder type) : Prop :=
  ∀ d, 0 < d → d ≤ 127 → ∃ t, 30 ≤ t ∧ e.level (t + d) ≠ e.level t

def differs : List Bool → List Bool → Bool
  | a :: l, b :: r => a != b || differs l r
  | _, _ => false

theorem exists_of_differs {l r : List Bool} (h : differs l r = true) :
    ∃ t, t < l.length ∧ t < r.length ∧ l[t]? ≠ r[t]? := by
  induction l generalizing r with
  | nil => cases h
  | cons a l ih =>
    cases r with
    | nil => cases h
    | cons b r =>
      rw [differs, Bool.or_eq_true] at h
      rcases h with hne | hrest
      · exact ⟨0, Nat.succ_pos _, Nat.succ_pos _, by simpa using hne⟩
      · obtain ⟨t, hl, hr, hne⟩ := ih hrest
        exact ⟨t + 1, Nat.succ_lt_succ hl, Nat.succ_lt_succ hr, by simpa using hne⟩

theorem aperiodic_of_differs (h : ∀ d < 127,
    differs ((e.wave n).drop (30 + (d + 1))) ((e.wave n).drop 30) = true) : Aperiodic e := by
  intro d hpos hle
  obtain ⟨d, rfl⟩ := Nat.exists_eq_add_one_of_ne_zero (Nat.ne_of_gt hpos)
  obtain ⟨t, hl, hr, hne⟩ := exists_of_differs (h d hle)
  rw [List.length_drop] at hl hr
  refine ⟨30 + t, Nat.le_add_right _ _, ?_⟩
  rw [List.getElem?_drop, List.getElem?_drop] at hne
  rwa [show 30 + t + (d + 1) = 30 + (d + 1) + t by omega, ← getElem?_wave (n := n) (by omega),
    ← getElem?_wave (n := n) (by omega)]

theorem aperiodic_em : Aperiodic (Encoder.new .em).init :=
  @aperiodic_of_differs _ _ 10 (by decide +kernel)

theorem aperiodic_hidH10301 : Aperiodic (Encoder.new .hidH10301).init :=
  @aperiodic_of_differs _ _ 26 (by decide +kernel)

theorem aperiodic_indala40134 : Aperiodic (Encoder.new .indala40134).init :=
  @aperiodic_of_differs _ _ 130 (by decide +kernel)

theorem aperiodic_init (type : EmulatorType) : Aperiodic (Encoder.new type).init := by
  cases type with
  | em => exact aperiodic_em
  | hidH10301 => exact aperiodic_hidH10301
  | indala40134 => exact aperiodic_indala40134

def Encoder.lag : {type : EmulatorType} → Encoder type → ℕ
  | .em, _ => 0
  | .hidH10301, _ => 0
  | .indala40134, e => EncoderIndala40134.bitClockIndex e

theorem after_indala {k : ℕ} (h : k < 16) :
    (Encoder.new .indala40134).init.after k =
      ({ (Encoder.new .indala40134).init with bitClockIndex := k } : EncoderIndala40134) := by
  induction k with
  | zero => rfl
  | succ k ih =>
    rw [after_add, ih (by omega)]
    show (EncoderIndala40134.getNext _).2 = _
    rw [EncoderIndala40134.getNext]
    exact if_neg (by simp only [EncoderIndala40134.clockPerBit]; omega)

theorem init_eq (h : e.lag < 16) : e.init = (Encoder.new type).init.after e.lag := by
  cases type with
  | em => rfl
  | hidH10301 => rfl
  | indala40134 => exact (after_indala h).symm

theorem wave_indala {k : ℕ} (h : k ≤ 16) : (Encoder.new .indala40134).init.wave k =
    (List.range (2 * k)).map fun i => decide (i % 2 = 0) := by
  induction k with
  | zero => rfl
  | succ k ih =>
    rw [wave_add, ih (by omega), after_indala (by omega), Nat.mul_succ, List.range_succ,
      List.range_succ, List.map_append, List.map_append, List.append_assoc]
    apply congrArg (_ ++ ·)
    simp [Nat.add_mod]
    rfl

theorem wave_lag (h : e.lag < 16) : (Encoder.new type).init.wave e.lag =
    (List.range (2 * e.lag)).map fun i => decide (i % 2 = 0) := by
  cases type with
  | em => rfl
  | hidH10301 => rfl
  | indala40134 => exact wave_indala (Nat.le_of_lt h)

theorem PulseJoiner.Shape.times_le (h : Shape 64 l) : 0 < times l ∧ times l ≤ 127 := by
  cases h <;> simp only [times, List.map_cons, List.map_nil, List.sum_cons, List.sum_nil] <;> omega

/-- Only one cycle of one clock each can be pending for the first cycles of an Indala card. -/
theorem PulseJoiner.Shape.eq_cycle {k : ℕ} (h : Shape 64 l)
    (hsignal : signal l = (List.range (2 * k)).map fun i => decide (i % 2 = 0)) :
    l = [⟨true, 1⟩, ⟨false, 1⟩] ∧ k = 1 := by
  have hlength : times l = 2 * k := by
    rw [← length_signal, hsignal, List.length_map, List.length_range]
  have hpos := h.times_le.1
  have hget (i : ℕ) (hi : i < 2 * k) : (signal l)[i]? = some (decide (i % 2 = 0)) := by
    rw [hsignal, List.getElem?_map, List.getElem?_range hi]
    rfl
  have hfirst := hget 1 (by omega)
  cases h with
  | @high a ha haP =>
    have hsum : a = 2 * k := hlength
    rw [getElem?_signal_cons, if_pos (by simp only; omega)] at hfirst
    cases hfirst
  | @cycle a b ha hb hab =>
    have hsum : a + (b + 0) = 2 * k := hlength
    rw [getElem?_signal_cons] at hfirst
    split at hfirst
    · cases hfirst
    · next hone =>
      obtain rfl : a = 1 := by simp only at hone; omega
      have hone : b = 1 := by
        by_contra hne
        have hsecond := hget 2 (by omega)
        rw [getElem?_signal_cons, if_neg (by decide), getElem?_signal_cons,
          if_pos (by simp only; omega)] at hsecond
        cases hsecond
      subst hone
      exact ⟨rfl, by omega⟩
  | @joined a b c ha haP hb hc hbc =>
    rw [getElem?_signal_cons] at hfirst
    split at hfirst
    · cases hfirst
    · next hone =>
      rw [getElem?_signal_cons, if_pos (by simp only at hone ⊢; omega)] at hfirst
      cases hfirst
  | @opened a b c ha haP hb hc hbc =>
    have hsum : a + (b + (c + 0)) = 2 * k := hlength
    have hlast := hget (2 * k - 1) (by omega)
    rw [getElem?_signal_cons, if_neg (by simp only; omega), getElem?_signal_cons,
      if_neg (by simp only; omega), getElem?_signal_cons, if_pos (by simp only; omega),
      decide_eq_false (by omega)] at hlast
    cases hlast

/-- Nothing is pending; or one cycle of an Indala card is, and its bit clock is ahead by it. -/
def RfidTimerEmulator.Clean (s : RfidTimerEmulator) (type : EmulatorType) : Prop :=
  s.pulseJoiner.pulseIndex = 0 ∨
    type = .indala40134 ∧ s.pulseJoiner.pending = [⟨true, 1⟩, ⟨false, 1⟩] ∧
      (s.encoders .indala40134).lag = 1

/-- The encoder that starts again sends what a new one does only in the cases of `Clean`. -/
theorem PulseJoiner.Shape.clean_of_sent (h : Shape 64 l) (hlag : e.lag < 16)
    (hsent : ∀ t, sent l e.init t = (Encoder.new type).init.level t) :
    type = .indala40134 ∧ l = [⟨true, 1⟩, ⟨false, 1⟩] ∧ e.lag = 1 := by
  obtain ⟨hpos, hle⟩ := h.times_le
  have hlength : ((Encoder.new type).init.wave e.lag).length = 2 * e.lag := by
    rw [wave_lag hlag, List.length_map, List.length_range]
  have hshift (t : ℕ) : (Encoder.new type).init.level (2 * e.lag + t) =
      (Encoder.new type).init.level (times l + t) := by
    rw [← hsent (times l + t), sent, if_neg (by omega), Nat.add_sub_cancel_left, init_eq hlag,
      level_after, hlength]
  have haperiodic := aperiodic_init type
  rcases Nat.lt_trichotomy (times l) (2 * e.lag) with hlt | heq | hgt
  · obtain ⟨t, ht, hne⟩ := haperiodic (2 * e.lag - times l) (by omega) (by omega)
    refine absurd (hshift (t - times l)) ?_
    rwa [show 2 * e.lag + (t - times l) = t + (2 * e.lag - times l) by omega,
      show times l + (t - times l) = t by omega]
  · have hsignal : signal l = (Encoder.new type).init.wave e.lag := by
      refine List.ext_getElem? fun t => ?_
      by_cases ht : t < times l
      · rw [getElem?_wave (by omega), ← hsent, sent, if_pos ht]
      · rw [List.getElem?_eq_none (by rw [length_signal]; omega),
          List.getElem?_eq_none (by omega)]
    obtain ⟨hl, hone⟩ := h.eq_cycle (hsignal.trans (wave_lag hlag))
    refine ⟨?_, hl, hone⟩
    cases type with
    | em => cases hone
    | hidH10301 => cases hone
    | indala40134 => rfl
  · obtain ⟨t, ht, hne⟩ := haperiodic (times l - 2 * e.lag) (by omega) (by omega)
    refine absurd (hshift (t - 2 * e.lag)).symm ?_
    rwa [show times l + (t - 2 * e.lag) = t + (times l - 2 * e.lag) by omega,
      show 2 * e.lag + (t - 2 * e.lag) = t by omega]

namespace RfidTimerEmulator

variable {a a' : RfidTimerEmulator}

theorem timerUpdateCallback_eq (h : a.currentEncoder = some type) :
    a.timerUpdateCallback = (emulation (a.encoders type) a.pulseJoiner).map fun r =>
      (r.1, { a with
        encoders := Function.update a.encoders type r.2.1
        pulseJoiner := r.2.2 }) := by
  rw [timerUpdateCallback, h, Option.bind_some, emulation, Option.map_bind]
  simp only [Option.map_map, Function.comp_def]

theorem settings_eq (h : a.currentEncoder = some type) (n : ℕ) :
    settings n a = emulations n (a.encoders type) a.pulseJoiner := by
  induction n generalizing a with
  | zero => rfl
  | succ n ih =>
    rw [settings, emulations, timerUpdateCallback_eq h]
    cases emulation (a.encoders type) a.pulseJoiner with
    | none => rfl
    | some r =>
      have hnext := ih (a := { a with
        encoders := Function.update a.encoders type r.2.1
        pulseJoiner := r.2.2 }) h
      simp only [Function.update_self] at hnext
      rw [Option.map_some, Option.bind_some, Option.bind_some, hnext]

/-- What holds in every state: the joiner holds a pending shape; or it holds nothing, no bit clock
has run, and the current encoder begins high. -/
structure Inv (a : RfidTimerEmulator) : Prop where
  lag_lt : ∀ type, (a.encoders type).lag < 16
  joiner : (a.pulseJoiner.Holds [] ∧ ∀ type, (a.encoders type).lag = 0) ∨
    ∃ l, Shape 64 l ∧ a.pulseJoiner.Holds l
  current : a.registered → ∃ type, a.currentEncoder = some type ∧
    (a.pulseJoiner.Holds [] → (a.encoders type).getNext.1.polarity = true)

theorem inv_new : new.Inv where
  lag_lt := by rintro (_ | _ | _) <;> exact Nat.succ_pos 15
  joiner := .inl ⟨holds_init, by rintro (_ | _ | _) <;> rfl⟩
  current := by rintro ⟨⟩

theorem polarity_init : e.init.getNext.1.polarity = true := by
  cases type with
  | em =>
    have hem : (Encoder.new .em).init.getNext.1.polarity = true := by decide +kernel
    exact hem
  | hidH10301 =>
    show (EncoderHIDH10301.getNext _).1.polarity = true
    unfold EncoderHIDH10301.getNext
    split <;> rfl
  | indala40134 => rfl

theorem lag_init : e.init.lag = e.lag := by
  cases type with
  | em => simp only [Encoder.lag]
  | hidH10301 => simp only [Encoder.lag]
  | indala40134 => simp only [Encoder.lag, Encoder.init, EncoderIndala40134.init]

theorem lag_getNext (h : e.lag < 16) : e.getNext.2.lag < 16 := by
  cases type with
  | em => exact h
  | hidH10301 => exact h
  | indala40134 =>
    show (EncoderIndala40134.getNext e).2.bitClockIndex < 16
    unfold EncoderIndala40134.getNext
    simp only
    split
    · exact Nat.succ_pos 15
    · next hlt =>
      simp only [EncoderIndala40134.clockPerBit] at hlt
      simp only
      omega

theorem lag_after (h : e.lag < 16) (n : ℕ) : (e.after n).lag < 16 := by
  induction n generalizing e with
  | zero => exact h
  | succ n ih => exact ih (lag_getNext h)

theorem lag_update {P : ℕ → Prop} {encoders : (type : EmulatorType) → Encoder type}
    (h : ∀ type, P (encoders type).lag) (he : P e.lag) (type' : EmulatorType) :
    P (Function.update encoders type e type').lag := by
  by_cases htype : type' = type
  · subst htype
    rwa [Function.update_self]
  · rw [Function.update_of_ne htype]
    exact h type'

theorem Inv.start (h : a.Inv) (hstart : a.start type = some a') :
    a'.Inv ∧ a'.currentEncoder = some type ∧ a'.encoders type = (a.encoders type).init ∧
      a'.pulseJoiner = a.pulseJoiner := by
  rw [RfidTimerEmulator.start] at hstart
  split at hstart
  · cases hstart
  · cases hstart
    refine ⟨⟨?_, ?_, ?_⟩, rfl, Function.update_self .., rfl⟩
    · exact lag_update (P := (· < 16)) h.lag_lt (by rw [lag_init]; exact h.lag_lt type)
    · rcases h.joiner with ⟨hempty, hlag⟩ | hshape
      · exact .inl ⟨hempty, lag_update (P := (· = 0)) hlag (by rw [lag_init]; exact hlag type)⟩
      · exact .inr hshape
    · refine fun _ => ⟨type, rfl, fun _ => ?_⟩
      simp only [Function.update_self]
      exact polarity_init

theorem Inv.timerUpdateCallback (h : a.Inv) (hregistered : a.registered = true) :
    ∃ r, a.timerUpdateCallback = some r ∧ r.2.Inv ∧ r.2.registered = true := by
  obtain ⟨type, hcurrent, hhigh⟩ := h.current hregistered
  have hemulation : ∃ (e : Encoder type) (s : PulseJoiner) (l : List Pulse), e.lag < 16 ∧
      Shape 64 l ∧ s.Holds l ∧ emulation (a.encoders type) a.pulseJoiner = emulation e s := by
    rcases h.joiner with ⟨hempty, -⟩ | ⟨l, hshape, hholds⟩
    · obtain ⟨s, hs, hshape, heq⟩ := hempty.first_push (hhigh hempty)
      exact ⟨_, s, _, lag_getNext (h.lag_lt type), hshape, hs, heq⟩
    · exact ⟨_, _, l, h.lag_lt type, hshape, hholds, rfl⟩
  obtain ⟨e, s, l, hlag, hshape, hs, heq⟩ := hemulation
  obtain ⟨j, p, r, hr, -, -, hstep⟩ := hshape.emulation e
  obtain ⟨s', hs', hholds⟩ := hstep s hs
  refine ⟨_, by rw [timerUpdateCallback_eq hcurrent, heq, hs']; rfl,
    ⟨?_, .inr ⟨r, hr, hholds⟩, ?_⟩, hregistered⟩
  · exact lag_update (P := (· < 16)) h.lag_lt (lag_after hlag j)
  · refine fun _ => ⟨type, hcurrent, fun hnil => ?_⟩
    have hlength := hholds.length.symm.trans hnil.length
    exact absurd (List.length_eq_zero_iff.mp hlength) hr.ne_nil

theorem Inv.step (h : a.Inv) {event : Event} (hstep : a.step event = some a') : a'.Inv := by
  cases event with
  | start type => exact (h.start hstep).1
  | stop =>
    cases hstep
    exact ⟨h.lag_lt, h.joiner, by rintro ⟨⟩⟩
  | interrupt emulate =>
    rw [RfidTimerEmulator.step] at hstep
    split at hstep
    · next hboth =>
      obtain ⟨r, hr, hinv, -⟩ := h.timerUpdateCallback (Bool.and_eq_true _ _ ▸ hboth).1
      rw [hr] at hstep
      cases hstep
      exact hinv
    · cases hstep
      exact h

theorem Inv.history (h : a.Inv) {history : List Event}
    (hrun : history.foldlM RfidTimerEmulator.step a = some a') : a'.Inv := by
  induction history generalizing a with
  | nil =>
    cases hrun
    exact h
  | cons event history ih =>
    obtain ⟨b, hstep, hrest⟩ := Option.bind_eq_some_iff.mp hrun
    exact ih (h.step hstep) hrest

/-- What the interrupts set after a start is what they set in a new emulator after that start. -/
def SameAsNew (a : RfidTimerEmulator) (type : EmulatorType) : Prop :=
  ∀ n, a.settings n = (new.start type).bind (settings n)

theorem new_settings (type : EmulatorType) :
    ∃ s, Holds s (Encoder.new type).init.getNext.1.push.waveform ∧
      Shape 64 (Encoder.new type).init.getNext.1.push.waveform ∧
      ∀ n, (new.start type).bind (settings n) =
        emulations n (Encoder.new type).init.getNext.2 s := by
  obtain ⟨fresh, hfresh⟩ : ∃ fresh, new.start type = some fresh := ⟨_, rfl⟩
  obtain ⟨-, hcurrent, hencoder, hjoiner⟩ := inv_new.start hfresh
  obtain ⟨s, hs, hshape, heq⟩ := holds_init.first_push (polarity_init (e := Encoder.new type))
  refine ⟨s, hs, hshape, fun n => ?_⟩
  rw [hfresh, Option.bind_some, settings_eq hcurrent, hencoder, hjoiner]
  exact emulations_congr heq n

theorem sent_first : sent e.getNext.1.push.waveform e.getNext.2 t = e.level t := by
  have hlt : t < (e.wave (t + 1)).length := le_length_wave
  rw [level, wave_succ, ← getElem?_sent (n := t)]
  rwa [← wave_succ]

theorem Inv.isSome_settings (h : a.Inv) (hregistered : a.registered = true) (n : ℕ) :
    (settings n a).isSome := by
  induction n generalizing a with
  | zero => rfl
  | succ n ih =>
    obtain ⟨r, hr, hinv, hnext⟩ := h.timerUpdateCallback hregistered
    rw [settings, hr, Option.bind_some, Option.isSome_map]
    exact ih hinv hnext

/-- After any history, an emulation that is started sets what a new emulator sets iff nothing is
pending, or one cycle of an Indala card is and its bit clock is ahead by it. -/
theorem emulation_restarts_iff (history : List Event) (type : EmulatorType)
    (hhistory : history.foldlM RfidTimerEmulator.step new = some a)
    (hstart : a.start type = some a') :
    (∀ n, (a'.settings n).isSome) ∧ (a'.SameAsNew type ↔ a.Clean type) := by
  have hinv := inv_new.history hhistory
  obtain ⟨hinv', hcurrent, hencoder, hjoiner⟩ := hinv.start hstart
  obtain ⟨s₀, hs₀, hshape₀, hnew⟩ := new_settings type
  have hsettings (n : ℕ) : a'.settings n = emulations n (a.encoders type).init a.pulseJoiner := by
    rw [settings_eq hcurrent, hencoder, hjoiner]
  have hregistered : a'.registered = true := by
    rw [RfidTimerEmulator.start] at hstart
    split at hstart <;> cases hstart
    rfl
  refine ⟨hinv'.isSome_settings hregistered, ?_⟩
  simp only [SameAsNew, hsettings, hnew]
  constructor
  · intro hsame
    rcases hinv.joiner with ⟨hempty, -⟩ | ⟨l, hshape, hholds⟩
    · exact .inl hempty.length
    · obtain ⟨htype, hl, hlag⟩ := hshape.clean_of_sent (hinv.lag_lt type) fun t =>
        (hshape.sent_eq hshape₀ hholds hs₀ hsame t).trans sent_first
      subst htype
      exact .inr ⟨rfl, hholds.pending.trans hl, hlag⟩
  · rintro (hzero | ⟨htype, hpending, hlag⟩) n
    · rcases hinv.joiner with ⟨hempty, hlag⟩ | ⟨l, hshape, hholds⟩
      · have hinit := init_eq (hinv.lag_lt type)
        rw [hlag type] at hinit
        obtain ⟨s, hs, hshape, heq⟩ := hempty.first_push (polarity_init (e := a.encoders type))
        rw [hinit] at hs hshape heq ⊢
        exact (emulations_congr heq n).trans (hshape.emulations_eq hs hs₀ n)
      · have hlength := hholds.length.symm.trans hzero
        exact absurd (List.length_eq_zero_iff.mp hlength) hshape.ne_nil
    · subst htype
      rcases hinv.joiner with ⟨-, hnone⟩ | ⟨l, hshape, hholds⟩
      · exact absurd ((hnone .indala40134).symm.trans hlag) (by decide)
      · have hinit := init_eq (hinv.lag_lt .indala40134)
        obtain rfl : l = _ := hholds.pending.symm.trans hpending
        rw [hlag] at hinit
        rw [hinit]
        exact hshape.emulations_eq hholds hs₀ n

/-- One interrupt of an EM card, and then a HID card. -/
def emThenHid : List Event := [.start .em, .interrupt true, .stop]

theorem emulation_restarts_em_hid : ∃ a a' : RfidTimerEmulator,
    emThenHid.foldlM RfidTimerEmulator.step new = some a ∧ a.start .hidH10301 = some a' ∧
      (∀ n, (a'.settings n).isSome) ∧ ¬ a'.SameAsNew .hidH10301 := by
  have hrun : (emThenHid.foldlM RfidTimerEmulator.step new).map
      (fun a => (a.registered, a.pulseJoiner.pulseIndex)) = some (false, 2) := by decide +kernel
  obtain ⟨a, hhistory, ha⟩ := Option.map_eq_some_iff.mp hrun
  obtain ⟨hregistered, hindex⟩ := Prod.mk.inj ha
  obtain ⟨a', hstart⟩ : ∃ a', a.start .hidH10301 = some a' := by
    rw [RfidTimerEmulator.start, hregistered]
    exact ⟨_, rfl⟩
  obtain ⟨hsome, hiff⟩ := emulation_restarts_iff emThenHid .hidH10301 hhistory hstart
  refine ⟨a, a', hhistory, hstart, hsome, fun hsame => ?_⟩
  rcases hiff.mp hsame with hzero | ⟨htype, -⟩
  · exact absurd (hindex.symm.trans hzero) (by decide)
  · cases htype

/-- The first pulse that the HID card sends is one of the EM card. -/
theorem emulation_starts_with_remainder :
    ((emThenHid.foldlM RfidTimerEmulator.step new).bind fun a =>
        (a.start .hidH10301).bind (settings 1)) = some [⟨63, 32⟩] ∧
      (new.start .hidH10301).bind (settings 1) = some [⟨7, 4⟩] := by
  constructor
  · decide +kernel
  · decide +kernel

end RfidTimerEmulator

end FlipperZero.LfRfid
