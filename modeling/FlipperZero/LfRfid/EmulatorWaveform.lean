import FlipperZero.LfRfid.RfidTimerEmulator

/-! # The waveform of an emulation

The pulses set in the timer make up what the joiner held at the start, followed by the waveform of
the encoder, clock by clock. Two pushes are enough for a pulse when something is pending.
-/

namespace FlipperZero.LfRfid

open Lib PulseJoiner

def signal (l : List Pulse) : List Bool := expand (l.map Pulse.segment)

variable {l r hs ls : List Pulse} {s s' : PulseJoiner} {p : PopPulse} {type : EmulatorType}
variable {e : Encoder type} {m n t : ℕ}

theorem signal_append : signal (l ++ r) = signal l ++ signal r := by
  rw [signal, List.map_append, expand_append]
  rfl

theorem length_signal : (signal l).length = times l := by
  rw [signal, length_expand, List.map_map]
  rfl

theorem signal_block {b : Bool} (h : ∀ p ∈ l, p.polarity = b) :
    signal l = List.replicate (times l) b := by
  rw [signal, expand_block (a := b) (by simpa [Pulse.segment] using h), List.map_map]
  rfl

theorem getElem?_signal_cons {q : Pulse} :
    (signal (q :: l))[t]? = if t < q.time then some q.polarity else (signal l)[t - q.time]? := by
  have hcons : signal (q :: l) = List.replicate q.time q.polarity ++ signal l := rfl
  rw [hcons, List.getElem?_append, List.length_replicate]
  split
  · next hlt => exact List.getElem?_replicate_of_lt hlt
  · rfl

theorem PopPulse.signal_waveform :
    signal p.waveform =
      List.replicate p.pulse true ++ List.replicate (p.period - p.pulse) false := by
  simp [signal, expand, PopPulse.waveform, Pulse.segment]

theorem PulseJoiner.Pops.signal_eq (h : Pops 64 l p r) :
    signal l = signal p.waveform ++ signal r := by
  obtain ⟨hh, hl, -, -, -, -⟩ := h
  rw [signal_append, signal_append, signal_block hh, signal_block hl, PopPulse.signal_waveform,
    Nat.add_sub_cancel_left]

namespace Encoder

theorem within_mk {b : Bool} {period pulse : ℕ} (h : 0 < pulse ∧ pulse < period ∧ period ≤ 64) :
    (⟨b, period, pulse⟩ : PushPulse).Within 64 := ⟨h.1, h.2.1, h.2.2⟩

theorem getNext_within : e.getNext.1.push.Within 64 := by
  cases type with
  | em =>
    show (PushPulse.mk _ 64 32).Within 64
    exact within_mk (by decide)
  | hidH10301 =>
    show (EncoderHIDH10301.getNext e).1.push.Within 64
    unfold EncoderHIDH10301.getNext
    split
    · show (PushPulse.mk _ 10 5).Within 64
      exact within_mk (by decide)
    · show (PushPulse.mk _ 8 4).Within 64
      exact within_mk (by decide)
  | indala40134 =>
    show (PushPulse.mk _ 2 1).Within 64
    exact within_mk (by decide)

/-- The waveform of the first `n` pulses. -/
def wave (n : ℕ) (e : Encoder type) : List Bool :=
  signal ((e.pulses n).flatMap PushPulse.waveform)

theorem wave_succ : e.wave (n + 1) = signal e.getNext.1.push.waveform ++ e.getNext.2.wave n := by
  rw [wave, pulses, List.flatMap_cons, signal_append]
  rfl

theorem after_add : e.after (m + n) = (e.after m).after n := by
  induction m generalizing e with
  | zero => rw [Nat.zero_add]; rfl
  | succ m ih => rw [Nat.succ_add]; exact ih

theorem wave_add : e.wave (m + n) = e.wave m ++ (e.after m).wave n := by
  induction m generalizing e with
  | zero => rw [Nat.zero_add]; rfl
  | succ m ih => rw [Nat.succ_add, wave_succ, wave_succ, ih, List.append_assoc]; rfl

theorem le_length_wave : n ≤ (e.wave n).length := by
  induction n generalizing e with
  | zero => exact Nat.zero_le _
  | succ n ih =>
    have hlt := (getNext_within (e := e)).lt
    have hpush : 0 < (signal e.getNext.1.push.waveform).length := by
      rw [length_signal]
      simp only [times, PushPulse.waveform, List.map_cons, List.map_nil, List.sum_cons,
        List.sum_nil]
      omega
    have hrest := ih (e := e.getNext.2)
    rw [wave_succ, List.length_append]
    omega

theorem wave_initial (h : m ≤ n) : e.wave m <+: e.wave n := by
  obtain ⟨k, rfl⟩ := Nat.exists_eq_add_of_le h
  exact ⟨(e.after m).wave k, wave_add.symm⟩

def level (e : Encoder type) (t : ℕ) : Option Bool := (e.wave (t + 1))[t]?

theorem getElem?_wave (h : t < (e.wave n).length) : (e.wave n)[t]? = e.level t := by
  have hlength : t < (e.wave (t + 1)).length := le_length_wave
  rcases Nat.le_total n (t + 1) with hle | hle
  · rw [level, List.getElem?_eq_getElem h, List.getElem?_eq_getElem hlength,
      (wave_initial hle).getElem h]
  · rw [level, List.getElem?_eq_getElem h, List.getElem?_eq_getElem hlength,
      (wave_initial hle).getElem hlength]

theorem level_after : (e.after m).level t = e.level ((e.wave m).length + t) := by
  have hlength : t < ((e.after m).wave (t + 1)).length := le_length_wave
  have hall : (e.wave m).length + t < (e.wave (m + (t + 1))).length := by
    rw [wave_add, List.length_append]
    omega
  rw [← getElem?_wave hall, ← getElem?_wave hlength, wave_add (m := m) (n := t + 1),
    List.getElem?_append_right (Nat.le_add_right _ _), Nat.add_sub_cancel_left]

end Encoder

open Encoder

/-- What is sent in a clock when `l` is pending. -/
def sent (l : List Pulse) (e : Encoder type) (t : ℕ) : Option Bool :=
  if t < times l then (signal l)[t]? else e.level (t - times l)

theorem getElem?_sent (h : t < (signal l ++ e.wave n).length) :
    (signal l ++ e.wave n)[t]? = sent l e t := by
  rw [List.length_append, length_signal] at h
  rw [sent]
  split
  · next hlt =>
    exact List.getElem?_append_left (length_signal ▸ hlt)
  · next hge =>
    rw [List.getElem?_append_right (by rw [length_signal]; omega), length_signal]
    exact getElem?_wave (by omega)

theorem pushUntil_succ {r : Encoder type × PulseJoiner} (h : pushUntil n e s = some r) :
    pushUntil (n + 1) e s = some r := by
  induction n generalizing e s with
  | zero => cases h
  | succ n ih =>
    rw [pushUntil] at h ⊢
    cases hpush : s.pushPulse e.getNext.1.push with
    | none => simp [hpush] at h
    | some result =>
      rw [hpush, Option.bind_some] at h
      rw [Option.bind_some]
      split at h
      · next hresult => rw [if_pos hresult, h]
      · next hresult =>
        rw [if_neg hresult]
        exact ih h

/-- The bounds of what is popped when no period is longer than 64. -/
def PopPulse.Proper (p : PopPulse) : Prop :=
  0 < p.pulse ∧ p.pulse < p.period ∧ p.period + 2 ≤ 3 * 64

theorem PulseJoiner.Shape.pushUntil (h : Shape 64 l) (e : Encoder type) :
    ∃ (j : ℕ) (p : PopPulse) (r : List Pulse), Shape 64 r ∧ p.Proper ∧
      signal l ++ e.wave j = signal p.waveform ++ signal r ∧
      ∀ s, Holds s l → ∃ s' s'', pushUntil 2 e s = some (e.after j, s') ∧
        s'.popPulse = some (p, s'') ∧ s''.Holds r := by
  have hfit {p : PopPulse} (hp : p.pulse < p.period ∧ p.period + 2 ≤ 3 * 64) : p.toUInt16 = p := by
    have hperiod : p.period % 2 ^ 16 = p.period := Nat.mod_eq_of_lt (by omega)
    have hpulse : p.pulse % 2 ^ 16 = p.pulse := Nat.mod_eq_of_lt (by omega)
    rw [PopPulse.toUInt16, hperiod, hpulse]
  have hwave : e.wave 1 = signal e.getNext.1.push.waveform := by
    rw [wave_succ]
    exact List.append_nil _
  have hlt := (getNext_within (e := e)).lt
  rcases h.push (getNext_within (e := e)) with ⟨hsh, hres⟩ | ⟨p, r, hpops, hsh, hres⟩
  · have hlt' := (getNext_within (e := e.getNext.2)).lt
    rcases hsh.push (getNext_within (e := e.getNext.2)) with ⟨hlong, -⟩ | ⟨p, r, hpops, hsh', hres'⟩
    · have hlength := hlong.length_le
      have hpos := List.length_pos_iff.mpr h.ne_nil
      simp only [List.length_append, PushPulse.waveform, List.length_cons, List.length_nil]
        at hlength
      omega
    · refine ⟨2, p, r, hsh', hpops.bounds, ?_, ?_⟩
      · rw [← hpops.signal_eq, wave_succ, wave_succ, signal_append, signal_append]
        simp [wave, Encoder.pulses, signal, expand]
      · intro s hs
        obtain ⟨s₁, hs₁, hl₁⟩ := hs.push (.inr h.ne_nil) h.length_le hlt
        obtain ⟨s₂, hs₂, hl₂⟩ := hl₁.push (.inr hsh.ne_nil) hsh.length_le hlt'
        obtain ⟨s₃, hs₃, hl₃⟩ := hl₂.pops hpops
        refine ⟨s₂, s₃, ?_, hfit hpops.bounds.2 ▸ hs₃, hl₃⟩
        simp [LfRfid.pushUntil, hs₁, hres s₁ hl₁, hs₂, hres' s₂ hl₂, Encoder.after]
  · refine ⟨1, p, r, hsh, hpops.bounds, ?_, ?_⟩
    · rw [← hpops.signal_eq, hwave, signal_append]
    · intro s hs
      obtain ⟨s₁, hs₁, hl₁⟩ := hs.push (.inr h.ne_nil) h.length_le hlt
      obtain ⟨s₂, hs₂, hl₂⟩ := hl₁.pops hpops
      refine ⟨s₁, s₂, ?_, hfit hpops.bounds.2 ▸ hs₂, hl₂⟩
      simp [LfRfid.pushUntil, hs₁, hres s₁ hl₁, Encoder.after]

def emulation (e : Encoder type) (s : PulseJoiner) :
    Option (EmulateSetting × Encoder type × PulseJoiner) :=
  (pushUntil maxPushes e s).bind fun r => r.2.popPulse.map fun p => (p.1.setting, r.1, p.2)

def emulations : ℕ → Encoder type → PulseJoiner → Option (List EmulateSetting)
  | 0, _, _ => some []
  | n + 1, e, s => (emulation e s).bind fun r => (emulations n r.2.1 r.2.2).map (r.1 :: ·)

theorem PulseJoiner.Shape.emulation (h : Shape 64 l) (e : Encoder type) :
    ∃ (j : ℕ) (p : PopPulse) (r : List Pulse), Shape 64 r ∧ p.Proper ∧
      signal l ++ e.wave j = signal p.waveform ++ signal r ∧
      ∀ s, Holds s l →
        ∃ s', LfRfid.emulation e s = some (p.setting, e.after j, s') ∧ s'.Holds r := by
  obtain ⟨j, p, r, hsh, hbounds, hsignal, hpush⟩ := h.pushUntil e
  refine ⟨j, p, r, hsh, hbounds, hsignal, fun s hs => ?_⟩
  obtain ⟨s', s'', hs', hs'', hr⟩ := hpush s hs
  refine ⟨s'', ?_, hr⟩
  rw [LfRfid.emulation, maxPushes, pushUntil_succ hs', Option.bind_some, hs'']
  rfl

/-- The pulses of a run, and the waveform that they make up, are those of what is pending and of
the encoder. -/
theorem PulseJoiner.Shape.emulations (h : Shape 64 l) (e : Encoder type) (n : ℕ) :
    ∃ (qs : List PopPulse) (m : ℕ) (r : List Pulse), qs.length = n ∧
      (∀ q ∈ qs, q.Proper) ∧
      signal l ++ e.wave m = signal (qs.flatMap PopPulse.waveform) ++ signal r ∧
      ∀ s, Holds s l → LfRfid.emulations n e s = some (qs.map PopPulse.setting) := by
  induction n generalizing l e with
  | zero => exact ⟨[], 0, l, rfl, by simp, by simp [wave, Encoder.pulses, signal, expand],
      fun s _ => rfl⟩
  | succ n ih =>
    obtain ⟨j, p, r, hsh, hbounds, hsignal, hstep⟩ := h.emulation e
    obtain ⟨qs, m, r', hlength, hqs, hsignal', hrun⟩ := ih hsh (e.after j)
    refine ⟨p :: qs, j + m, r', by simp [hlength], List.forall_mem_cons.mpr ⟨hbounds, hqs⟩, ?_, ?_⟩
    · rw [wave_add, ← List.append_assoc, hsignal, List.append_assoc, hsignal', List.flatMap_cons,
        signal_append, List.append_assoc]
    · intro s hs
      obtain ⟨s', hs', hr⟩ := hstep s hs
      rw [LfRfid.emulations, hs', Option.bind_some, hrun s' hr]
      rfl

theorem setting_injective {p q : PopPulse} (hp : p.Proper) (hq : q.Proper)
    (h : p.setting = q.setting) : p = q := by
  obtain ⟨period, pulse⟩ := p
  obtain ⟨period', pulse'⟩ := q
  simp only [PopPulse.setting, EmulateSetting.mk.injEq] at h
  simp only [PopPulse.Proper] at hp hq
  obtain rfl : pulse = pulse' := h.2
  obtain rfl : period = period' := by omega
  rfl

theorem le_length_waveforms {qs : List PopPulse} (h : ∀ q ∈ qs, 0 < q.pulse) :
    qs.length ≤ (signal (qs.flatMap PopPulse.waveform)).length := by
  induction qs with
  | nil => exact Nat.zero_le _
  | cons q qs ih =>
    have hq := h q List.mem_cons_self
    have hqs := ih fun q hq => h q (List.mem_cons_of_mem _ hq)
    rw [List.flatMap_cons, signal_append, List.length_append, PopPulse.signal_waveform,
      List.length_append, List.length_replicate, List.length_cons]
    omega

theorem PulseJoiner.Shape.sent_eq {l' : List Pulse} {e' : Encoder type} (h : Shape 64 l)
    (h' : Shape 64 l') (hs : Holds s l) (hs' : Holds s' l')
    (heq : ∀ n, LfRfid.emulations n e s = LfRfid.emulations n e' s') (t : ℕ) :
    sent l e t = sent l' e' t := by
  obtain ⟨qs, m, r, hlength, hqs, hsignal, hrun⟩ := h.emulations e (t + 1)
  obtain ⟨qs', m', r', hlength', hqs', hsignal', hrun'⟩ := h'.emulations e' (t + 1)
  have hsettings : qs.map PopPulse.setting = qs'.map PopPulse.setting :=
    Option.some.inj ((hrun s hs).symm.trans ((heq _).trans (hrun' s' hs')))
  have hsame : qs = qs' := by
    refine List.ext_getElem (hlength.trans hlength'.symm) fun i hi hi' => ?_
    have hget := List.getElem_of_eq hsettings (i := i) (by simpa using hi)
    rw [List.getElem_map, List.getElem_map] at hget
    exact setting_injective (hqs _ (List.getElem_mem hi)) (hqs' _ (List.getElem_mem hi')) hget
  subst hsame
  have hlt : t < (signal (qs.flatMap PopPulse.waveform)).length := by
    have hle := le_length_waveforms fun q hq => (hqs q hq).1
    omega
  have hget : (signal l ++ e.wave m)[t]? = (signal l' ++ e'.wave m')[t]? := by
    rw [hsignal, hsignal', List.getElem?_append_left hlt, List.getElem?_append_left hlt]
  rwa [getElem?_sent (by rw [hsignal, List.length_append]; omega),
    getElem?_sent (by rw [hsignal', List.length_append]; omega)] at hget

/-- With nothing pending and a high pulse to come, the callback is the same after that pulse. -/
theorem PulseJoiner.Holds.first_push (hs : Holds s []) (hhigh : e.getNext.1.polarity = true) :
    ∃ s', Holds s' e.getNext.1.push.waveform ∧ Shape 64 e.getNext.1.push.waveform ∧
      emulation e s = emulation e.getNext.2 s' := by
  have hwithin := getNext_within (e := e)
  obtain ⟨s', hpush, hs'⟩ := hs.push (.inl hhigh) (Nat.zero_le 3) hwithin.lt
  have hshape : Shape 64 e.getNext.1.push.waveform := by
    rw [PushPulse.waveform, show e.getNext.1.push.polarity = true from hhigh]
    have hle := hwithin.le
    have hlt := hwithin.lt
    exact .cycle hwithin.pos (by omega) (by omega)
  have hresult : s'.pushResult = false := hs'.result
  obtain ⟨j, p, r, -, -, -, hloop⟩ := hshape.pushUntil e.getNext.2
  obtain ⟨s₁, s₂, hloop, -, -⟩ := hloop s' hs'
  have hfirst : pushUntil maxPushes e s = some ((e.getNext.2).after j, s₁) := by
    rw [maxPushes, LfRfid.pushUntil, hpush, hresult, Option.bind_some,
      if_neg Bool.false_ne_true, hloop]
  have hsecond : pushUntil maxPushes e.getNext.2 s' = some ((e.getNext.2).after j, s₁) :=
    pushUntil_succ hloop
  exact ⟨s', hs', hshape, by rw [emulation, emulation, hfirst, hsecond]⟩

theorem PulseJoiner.Shape.emulations_eq (h : Shape 64 l) (hs : Holds s l) (hs' : Holds s' l)
    (n : ℕ) :
    LfRfid.emulations n e s = LfRfid.emulations n e s' := by
  obtain ⟨qs, -, -, -, -, -, hrun⟩ := h.emulations e n
  rw [hrun s hs, hrun s' hs']

theorem emulations_congr {e' : Encoder type} (h : emulation e s = emulation e' s') (n : ℕ) :
    emulations n e s = emulations n e' s' := by
  cases n with
  | zero => rfl
  | succ n => rw [emulations, emulations, h]

end FlipperZero.LfRfid
