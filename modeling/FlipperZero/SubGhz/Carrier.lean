import FlipperZero.Firmware.SubghzRadio
import FlipperZero.Lib.Decimal
import FlipperZero.Lib.Loop

/-! # The carrier commands

Both commands take a frequency in Hz, start the radio on it and wait to be interrupted. The bands
of the antenna paths are in MHz, the frequency they are compared with is not, and a number with a
sign may come back from its conversion as a frequency that is allowed.
-/

namespace FlipperZero.SubGhz

open Firmware Lib
open Firmware.Cc1101Spi (Reset)

structure SubGhzFrequency where
  frequency : UInt32
  path : ApiHalSubGhzPath
  deriving DecidableEq, Repr

def subghzFrequencies : List SubGhzFrequency :=
  [⟨301000000, .path315⟩, ⟨315000000, .path315⟩, ⟨346000000, .path315⟩, ⟨385000000, .path315⟩,
    ⟨433075000, .path433⟩, ⟨433920000, .path433⟩, ⟨434775000, .path433⟩, ⟨438900000, .path433⟩,
    ⟨463000000, .path433⟩, ⟨781000000, .path868⟩, ⟨868350000, .path868⟩, ⟨915000000, .path868⟩,
    ⟨925000000, .path868⟩]

/-- The ways a command ends before the radio is started. -/
inductive Refusal
  | usage (ret : ℤ)
  | range (frequency : UInt32)
  deriving DecidableEq, Repr

def requested (args : List Byte) : Except Refusal UInt32 :=
  match sscanfLu args with
  | .error ret => .error (.usage ret)
  | .ok frequency =>
    if frequency < 300000000 ∨ frequency > 925000000 then .error (.range frequency)
    else .ok frequency

/-- The path for the frequency that the radio is set to. -/
def pathFor (frequency : UInt32) : ApiHalSubGhzPath :=
  if frequency < 400 then .path315
  else if frequency < 500 then .path433
  else .path868

/-- What the commands do to start the radio, after each wait, and when they are interrupted. -/
structure Carrier where
  start : SubghzRadio → SubghzRadio
  poll : SubghzRadio → SubghzRadio
  stop : SubghzRadio → SubghzRadio

variable (reset : Reset) (carrier : Carrier) (args : List Byte) (radio : SubghzRadio)

def tune (frequency : UInt32) : Option SubghzRadio :=
  let radio := (radio.apiHalSubghzReset reset).apiHalSubghzLoadPreset reset .ookAsync
  (radio.apiHalSubghzSetFrequency reset frequency).map fun (frequency, radio) =>
    radio.apiHalSubghzSetPath reset (pathFor frequency)

/-- The radio at the start of the wait; `none` where a check of the driver fails. -/
def begin : Except Refusal (Option SubghzRadio) :=
  (requested args).map fun frequency => (tune reset radio frequency).map carrier.start

/-- A round of the wait, with the answers that `cli_cmd_interrupt_received` gives. -/
def wait (interrupted : ℕ → Bool) : ℕ × SubghzRadio → SubghzRadio ⊕ (ℕ × SubghzRadio)
  | (i, radio) =>
    if interrupted i then .inl (carrier.stop radio) else .inr (i + 1, carrier.poll radio)

/-- The radio when the command is left, after so many rounds at most. -/
def command (interrupted : ℕ → Bool) (rounds : ℕ) : Option SubghzRadio :=
  match begin reset carrier args radio with
  | .error _ => some radio
  | .ok none => none
  | .ok (some radio) => loop (wait carrier interrupted) rounds (0, radio)

def subghzCliCommandTxCarrier : Carrier where
  start radio := ((radio.halGpioInit .outputPushPull).halGpioWrite false).apiHalSubghzTx reset
  poll radio := radio
  stop radio :=
    ((radio.apiHalSubghzReset reset).apiHalSubghzSetPath reset .pathIsolate).halGpioInit .analog

def subghzCliCommandRxCarrier : Carrier where
  start radio := (radio.halGpioInit .analog).apiHalSubghzRx reset
  poll radio := radio.apiHalSubghzGetRssi reset
  stop radio := (radio.apiHalSubghzReset reset).apiHalSubghzSetPath reset .pathIsolate

def bandPath (frequency : ℤ) : ApiHalSubGhzPath :=
  if frequency < 400000000 then .path315
  else if frequency < 500000000 then .path433
  else .path868

/-- The radio is started for the numbers of the range alone, on the path of their band, and every
exit leaves it quiet. -/
structure CarrierSafe : Prop where
  started : (∃ radio', begin reset carrier args radio = .ok (some radio') ∧ radio'.mode.Active) ↔
    ∃ v, BeginsWithNumber args v ∧ 300000000 ≤ v ∧ v ≤ 925000000
  path : ∀ v radio', BeginsWithNumber args v → begin reset carrier args radio = .ok (some radio') →
    radio'.Selects (bandPath v)
  exits : ∀ interrupted rounds radio',
    command reset carrier args radio interrupted rounds = some radio' → radio'.Quiet

/-- No number of a band below the last one, none that comes back from the conversion in the range
without being there, and nothing left on where the command is refused. -/
structure InLastBand : Prop where
  number : ∀ v, BeginsWithNumber args v →
    (v < 300000000 ∨ 500000000 ≤ v) ∧ ¬(-3994967296 ≤ v ∧ v ≤ -3369967296)
  refused : (∀ v, BeginsWithNumber args v → ¬(300000000 ≤ v ∧ v ≤ 925000000)) → radio.Quiet

/-- The parts of a command that its safety rests on. -/
structure Carrier.Stops (carrier : Carrier) (P : SubghzRadio → Prop) : Prop where
  active : ∀ radio, (carrier.start radio).mode.Active
  selects : ∀ radio path, radio.Selects path → (carrier.start radio).Selects path
  start : ∀ radio, P (carrier.start radio)
  poll : ∀ radio, P radio → P (carrier.poll radio)
  stop : ∀ radio, P radio → (carrier.stop radio).Quiet

variable {reset carrier args radio}

theorem bandPath_subghzFrequencies : ∀ entry ∈ subghzFrequencies,
    bandPath entry.frequency.toNat = entry.path := by
  decide

theorem quiet_setPath_reset (hg0 : radio.g0 = .analog) :
    ((radio.apiHalSubghzReset reset).apiHalSubghzSetPath reset .pathIsolate).Quiet := by
  constructor
  · rintro (h | h) <;> cases h
  · exact SubghzRadio.apiHalSubghzSetPath_selects _
  · exact hg0

theorem tx_stops : (subghzCliCommandTxCarrier reset).Stops fun _ => True := by
  constructor
  · exact fun radio => Or.inr rfl
  · exact fun radio path h => h
  · exact fun radio => trivial
  · exact fun radio h => h
  · intro radio h
    have hpath : ((radio.apiHalSubghzReset reset).apiHalSubghzSetPath reset .pathIsolate).Selects
        .pathIsolate := SubghzRadio.apiHalSubghzSetPath_selects _
    constructor
    · rintro (h | h) <;> cases h
    · exact hpath
    · rfl

theorem rx_stops : (subghzCliCommandRxCarrier reset).Stops fun radio => radio.g0 = .analog := by
  constructor
  · exact fun radio => Or.inl rfl
  · exact fun radio path h => h
  · exact fun radio => rfl
  · exact fun radio h => h
  · exact fun radio h => quiet_setPath_reset h

theorem requested_eq_ok_iff {frequency : UInt32} : requested args = .ok frequency ↔
    sscanfLu args = .ok frequency ∧
      300000000 ≤ frequency.toNat ∧ frequency.toNat ≤ 925000000 := by
  have hlow : frequency < 300000000 ↔ frequency.toNat < 300000000 := UInt32.lt_iff_toNat_lt
  have hhigh : frequency > 925000000 ↔ 925000000 < frequency.toNat := UInt32.lt_iff_toNat_lt
  rw [requested]
  cases h : sscanfLu args with
  | error ret => simp
  | ok f =>
    constructor
    · intro hf
      simp only at hf
      split at hf
      · cases hf
      · rename_i hrange
        obtain rfl := Except.ok.inj hf
        rw [hlow, hhigh] at hrange
        exact ⟨rfl, by omega, by omega⟩
    · rintro ⟨hf, hle, hle'⟩
      obtain rfl := Except.ok.inj hf
      simp only
      rw [if_neg (by rw [hlow, hhigh]; omega)]

theorem exists_requested_iff : (∃ frequency, requested args = .ok frequency) ↔
    ∃ v, BeginsWithNumber args v ∧
      (300000000 ≤ v ∧ v ≤ 925000000 ∨ -3994967296 ≤ v ∧ v ≤ -3369967296) := by
  have hrange : ∀ v : ℤ, (300000000 ≤ unsignedOf v ∧ unsignedOf v ≤ 925000000) ↔
      (300000000 ≤ v ∧ v ≤ 925000000 ∨ -3994967296 ≤ v ∧ v ≤ -3369967296) := by
    intro v
    rw [unsignedOf]
    split <;> omega
  constructor
  · rintro ⟨frequency, h⟩
    obtain ⟨hok, hle⟩ := requested_eq_ok_iff.mp h
    obtain ⟨v, hv, heq⟩ := sscanfLu_eq_ok_iff.mp hok
    exact ⟨v, hv, (hrange v).mp (heq ▸ hle)⟩
  · rintro ⟨v, hv, hle⟩
    have hunsigned := (hrange v).mpr hle
    have heq : (UInt32.ofNat (unsignedOf v)).toNat = unsignedOf v := by
      rw [UInt32.toNat_ofNat']
      omega
    refine ⟨.ofNat (unsignedOf v), requested_eq_ok_iff.mpr ⟨?_, by rwa [heq]⟩⟩
    exact sscanfLu_eq_ok_iff.mpr ⟨v, hv, heq⟩

theorem toNat_compensateRounding_le {frequency : UInt32} (hle : frequency.toNat ≤ 925000000) :
    frequency.toNat ≤ (compensateRounding frequency).toNat := by
  rw [compensateRounding]
  split
  · have hstep : Cc1101.getFrequencyStep.toNat = 396 := rfl
    rw [UInt32.toNat_add, hstep]
    omega
  · exact le_rfl

theorem exists_tune (reset : Reset) (radio : SubghzRadio) {frequency : UInt32}
    (hle : 300000000 ≤ frequency.toNat) (hle' : frequency.toNat ≤ 925000000) :
    ∃ radio', tune reset radio frequency = some radio' ∧ radio'.Selects .path868 := by
  obtain ⟨real, tuned, heq, hreal⟩ := ((radio.apiHalSubghzReset reset).apiHalSubghzLoadPreset
    reset .ookAsync).exists_setFrequency reset frequency
  have hcompensated := toNat_compensateRounding_le hle'
  have hbig : 500 ≤ real.toNat := by omega
  have hpath : pathFor real = .path868 := by
    have hfirst : ¬real < 400 := fun h => by
      have := UInt32.lt_iff_toNat_lt.mp h
      simp at this
      omega
    have hsecond : ¬real < 500 := fun h => by
      have := UInt32.lt_iff_toNat_lt.mp h
      simp at this
      omega
    rw [pathFor, if_neg hfirst, if_neg hsecond]
  refine ⟨tuned.apiHalSubghzSetPath reset .path868, ?_, SubghzRadio.apiHalSubghzSetPath_selects _⟩
  rw [tune, heq, ← hpath]
  rfl

theorem exists_begin (reset : Reset) (radio : SubghzRadio) {P : SubghzRadio → Prop}
    (hcarrier : carrier.Stops P) {frequency : UInt32}
    (hrequested : requested args = .ok frequency) :
    ∃ radio', begin reset carrier args radio = .ok (some radio') ∧ radio'.mode.Active ∧
      radio'.Selects .path868 ∧ P radio' := by
  obtain ⟨-, hle, hle'⟩ := requested_eq_ok_iff.mp hrequested
  obtain ⟨tuned, htune, hselects⟩ := exists_tune reset radio hle hle'
  refine ⟨carrier.start tuned, ?_, hcarrier.active _, hcarrier.selects _ _ hselects,
    hcarrier.start _⟩
  rw [begin, hrequested, Except.map, htune]
  rfl

theorem exists_requested_of_begin {radio' : SubghzRadio}
    (h : begin reset carrier args radio = .ok (some radio')) :
    ∃ frequency, requested args = .ok frequency := by
  rw [begin] at h
  cases hrequested : requested args with
  | ok frequency => exact ⟨frequency, rfl⟩
  | error refusal =>
    rw [hrequested] at h
    cases h

theorem command_of_refused (hrefused : ¬∃ frequency, requested args = .ok frequency)
    (interrupted : ℕ → Bool) (rounds : ℕ) :
    command reset carrier args radio interrupted rounds = some radio := by
  cases hrequested : requested args with
  | ok frequency => exact absurd ⟨frequency, hrequested⟩ hrefused
  | error refusal =>
    rw [command, begin, hrequested]
    rfl

theorem quiet_of_loop {P : SubghzRadio → Prop} (hcarrier : carrier.Stops P)
    {interrupted : ℕ → Bool} {rounds : ℕ} {radio' : SubghzRadio} (hP : P radio)
    (h : loop (wait carrier interrupted) rounds (0, radio) = some radio') : radio'.Quiet := by
  apply loop_invariant (P := fun state => P state.2) (Q := SubghzRadio.Quiet) _ _ hP h
  · rintro ⟨i, radio⟩ state hradio hstate
    rw [wait] at hstate
    split at hstate
    · cases hstate
    · obtain rfl := Sum.inr.inj hstate
      exact hcarrier.poll radio hradio
  · rintro ⟨i, radio⟩ stopped hradio hstate
    rw [wait] at hstate
    split at hstate
    · obtain rfl := Sum.inl.inj hstate
      exact hcarrier.stop radio hradio
    · cases hstate

theorem inLastBand_of_safe {P : SubghzRadio → Prop} (hcarrier : carrier.Stops P)
    (hsafe : CarrierSafe reset carrier args radio) : InLastBand args radio := by
  have hrange : (∃ frequency, requested args = .ok frequency) →
      ∃ v, BeginsWithNumber args v ∧ 300000000 ≤ v ∧ v ≤ 925000000 := by
    rintro ⟨frequency, hrequested⟩
    obtain ⟨radio', hbegin, hactive, -⟩ := exists_begin reset radio hcarrier hrequested
    exact hsafe.started.mp ⟨radio', hbegin, hactive⟩
  constructor
  · intro v hv
    have hnegative : ¬(-3994967296 ≤ v ∧ v ≤ -3369967296) := by
      intro hle
      obtain ⟨v', hv', hle'⟩ := hrange (exists_requested_iff.mpr ⟨v, hv, Or.inr hle⟩)
      obtain rfl := hv.unique hv'
      omega
    refine ⟨?_, hnegative⟩
    by_contra hband
    obtain ⟨frequency, hrequested⟩ := exists_requested_iff.mpr ⟨v, hv, Or.inl (by omega)⟩
    obtain ⟨radio', hbegin, -, hlast, -⟩ := exists_begin reset radio hcarrier hrequested
    have hpath := (hsafe.path v radio' hv hbegin).unique hlast
    rw [bandPath] at hpath
    split at hpath
    · cases hpath
    · rw [if_pos (by omega)] at hpath
      cases hpath
  · intro hout
    have hrefused : ¬∃ frequency, requested args = .ok frequency := by
      intro hrequested
      obtain ⟨v, hv, hle⟩ := hrange hrequested
      exact hout v hv hle
    exact hsafe.exits (fun _ => false) 0 radio (command_of_refused hrefused _ _)

theorem safe_of_inLastBand {P : SubghzRadio → Prop} (hcarrier : carrier.Stops P)
    (hband : InLastBand args radio) : CarrierSafe reset carrier args radio := by
  have hrange : (∃ frequency, requested args = .ok frequency) →
      ∃ v, BeginsWithNumber args v ∧ 300000000 ≤ v ∧ v ≤ 925000000 := by
    intro hrequested
    obtain ⟨v, hv, hle | hnegative⟩ := exists_requested_iff.mp hrequested
    · exact ⟨v, hv, hle⟩
    · exact absurd hnegative (hband.number v hv).2
  constructor
  · constructor
    · rintro ⟨radio', hbegin, -⟩
      exact hrange (exists_requested_of_begin hbegin)
    · rintro ⟨v, hv, hle⟩
      obtain ⟨frequency, hrequested⟩ := exists_requested_iff.mpr ⟨v, hv, Or.inl hle⟩
      obtain ⟨radio', hbegin, hactive, -⟩ := exists_begin reset radio hcarrier hrequested
      exact ⟨radio', hbegin, hactive⟩
  · intro v radio' hv hbegin
    obtain ⟨frequency, hrequested⟩ := exists_requested_of_begin hbegin
    obtain ⟨v', hv', hle⟩ := hrange ⟨frequency, hrequested⟩
    obtain rfl := hv.unique hv'
    have hlast : bandPath v = .path868 := by
      have hle' := (hband.number v hv).1
      rw [bandPath, if_neg (by omega), if_neg (by omega)]
    obtain ⟨radio'', hbegin', -, hselects, -⟩ := exists_begin reset radio hcarrier hrequested
    obtain rfl := Option.some.inj (Except.ok.inj (hbegin.symm.trans hbegin'))
    exact hlast.symm ▸ hselects
  · intro interrupted rounds radio' hcommand
    by_cases hrequested : ∃ frequency, requested args = .ok frequency
    · obtain ⟨frequency, hfrequency⟩ := hrequested
      obtain ⟨radio'', hbegin, -, -, hP⟩ := exists_begin reset radio hcarrier hfrequency
      rw [command, hbegin] at hcommand
      exact quiet_of_loop hcarrier hP hcommand
    · obtain rfl := Option.some.inj
        ((command_of_refused hrequested interrupted rounds).symm.trans hcommand)
      apply hband.refused
      intro v hv hle
      exact hrequested (exists_requested_iff.mpr ⟨v, hv, Or.inl hle⟩)

/-- The bands are those of the table of the application, and the commands keep to them and leave
the radio quiet exactly under `InLastBand`. -/
theorem carrier_safe_iff (reset : Reset) (args : List Byte) (radio : SubghzRadio) :
    (∀ entry ∈ subghzFrequencies, bandPath entry.frequency.toNat = entry.path) ∧
      (CarrierSafe reset (subghzCliCommandTxCarrier reset) args radio ↔ InLastBand args radio) ∧
      (CarrierSafe reset (subghzCliCommandRxCarrier reset) args radio ↔ InLastBand args radio) := by
  refine ⟨bandPath_subghzFrequencies, ?_, ?_⟩
  · exact ⟨inLastBand_of_safe tx_stops, safe_of_inLastBand tx_stops⟩
  · exact ⟨inLastBand_of_safe rx_stops, safe_of_inLastBand rx_stops⟩

/-- At 433.92 MHz the radio is on the last path. -/
theorem carrier_on_last_path : ¬∀ (reset : Reset) (args : List Byte) (radio : SubghzRadio),
    CarrierSafe reset (subghzCliCommandTxCarrier reset) args radio := by
  intro h
  have hsafe := h ⟨fun _ => 0, id⟩ (ascii "433920000".toList)
    ⟨⟨fun _ => 0x2F, fun _ => 0⟩, .idle, false, .analog, false⟩
  have hnumber : BeginsWithNumber (ascii "433920000".toList) 433920000 := by
    apply beginsWithNumber_iff.mpr
    decide
  have hband := (inLastBand_of_safe tx_stops hsafe).number _ hnumber
  omega

end FlipperZero.SubGhz
