import FlipperZero.LfRfid.ProtocolIndala40134
import FlipperZero.Lib.ShiftRegister

/-! # The Indala decoder

The register is compared with a layout of single bits, as it is and inverted. The loops
over the Wiegand parity count an 8-bit signed counter down from zero until it wraps, and
the processor takes the low byte of a shift amount, so that a negative amount leaves nothing.
-/

namespace FlipperZero.LfRfid.DecoderIndala

open Lib Finset ProtocolIndala40134

namespace IndalaFormat

variable (raw : BitVec 64)

def static0 : BitVec 3 := raw.extractLsb' 0 3

def checksum : BitVec 2 := raw.extractLsb' 3 2

def static1 : BitVec 2 := raw.extractLsb' 5 2

def static2 : Bool := raw.getLsbD 11

def p1 : Bool := raw.getLsbD 32

def p2 : Bool := raw.getLsbD 28

def preamble : BitVec 30 := raw.extractLsb' 34 30

/-- `x1` to `x8`. -/
def x : List Bool := [9, 17, 22, 19, 18, 13, 27, 8].map raw.getLsbD

/-- `y1` to `y16`. -/
def y : List Bool := [24, 21, 23, 26, 14, 30, 31, 15, 20, 33, 29, 12, 10, 7, 16, 25].map raw.getLsbD

/-- The sums of the shifted bits, the highest first. -/
def facility : BitVec 8 := shiftAll 0 (x raw)

def number : BitVec 16 := shiftAll 0 (y raw)

/-- `y2 + y4 + y7 + y8 + y10 + y11 + y14 + y16`. -/
def sumToCheck : ℕ := ([21, 26, 31, 15, 33, 29, 7, 25].map fun i => (raw.getLsbD i).toNat).sum

end IndalaFormat

open IndalaFormat

/-- `for(int8_t i = 0; i < bound; i--)`, which adds one term in each pass. -/
def sumLoop (bound : BitVec 8) (term : BitVec 8 → Bool) : ℕ → BitVec 8 → ℕ → Option ℕ
  | 0, _, _ => none
  | fuel + 1, i, sum =>
    if i.slt bound then sumLoop bound term fuel (i - 1) (sum + (term i).toNat) else some sum

structure State where
  readedData : BitVec 64
  facility : BitVec 8
  number : BitVec 16
  ready : Bool
  deriving DecidableEq, Repr

/-- The preamble, the static bits and the checksum. -/
def checks (raw : BitVec 64) : Bool :=
  decide (preamble raw = 1) &&
    !(decide (static2 raw ≠ false) && decide (static1 raw ≠ 0) && decide (static0 raw ≠ 0b101)) &&
    decide (checksum raw = if sumToCheck raw % 2 = 0 then 0b10 else 0b01)

/-- The Wiegand checksums; `none` while a loop has not ended. -/
def wiegand (fuel : ℕ) (facility : BitVec 8) (number : BitVec 16) (p1 p2 : Bool) : Option Bool :=
  (sumLoop 8 (fun i => facility.getLsbD i.toNat) fuel 0 0).bind fun left =>
    (sumLoop 4 (fun i => number.getLsbD i.toNat) fuel 0 left).bind fun left =>
      if (left + p1.toNat) % 2 = 1 then some false
      else
        (sumLoop 12 (fun i => number.getLsbD (i + 4).toNat) fuel 0 0).map fun right =>
          decide ((right + p2.toNat) % 2 = 1)

def verifyInner (fuel : ℕ) (s : State) : Option State :=
  let raw := s.readedData
  if checks raw then
    (wiegand fuel (facility raw) (number raw) (p1 raw) (p2 raw)).map fun valid =>
      { s with facility := facility raw, number := number raw, ready := s.ready || valid }
  else some s

def State.invert (s : State) : State := { s with readedData := ~~~s.readedData }

def verify (fuel : ℕ) (s : State) : Option State :=
  (verifyInner fuel s.invert).bind fun s => verifyInner fuel s.invert

variable {term : BitVec 8 → Bool} {bound : BitVec 8} {fuel sum k : ℕ}

theorem slt_iff {i : BitVec 8} (hbound : bound.toNat < 128) :
    i.slt bound = true ↔ 128 ≤ i.toNat ∨ i.toNat < bound.toNat := by
  have hi := i.isLt
  rw [BitVec.slt_iff_toInt_lt, BitVec.toInt_eq_toNat_cond, BitVec.toInt_eq_toNat_cond]
  split <;> split <;> omega

theorem sumLoop_succ (hlt : 128 ≤ k % 256 ∨ k % 256 < bound.toNat) (hbound : bound.toNat < 128) :
    sumLoop bound term (fuel + 1) (BitVec.ofNat 8 k) sum =
      sumLoop bound term fuel (BitVec.ofNat 8 k - 1) (sum + (term (BitVec.ofNat 8 k)).toNat) := by
  rw [sumLoop, if_pos]
  rw [slt_iff hbound, BitVec.toNat_ofNat]
  exact hlt

theorem sumLoop_negative (hbound : bound.toNat < 127) (hk : k ≤ 128)
    (hterm : ∀ j < k, term (BitVec.ofNat 8 (128 + j)) = false) (hfuel : k < fuel) :
    sumLoop bound term fuel (BitVec.ofNat 8 (127 + k)) sum = some sum := by
  induction k generalizing fuel with
  | zero =>
    obtain ⟨fuel, rfl⟩ := Nat.exists_eq_add_one_of_ne_zero (Nat.ne_of_gt hfuel)
    rw [sumLoop, if_neg]
    rw [slt_iff (by omega), BitVec.toNat_ofNat]
    omega
  | succ k ih =>
    obtain ⟨fuel, rfl⟩ := Nat.exists_eq_add_one_of_ne_zero (Nat.ne_of_gt (Nat.zero_lt_of_lt hfuel))
    have hpred : BitVec.ofNat 8 (127 + (k + 1)) - 1 = BitVec.ofNat 8 (127 + k) := by
      apply BitVec.eq_of_toNat_eq
      simp
      omega
    have hfalse : term (BitVec.ofNat 8 (127 + (k + 1))) = false := by
      rw [show 127 + (k + 1) = 128 + k by omega]
      exact hterm k (by omega)
    rw [sumLoop_succ (by omega) (by omega), hpred, hfalse]
    exact ih (by omega) (fun j hj => hterm j (by omega)) (by omega)

theorem fuel_eq {n : ℕ} (hfuel : 130 ≤ fuel) (hn : n ≤ 130) : ∃ m, fuel = m + n ∧ 130 - n ≤ m :=
  ⟨fuel - n, by omega, by omega⟩

theorem sumLoop_bits {w : ℕ} {value : BitVec w} (hw : w ≤ 128) (hpos : 0 < bound.toNat)
    (hbound : bound.toNat < 127) (hfuel : 130 ≤ fuel) :
    sumLoop bound (fun i => value.getLsbD i.toNat) fuel 0 sum =
      some (sum + (value.getLsbD 0).toNat) := by
  obtain ⟨fuel, rfl, hle⟩ := @fuel_eq fuel 1 hfuel (by decide)
  have hstep := @sumLoop_succ (fun i => value.getLsbD i.toNat) bound fuel sum 0 (.inr hpos)
    (by omega)
  have hnegative := @sumLoop_negative (fun i => value.getLsbD i.toNat) bound fuel
    (sum + (value.getLsbD 0).toNat) 128 hbound le_rfl
  refine hstep.trans (hnegative ?_ (by omega))
  intro j hj
  apply BitVec.getLsbD_of_ge
  rw [BitVec.toNat_ofNat]
  omega

theorem sumLoop_shifted {value : BitVec 16} (hfuel : 130 ≤ fuel) :
    sumLoop 12 (fun i => value.getLsbD (i + 4).toNat) fuel 0 0 =
      some (∑ i ∈ range 5, (value.getLsbD i).toNat) := by
  obtain ⟨fuel, rfl, hle⟩ := @fuel_eq fuel 5 hfuel (by decide)
  have hfirst : sumLoop 12 (fun i => value.getLsbD (i + 4).toNat) (fuel + 5) 0 0 =
      sumLoop 12 (fun i => value.getLsbD (i + 4).toNat) fuel (BitVec.ofNat 8 (127 + 124))
        (0 + (value.getLsbD 4).toNat + (value.getLsbD 3).toNat + (value.getLsbD 2).toNat +
          (value.getLsbD 1).toNat + (value.getLsbD 0).toNat) := rfl
  have hsum : 0 + (value.getLsbD 4).toNat + (value.getLsbD 3).toNat + (value.getLsbD 2).toNat +
      (value.getLsbD 1).toNat + (value.getLsbD 0).toNat =
        ∑ i ∈ range 5, (value.getLsbD i).toNat := by
    simp only [sum_range_succ, sum_range_zero]
    omega
  rw [hfirst, hsum]
  apply sumLoop_negative (by decide) (by decide) _ (by omega)
  intro j hj
  apply BitVec.getLsbD_of_ge
  rw [BitVec.toNat_add, BitVec.toNat_ofNat]
  simp
  omega

/-- The parity of the first bits, and that of the low five bits. -/
def wiegandBits (facility : BitVec 8) (number : BitVec 16) (p1 p2 : Bool) : Bool :=
  decide (((facility.getLsbD 0).toNat + (number.getLsbD 0).toNat + p1.toNat) % 2 = 0) &&
    decide ((∑ i ∈ range 5, (number.getLsbD i).toNat + p2.toNat) % 2 = 1)

theorem wiegand_eq {facility : BitVec 8} {number : BitVec 16} {p1 p2 : Bool}
    (hfuel : 130 ≤ fuel) :
    wiegand fuel facility number p1 p2 = some (wiegandBits facility number p1 p2) := by
  have hfacility := @sumLoop_bits 8 fuel 0 8 facility (by decide) (by decide) (by decide) hfuel
  have hnumber := @sumLoop_bits 4 fuel (0 + (facility.getLsbD 0).toNat) 16 number (by decide)
    (by decide) (by decide) hfuel
  have hshifted := @sumLoop_shifted fuel number hfuel
  simp only [wiegand, hfacility, hnumber, hshifted, Option.bind_some, Option.map_some, wiegandBits]
  rw [Nat.zero_add]
  split
  · next hodd => rw [decide_eq_false (by omega), Bool.false_and]
  · next heven => rw [decide_eq_true (Nat.mod_two_ne_one.mp heven), Bool.true_and]

def Passes (raw : BitVec 64) : Prop :=
  checks raw = true ∧ wiegandBits (facility raw) (number raw) (p1 raw) (p2 raw) = true

instance (raw : BitVec 64) : Decidable (Passes raw) := inferInstanceAs (Decidable (_ ∧ _))

def State.inspected (s : State) : State :=
  if checks s.readedData then
    { s with
      facility := IndalaFormat.facility s.readedData
      number := IndalaFormat.number s.readedData
      ready := s.ready || decide (Passes s.readedData) }
  else s

variable {s : State} {raw : BitVec 64}

theorem verifyInner_eq (hfuel : 130 ≤ fuel) : verifyInner fuel s = some s.inspected := by
  cases hchecks : checks s.readedData with
  | true => simp [verifyInner, State.inspected, wiegand_eq hfuel, Passes, hchecks]
  | false => simp [verifyInner, State.inspected, hchecks]

theorem verify_eq (hfuel : 130 ≤ fuel) :
    verify fuel s = some s.invert.inspected.invert.inspected := by
  rw [verify, verifyInner_eq hfuel, Option.bind_some, verifyInner_eq hfuel]

theorem preamble_of_checks (h : checks raw = true) :
    raw.getLsbD 34 = true ∧ ∀ i, 34 < i → i < 64 → raw.getLsbD i = false := by
  simp only [checks, Bool.and_eq_true, decide_eq_true_eq] at h
  have hbit : ∀ i < 30, raw.getLsbD (34 + i) = (1#30).getLsbD i := by
    intro i hi
    have hextract : (preamble raw).getLsbD i = raw.getLsbD (34 + i) := by
      rw [preamble, BitVec.getLsbD_extractLsb', decide_eq_true hi, Bool.true_and]
    exact hextract.symm.trans (congrArg (fun v => v.getLsbD i) h.1.1)
  constructor
  · exact hbit 0 (by decide)
  · intro i hlt hi
    obtain ⟨j, rfl⟩ := Nat.exists_eq_add_of_lt hlt
    have hone : (1#30).getLsbD (j + 1) = false := by simp
    exact (hbit (j + 1) (by omega)).trans hone

theorem not_checks_not (h : checks raw = true) : checks (~~~raw) = false := by
  rw [Bool.eq_false_iff]
  intro hnot
  have hraw := (preamble_of_checks h).2 35 (by decide) (by decide)
  have hcomplement := (preamble_of_checks hnot).2 35 (by decide) (by decide)
  rw [BitVec.getLsbD_not, hraw] at hcomplement
  cases hcomplement

@[simp] theorem State.invert_readedData : s.invert.readedData = ~~~s.readedData := rfl

@[simp] theorem State.inspected_readedData : s.inspected.readedData = s.readedData := by
  unfold State.inspected
  split <;> rfl

theorem State.inspected_of_checks (h : checks s.readedData = true) : s.inspected =
    { s with
      facility := IndalaFormat.facility s.readedData
      number := IndalaFormat.number s.readedData
      ready := s.ready || decide (Passes s.readedData) } := if_pos h

theorem State.inspected_of_not_checks (h : checks s.readedData = false) : s.inspected = s :=
  if_neg (by simp [h])

theorem State.invert_invert : s.invert.invert = s := by
  simp [State.invert]

/-- After both inspections the decoder is ready exactly when the layout is found in the
register or its complement, and then has read it there. -/
theorem verified (hready : s.ready = false) (hfuel : 130 ≤ fuel) :
    ∃ t, verify fuel s = some t ∧
      (t.ready = true ↔ ∃ v, (v = s.readedData ∨ v = ~~~s.readedData) ∧ Passes v) ∧
      ∀ v, (v = s.readedData ∨ v = ~~~s.readedData) → Passes v →
        t.facility = facility v ∧ t.number = number v := by
  refine ⟨_, verify_eq hfuel, ?_⟩
  by_cases hinverse : checks (~~~s.readedData) = true
  · have hnormal : checks s.readedData = false := by
      simpa using not_checks_not hinverse
    have hnone : ¬Passes s.readedData := by simp [Passes, hnormal]
    have hsecond : checks s.invert.inspected.invert.readedData = false := by simpa using hnormal
    rw [State.inspected_of_not_checks hsecond,
      State.inspected_of_checks (s := s.invert) hinverse]
    constructor
    · simp [State.invert, hready, hnone]
    · rintro v (rfl | rfl) hpasses
      · exact absurd hpasses hnone
      · exact ⟨rfl, rfl⟩
  · rw [Bool.not_eq_true] at hinverse
    have hnone : ¬Passes (~~~s.readedData) := by simp [Passes, hinverse]
    rw [State.inspected_of_not_checks (s := s.invert) hinverse, State.invert_invert]
    cases hnormal : checks s.readedData with
    | false =>
      have hnone' : ¬Passes s.readedData := by simp [Passes, hnormal]
      rw [State.inspected_of_not_checks hnormal]
      constructor
      · simp [hready, hnone, hnone']
      · rintro v (rfl | rfl) hpasses
        · exact absurd hpasses hnone'
        · exact absurd hpasses hnone
    | true =>
      rw [State.inspected_of_checks hnormal]
      constructor
      · simp [hready, hnone]
      · rintro v (rfl | rfl) hpasses
        · exact ⟨rfl, rfl⟩
        · exact absurd hpasses hnone

end FlipperZero.LfRfid.DecoderIndala
