import FlipperZero.LfRfid.EmMarinReads
import FlipperZero.LfRfid.HidReads

/-! # The reader with both decoders

Every front goes to the decoder of EM-Marin and to that of HID. A front of an EM-Marin tag is too
long for the second and one of a HID tag too short for the first, apart from the first front,
so a reader reports the tag in its field and under no other type.
-/

namespace FlipperZero.LfRfid

open Lib

inductive LfrfidKeyType where
  | keyEmarine
  | keyHID
  | keyIndala
deriving DecidableEq, Repr

structure RfidReader where
  decoderEm : DecoderEMMarine
  decoderHid26 : DecoderHID26

/-- What `read` returns, and what it leaves in its two output arguments. -/
structure Reading where
  result : Bool
  type : LfrfidKeyType
  data : List (BitVec 8)
deriving DecidableEq, Repr

/-- The EM-Marin protocol clears the buffer before it writes its bytes. -/
def Reading.storeEm (reading : Reading) (d : Vector (BitVec 8) 5) : Reading :=
  ⟨true, .keyEmarine, d.toList ++ List.replicate (reading.data.length - 5) 0⟩

/-- The HID protocol writes its bytes to the front of the buffer. -/
def Reading.storeHid26 (reading : Reading) (d : Vector (BitVec 8) 3) : Reading :=
  ⟨true, .keyHID, d.toList ++ reading.data.drop 3⟩

namespace RfidReader

def new : RfidReader := ⟨.resetState, .resetState⟩

/-- `decode` with the clocks since the last front. -/
def decode (r : RfidReader) (polarity : Bool) (time : UInt32) : RfidReader :=
  ⟨r.decoderEm.processFront polarity time.toNat, (r.decoderHid26.processFront polarity time).1⟩

/-- A buffer that is too short fails the check of the protocol. -/
def readEm (r : RfidReader) (reading : Reading) : Option Reading :=
  match r.decoderEm.read.1 with
  | none => some reading
  | some d => if 5 ≤ reading.data.length then some (reading.storeEm d) else none

def readHid26 (r : RfidReader) (reading : Reading) : Option Reading :=
  if 3 ≤ reading.data.length then
    match r.decoderHid26.read.1 with
    | none => some reading
    | some d => some (reading.storeHid26 d)
  else none

def read (r : RfidReader) (type : LfrfidKeyType) (data : List (BitVec 8)) :
    Option (Reading × RfidReader) :=
  ((r.readEm ⟨false, type, data⟩).bind r.readHid26).map fun reading =>
    (reading, ⟨r.decoderEm.read.2, r.decoderHid26.read.2⟩)

def reading (r : RfidReader) (type : LfrfidKeyType) (data : List (BitVec 8)) : Option Reading :=
  (r.read type data).map Prod.fst

end RfidReader

/-- The reader in the field of an EM-Marin tag. Its last front, or its start, was `into` clocks
after the beginning of the half-bit at `position`. -/
structure EmField where
  reader : RfidReader
  position : ℕ
  into : ℕ

def EmField.front (level : ℕ → Bool) (s : EmField) : EmField :=
  let p := nextEdge level s.position
  ⟨s.reader.decode (level p) (.ofNat ((p - s.position) * halfBit - s.into)), p, 0⟩

inductive EmFieldLabel where
  | front
  | read (type : LfrfidKeyType) (data : List (BitVec 8))

/-- A new reader that is started at a point of the waveform, with reads at any time. -/
def emField (d : Vector (BitVec 8) 5) (start into : ℕ) : Machine EmField EmFieldLabel where
  init := ⟨.new, start, into⟩
  next s
    | .front => some (s.front (EncoderEM.init d).level)
    | .read type data =>
      (s.reader.read type data).map fun (_, reader) => { s with reader := reader }

/-- The reader in the field of a HID tag, as `HidAir` has its decoder. -/
structure HidField where
  reader : RfidReader
  cycle : ℕ
  high : Bool
  since : Option ℕ
  readings : List Reading

namespace HidField

def rise (s : HidField) (time : UInt32) : HidField :=
  { s with
    reader := s.reader.decode true time
    cycle := s.cycle + 1
    high := true
    since := s.since.map (· + time.toNat) }

def fall (s : HidField) (time : UInt32) : HidField :=
  { s with reader := s.reader.decode false time, high := false, since := some 0 }

def read (s : HidField) (type : LfrfidKeyType) (data : List (BitVec 8)) : Option HidField :=
  (s.reader.read type data).map fun (reading, reader) =>
    { s with
      reader := reader
      readings := if reading.result then s.readings ++ [reading] else s.readings }

end HidField

inductive HidFieldLabel where
  | rise (time : UInt32)
  | fall (time : UInt32)
  | read (type : LfrfidKeyType) (data : List (BitVec 8))

def hidField (d : Vector (BitVec 8) 3) (start : ℕ) (high : Bool) :
    Machine HidField HidFieldLabel where
  init := ⟨.new, start, high, none, []⟩
  next s
    | .rise time => if s.high then none else some (s.rise time)
    | .fall time =>
      let isOne := (EncoderHIDH10301.init d).isOne
      if s.high ∧ ∀ x ∈ s.since, DecoderHID26.InTime (isOne (s.cycle - 1)) (isOne s.cycle)
        (x + time.toNat) then some (s.fall time) else none
    | .read type data => s.read type data

section Read

variable {r : RfidReader} {type : LfrfidKeyType} {data : List (BitVec 8)}

theorem DecoderEMMarine.read_waiting {s : DecoderEMMarine} (h : s.ready = false) :
    s.read = (none, s) := by
  rw [read, if_neg (by rw [h]; exact Bool.false_ne_true)]

theorem DecoderHID26.read_waiting {s : DecoderHID26} (h : s.ready = false) :
    s.read = (none, s) := by
  rw [read, if_neg (by rw [h]; exact Bool.false_ne_true)]

namespace RfidReader

theorem three_le_storeEm (reading : Reading) (d : Vector (BitVec 8) 5) :
    3 ≤ (reading.storeEm d).data.length := by
  simp only [Reading.storeEm, List.length_append, Vector.length_toList]
  omega

theorem read_reader {p : Reading × RfidReader} (h : r.read type data = some p) :
    p.2 = ⟨r.decoderEm.read.2, r.decoderHid26.read.2⟩ := by
  obtain ⟨reading, -, rfl⟩ := Option.map_eq_some_iff.mp h
  rfl

theorem reading_eq : r.reading type data =
    (r.readEm ⟨false, type, data⟩).bind r.readHid26 := by
  rw [reading, read, Option.map_map]
  exact Option.map_id'

theorem reading_em (h : r.decoderHid26.ready = false) (hdata : 5 ≤ data.length) :
    r.reading type data = r.readEm ⟨false, type, data⟩ := by
  have hread (reading : Reading) (hlen : 3 ≤ reading.data.length) :
      r.readHid26 reading = some reading := by
    rw [readHid26, if_pos hlen, DecoderHID26.read_waiting h]
  rw [reading_eq, readEm]
  cases r.decoderEm.read.1 with
  | none => exact hread _ (by simp only; omega)
  | some d =>
    simp only [hdata, if_true]
    exact hread _ (three_le_storeEm _ d)

theorem reading_hid26 (h : r.decoderEm.ready = false) :
    r.reading type data = r.readHid26 ⟨false, type, data⟩ := by
  rw [reading_eq, readEm, DecoderEMMarine.read_waiting h]
  rfl

end RfidReader

end Read

section EmTag

variable {d : Vector (BitVec 8) 5} {s : EmField}

theorem nextEdge_cases (level : ℕ → Bool) (p : ℕ) :
    nextEdge level p = p + 1 ∨ nextEdge level p = p + 2 := by
  unfold nextEdge
  split
  · exact .inr rfl
  · exact .inl rfl

theorem level_nextEdge (d : Vector (BitVec 8) 5) (p : ℕ) :
    (EncoderEM.init d).level (nextEdge (EncoderEM.init d).level p) =
      !(EncoderEM.init d).level p := by
  unfold nextEdge
  split
  · next hsame =>
    obtain ⟨n, hn | hn⟩ : ∃ n, p = 2 * n ∨ p = 2 * n + 1 := ⟨p / 2, by omega⟩
    · rw [hn, level_start, level_mid] at hsame
      exact absurd hsame (Bool.not_ne_self _)
    · have hnext : p + 2 = 2 * (n + 1) + 1 := by omega
      have hmid : p + 1 = 2 * (n + 1) := by omega
      rw [← hsame, hnext, hmid, level_mid, level_start]
  · next hne => exact Bool.eq_not_of_ne hne

theorem toNat_front_time {p q : ℕ} (into : ℕ) (hp : q = p + 1 ∨ q = p + 2) :
    (UInt32.ofNat ((q - p) * halfBit - into)).toNat = (q - p) * halfBit - into := by
  have hle : (q - p) * halfBit ≤ 2 * halfBit := Nat.mul_le_mul_right _ (by omega)
  have hhalf : 2 * halfBit = 32768 := rfl
  rw [UInt32.toNat_ofNat', Nat.mod_eq_of_lt (by omega)]

/-- The HID decoder of a reader that has seen nothing but an EM-Marin tag. -/
structure HidDeaf (d : Vector (BitVec 8) 5) (s : EmField) : Prop where
  ready : s.reader.decoderHid26.ready = false
  last : (EncoderEM.init d).level s.position = true →
    s.reader.decoderHid26.lastPulseTime.toNat ≤ 2 * halfBit
  started : s.reader.decoderHid26 = .resetState ∨ s.into = 0

theorem HidDeaf.init (d : Vector (BitVec 8) 5) (start into : ℕ) :
    HidDeaf d (emField d start into).init :=
  ⟨rfl, fun _ => Nat.zero_le _, .inl rfl⟩

theorem pulseOf_long {last time : UInt32} (hlast : last.toNat ≤ 2 * halfBit)
    (htime : time.toNat ≤ 2 * halfBit) (hlong : halfBit ≤ time.toNat) :
    DecoderHID26.pulseOf (last + time) = none := by
  have hhalf : halfBit = 16384 := rfl
  have hmax : DecoderHID26.maxTime.toNat = 6400 := rfl
  have hadd : (last + time).toNat = last.toNat + time.toNat := by
    rw [UInt32.toNat_add, Nat.mod_eq_of_lt (by omega)]
  refine if_neg fun h => ?_
  have hlt := UInt32.lt_iff_toNat_lt.mp h.2
  omega

theorem HidDeaf.front (h : HidDeaf d s) : HidDeaf d (s.front (EncoderEM.init d).level) := by
  obtain ⟨hready, hlast, hstarted⟩ := h
  have hp := nextEdge_cases (EncoderEM.init d).level s.position
  have hlevel := level_nextEdge d s.position
  have htime := toNat_front_time s.into hp
  unfold EmField.front
  dsimp only
  generalize nextEdge (EncoderEM.init d).level s.position = p at *
  generalize UInt32.ofNat ((p - s.position) * halfBit - s.into) = time at *
  have hle : time.toNat ≤ 2 * halfBit := by
    have hmul : (p - s.position) * halfBit ≤ 2 * halfBit := Nat.mul_le_mul_right _ (by omega)
    omega
  rw [RfidReader.decode, hlevel]
  cases hcur : (EncoderEM.init d).level s.position with
  | false =>
    rw [Bool.not_false, processFront_rise hready]
    exact ⟨hready, fun _ => hle, .inr rfl⟩
  | true =>
    rw [Bool.not_true, processFront_fall hready]
    have hfalls : (EncoderEM.init d).level p = true → False := by
      rw [hlevel, hcur]
      exact Bool.false_ne_true
    rcases hstarted with hreset | hinto
    · -- the first front may pass for one pulse, which gives no bit yet
      rw [hreset]
      cases DecoderHID26.pulseOf (DecoderHID26.resetState.lastPulseTime + time) with
      | none => exact ⟨rfl, fun hp => (hfalls hp).elim, .inr rfl⟩
      | some pulse =>
        cases pulse
        · exact ⟨rfl, fun hp => (hfalls hp).elim, .inr rfl⟩
        · exact ⟨rfl, fun hp => (hfalls hp).elim, .inr rfl⟩
    · have hlong : halfBit ≤ time.toNat := by
        rw [htime, hinto]
        exact Nat.le_mul_of_pos_left _ (by omega)
      rw [pulseOf_long (hlast hcur) hle hlong]
      exact ⟨hready, fun hp => (hfalls hp).elim, .inr rfl⟩

/-- The EM-Marin decoder has not been given a front, or is in a run of its own that may have
started within the same segment of the waveform. -/
inductive EmFollows (d : Vector (BitVec 8) 5) (s : EmField) : Prop where
  | started : s.reader.decoderEm = .resetState → s.into < halfBit → EmFollows d s
  | running {start} : s.into = 0 → (emAir d start).Reachable ⟨s.reader.decoderEm, s.position⟩ →
      EmFollows d s

/-- A front of any time is ignored by a new decoder, or passes for one or two half-bits. -/
theorem processFront_reset (polarity : Bool) (time : ℕ) :
    DecoderEMMarine.resetState.processFront polarity time = .resetState ∨
    time < 22720 ∧ DecoderEMMarine.resetState.processFront polarity time =
      DecoderEMMarine.resetState.processFront polarity (1 * halfBit) ∨
    26240 < time ∧ DecoderEMMarine.resetState.processFront polarity time =
      DecoderEMMarine.resetState.processFront polarity (2 * halfBit) := by
  have hready : DecoderEMMarine.resetState.ready = false := rfl
  by_cases hshort : 9920 < time ∧ time < 22720
  · refine .inr (.inl ⟨hshort.2, ?_⟩)
    have hevent : DecoderEMMarine.eventOf polarity time = if polarity then .shortHigh else .shortLow :=
      if_pos hshort
    have hlow : ¬time < DecoderEMMarine.shortTime - DecoderEMMarine.jitterTime :=
      Nat.not_lt.mpr hshort.1.le
    rw [Nat.one_mul, DecoderEMMarine.processFront_short hready, DecoderEMMarine.processFront,
      if_neg (by rw [hready]; exact Bool.false_ne_true), if_neg hlow, hevent]
    cases polarity <;> rfl
  by_cases hlong : 26240 < time ∧ time < 39040
  · refine .inr (.inr ⟨hlong.1, ?_⟩)
    have hevent : DecoderEMMarine.eventOf polarity time = if polarity then .longHigh else .longLow :=
      (if_neg hshort).trans (if_pos hlong)
    have hlow : ¬time < DecoderEMMarine.shortTime - DecoderEMMarine.jitterTime :=
      Nat.not_lt.mpr ((by decide : 9920 ≤ 26240).trans hlong.1.le)
    rw [DecoderEMMarine.processFront_long hready, DecoderEMMarine.processFront,
      if_neg (by rw [hready]; exact Bool.false_ne_true), if_neg hlow, hevent]
    cases polarity <;> rfl
  · have hevent : DecoderEMMarine.eventOf polarity time = .reset :=
      (if_neg hshort).trans (if_neg hlong)
    left
    rw [DecoderEMMarine.processFront, hevent, if_pos rfl, ite_self, ite_self]

theorem first_front {p into : ℕ} (hinto : into < halfBit) :
    let level := (EncoderEM.init d).level
    ∃ start, (emAir d start).Reachable ⟨DecoderEMMarine.resetState.processFront
      (level (nextEdge level p)) ((nextEdge level p - p) * halfBit - into), nextEdge level p⟩ := by
  intro level
  have hedge (q : ℕ) : (emAir d q).Reachable ⟨DecoderEMMarine.resetState.processFront
      (level (nextEdge level q)) ((nextEdge level q - q) * halfBit), nextEdge level q⟩ :=
    Machine.Reachable.step (l := .edge) .init rfl
  have hhalf : halfBit = 16384 := rfl
  rcases processFront_reset (level (nextEdge level p)) ((nextEdge level p - p) * halfBit - into) with
    hnone | ⟨htime, hshort⟩ | ⟨htime, hlong⟩
  · rw [hnone]
    exact ⟨nextEdge level p, .init⟩
  · rw [hshort]
    rcases nextEdge_cases level p with hone | htwo
    · have hlen : nextEdge level p - p = 1 := by omega
      have hrun := hedge p
      rw [hlen] at hrun
      exact ⟨p, hrun⟩
    · have hsame : level (p + 1) = level p := by
        by_contra hne
        rw [nextEdge, if_neg hne] at htwo
        omega
      have hnext : nextEdge level (p + 1) = p + 2 := by
        have hflip := level_nextEdge d p
        refine if_neg fun h => ?_
        rw [show p + 1 + 1 = p + 2 from rfl, ← htwo, hsame] at h
        exact absurd (hflip.symm.trans h) (Bool.not_ne_self _)
      have hlen : nextEdge level p - (p + 1) = 1 := by omega
      have hrun := hedge (p + 1)
      rw [hnext, ← htwo, hlen] at hrun
      exact ⟨p + 1, hrun⟩
  · rw [hlong]
    rcases nextEdge_cases level p with hone | htwo
    · rw [hone, Nat.add_sub_cancel_left] at htime
      omega
    · have hlen : nextEdge level p - p = 2 := by omega
      have hrun := hedge p
      rw [hlen] at hrun
      exact ⟨p, hrun⟩

theorem EmFollows.front (h : EmFollows d s) : EmFollows d (s.front (EncoderEM.init d).level) := by
  have hp := nextEdge_cases (EncoderEM.init d).level s.position
  have htime := toNat_front_time s.into hp
  cases h with
  | started hreset hinto =>
    obtain ⟨start, hstart⟩ := first_front (d := d) (p := s.position) hinto
    refine @EmFollows.running d _ start rfl ?_
    simp only [EmField.front, RfidReader.decode, htime, hreset]
    exact hstart
  | running hinto hrun =>
    rw [hinto, Nat.sub_zero] at htime
    refine .running rfl (hrun.step (l := .edge) ?_)
    simp only [EmField.front, RfidReader.decode, hinto, Nat.sub_zero, htime]
    rfl

theorem EmFollows.read (h : EmFollows d s) :
    EmFollows d { s with reader := ⟨s.reader.decoderEm.read.2, s.reader.decoderHid26.read.2⟩ } := by
  cases h with
  | started hreset hinto =>
    refine .started ?_ hinto
    rw [hreset]
    rfl
  | running hinto hrun => exact .running hinto (hrun.step (l := .poll) rfl)

/-- What the decoders know in the field of an EM-Marin tag. -/
structure EmFieldInv (d : Vector (BitVec 8) 5) (s : EmField) : Prop where
  deaf : HidDeaf d s
  follows : EmFollows d s

theorem emFieldInv_of_reachable {start into : ℕ} (hinto : into < halfBit)
    (h : (emField d start into).Reachable s) : EmFieldInv d s := by
  refine h.invariant ⟨.init d start into, .started rfl hinto⟩ ?_
  rintro s l s' ⟨hdeaf, hfollows⟩ hnext
  cases l with
  | front =>
    obtain rfl := Option.some.inj hnext
    exact ⟨hdeaf.front, hfollows.front⟩
  | read type data =>
    obtain ⟨⟨reading, reader⟩, hread, rfl⟩ := Option.map_eq_some_iff.mp hnext
    obtain rfl : reader = _ := RfidReader.read_reader hread
    refine ⟨?_, hfollows.read⟩
    rw [DecoderHID26.read_waiting hdeaf.ready]
    exact ⟨hdeaf.ready, hdeaf.last, hdeaf.started⟩

theorem EmFieldInv.reads (h : EmFieldInv d s) (hread : EmReadable d) (type : LfrfidKeyType)
    {data : List (BitVec 8)} (hdata : 5 ≤ data.length) :
    s.reader.reading type data = some ⟨false, type, data⟩ ∨ s.reader.reading type data =
      some ⟨true, .keyEmarine, d.toList ++ List.replicate (data.length - 5) 0⟩ := by
  rw [RfidReader.reading_em h.deaf.ready hdata, RfidReader.readEm]
  cases hv : s.reader.decoderEm.read.1 with
  | none => exact .inl rfl
  | some v =>
    cases h.follows with
    | started hreset _ =>
      rw [hreset] at hv
      cases hv
    | running _ hrun =>
      obtain rfl := hread.reads _ _ v hrun hv
      exact .inr (if_pos hdata)

theorem RfidReader.result_of_ready {r : RfidReader} (h : r.decoderEm.ready = true)
    (type : LfrfidKeyType) {data : List (BitVec 8)} (hdata : 5 ≤ data.length) :
    ∃ reading, r.reading type data = some reading ∧ reading.result = true := by
  have hem : r.decoderEm.read.1 = some (ProtocolEMMarin.decode r.decoderEm.readedData) := by
    rw [DecoderEMMarine.read, if_pos h]
  rw [RfidReader.reading_eq, RfidReader.readEm, hem]
  simp only [hdata, if_true, Option.bind_some]
  rw [RfidReader.readHid26, if_pos (three_le_storeEm _ _)]
  cases r.decoderHid26.read.1 with
  | none => exact ⟨_, rfl, rfl⟩
  | some v => exact ⟨_, rfl, rfl⟩

/-- From every state, whatever the HID decoder has, a read succeeds within three frames of the
next front. -/
theorem em_leads (d : Vector (BitVec 8) 5) (s : EmField) :
    Leads (EmField.front (EncoderEM.init d).level) s fun t =>
      t.position ≤ s.position + 2 + 3 * (2 * 64) ∧
        ∀ type data, 5 ≤ data.length →
          ∃ reading, t.reader.reading type data = some reading ∧ reading.result = true := by
  refine .step ?_
  have hp := nextEdge_cases (EncoderEM.init d).level s.position
  have hair : ∀ t : EmField, t.into = 0 → (t.front (EncoderEM.init d).level).into = 0 ∧
      (⟨(t.front (EncoderEM.init d).level).reader.decoderEm,
        (t.front (EncoderEM.init d).level).position⟩ : EmAir) =
      EmAir.edge (EncoderEM.init d).level ⟨t.reader.decoderEm, t.position⟩ := by
    intro t hinto
    have htime := toNat_front_time 0 (nextEdge_cases (EncoderEM.init d).level t.position)
    rw [Nat.sub_zero] at htime
    refine ⟨rfl, ?_⟩
    simp only [EmField.front, RfidReader.decode, hinto, Nat.sub_zero, htime, EmAir.edge]
  refine (Leads.of_semiconj (g := fun t : EmField => (⟨t.reader.decoderEm, t.position⟩ : EmAir))
    hair rfl (leads_ready d _)).mono ?_
  rintro t ⟨_, hpos, hready⟩
  have hnext : (s.front (EncoderEM.init d).level).position =
      nextEdge (EncoderEM.init d).level s.position := rfl
  simp only [hnext] at hpos
  exact ⟨by omega, fun type _ => RfidReader.result_of_ready hready type⟩

end EmTag

section HidTag

open ProtocolEMMarin

variable {d : Vector (BitVec 8) 3} {start : ℕ} {high : Bool} {s : HidField}

/-- The register of the EM-Marin decoder has taken in at most so many bits. -/
def Taken (k : ℕ) (r : BitVec 64) : Prop := ∀ n, n + k < 64 → r.getMsbD n = false

theorem Taken.mono {k k' : ℕ} {r : BitVec 64} (h : Taken k r) (hle : k ≤ k') : Taken k' r :=
  fun n hn => h n (by omega)

theorem Taken.shiftIn {k : ℕ} {r : BitVec 64} (h : Taken k r) (b : Bool) :
    Taken (k + 1) (shiftIn r b) := by
  intro n hn
  rw [getMsbD_shiftIn (by omega), if_neg (by omega)]
  exact h (n + 1) (by omega)

theorem Taken.not_decoded {k : ℕ} {r : BitVec 64} (h : Taken k r) (hk : k < 64) :
    canBeDecoded r = false := by
  rw [Bool.eq_false_iff]
  intro hdecoded
  have hheader := (canBeDecoded_iff.mp hdecoded).header 0 (by decide)
  rw [h 0 (by omega)] at hheader
  cases hheader

/-- A decoder that waits with few bits in its register. -/
structure EmDeaf (k : ℕ) (dec : DecoderEMMarine) : Prop where
  ready : dec.ready = false
  taken : Taken k dec.readedData

theorem EmDeaf.mono {k k' : ℕ} {dec : DecoderEMMarine} (h : EmDeaf k dec) (hle : k ≤ k') :
    EmDeaf k' dec := ⟨h.ready, h.taken.mono hle⟩

theorem EmDeaf.front {k : ℕ} {dec : DecoderEMMarine} (h : EmDeaf k dec) (hk : k + 1 < 64)
    (polarity : Bool) (time : ℕ) : EmDeaf (k + 1) (dec.processFront polarity time) := by
  have hkeep : EmDeaf (k + 1) dec := h.mono (Nat.le_succ k)
  unfold DecoderEMMarine.processFront
  split
  · exact hkeep
  split
  · exact hkeep
  dsimp only
  split
  · exact hkeep
  rw [DecoderEMMarine.advance]
  split
  · exact ⟨h.ready, hkeep.taken⟩
  · next data _ => exact ⟨(h.taken.shiftIn data).not_decoded hk, h.taken.shiftIn data⟩

theorem EmDeaf.short {k : ℕ} {dec : DecoderEMMarine} (h : EmDeaf k dec) (polarity : Bool)
    {time : ℕ} (htime : time < DecoderHID26.maxTime.toNat) :
    EmDeaf k (dec.processFront polarity time) := by
  have hlow : time < DecoderEMMarine.shortTime - DecoderEMMarine.jitterTime :=
    htime.trans (by decide)
  rw [DecoderEMMarine.processFront, if_pos hlow, ite_self]
  exact h

/-- The bits that the EM-Marin decoder may have: of the first rising and falling edge, and of a
rising edge that comes too late for the cycle to end. -/
def HidField.bits (s : HidField) : ℕ :=
  match s.since with
  | none => if s.high then 1 else 0
  | some x => if s.high ∧ DecoderHID26.maxTime.toNat ≤ x then 3 else 2

theorem HidField.bits_le (s : HidField) : s.bits ≤ 3 := by
  unfold bits
  split <;> split <;> omega

theorem emDeaf_rise (h : EmDeaf s.bits s.reader.decoderEm) (hhigh : s.high = false)
    (time : UInt32) : EmDeaf (s.rise time).bits (s.rise time).reader.decoderEm := by
  have hfront := h.front (Nat.lt_of_le_of_lt (Nat.succ_le_succ s.bits_le) (by decide)) true time.toNat
  cases hsince : s.since with
  | none =>
    have hbits : s.bits = 0 := by simp [HidField.bits, hsince, hhigh]
    have hrise : (s.rise time).bits = 1 := by simp [HidField.bits, HidField.rise, hsince]
    rw [hbits] at hfront
    rw [hrise]
    exact hfront
  | some x =>
    have hbits : s.bits = 2 := by simp [HidField.bits, hsince, hhigh]
    rw [hbits] at h hfront
    by_cases hlate : DecoderHID26.maxTime.toNat ≤ x + time.toNat
    · have hrise : (s.rise time).bits = 3 := by simp [HidField.bits, HidField.rise, hsince, hlate]
      rw [hrise]
      exact hfront
    · have hrise : (s.rise time).bits = 2 := by simp [HidField.bits, HidField.rise, hsince, hlate]
      rw [hrise]
      exact h.short true (by omega)

theorem emDeaf_fall (h : EmDeaf s.bits s.reader.decoderEm) (hhigh : s.high = true) {time : UInt32}
    (htime : ∀ x ∈ s.since, x + time.toNat < DecoderHID26.maxTime.toNat) :
    EmDeaf (s.fall time).bits (s.fall time).reader.decoderEm := by
  have hfall : (s.fall time).bits = 2 := by simp [HidField.bits, HidField.fall]
  rw [hfall]
  cases hsince : s.since with
  | none =>
    have hbits : s.bits = 1 := by simp [HidField.bits, hsince, hhigh]
    rw [hbits] at h
    exact h.front (by decide) false time.toNat
  | some x =>
    have hlt := htime x hsince
    have hbits : s.bits = 2 := by
      have hearly : ¬DecoderHID26.maxTime.toNat ≤ x := by omega
      simp [HidField.bits, hsince, hearly]
    rw [hbits] at h
    exact h.short false (by omega)

/-- The HID decoder is in a run of its own. -/
structure HidField.Sees (s : HidField) (t : HidAir) : Prop where
  decoder : s.reader.decoderHid26 = t.decoder
  cycle : s.cycle = t.cycle
  high : s.high = t.high
  since : s.since = t.since
  readings : s.readings = [] ↔ t.reads = []

structure HidFieldInv (d : Vector (BitVec 8) 3) (start : ℕ) (high : Bool) (s : HidField) : Prop where
  deaf : EmDeaf s.bits s.reader.decoderEm
  sees : ∃ t, (hidAir d start high).Reachable t ∧ s.Sees t

theorem emDeaf_new (k : ℕ) : EmDeaf k .resetState := ⟨rfl, fun _ _ => BitVec.getMsbD_zero⟩

theorem sees_init (d : Vector (BitVec 8) 3) (start : ℕ) (high : Bool) :
    (hidField d start high).init.Sees (hidAir d start high).init :=
  ⟨rfl, rfl, rfl, rfl, fun _ => rfl, fun _ => rfl⟩

theorem sees_rise {t : HidAir} (h : s.Sees t) (time : UInt32) : (s.rise time).Sees (t.rise time) where
  decoder := by
    show (s.reader.decoderHid26.processFront true time).1 = _
    rw [h.decoder]
    rfl
  cycle := congrArg (· + 1) h.cycle
  high := rfl
  since := congrArg (Option.map (· + time.toNat)) h.since
  readings := h.readings

theorem sees_fall {t : HidAir} (h : s.Sees t) (time : UInt32) : (s.fall time).Sees (t.fall time) where
  decoder := by
    show (s.reader.decoderHid26.processFront false time).1 = _
    rw [h.decoder]
    rfl
  cycle := h.cycle
  high := rfl
  since := rfl
  readings := h.readings

theorem sees_read {t : HidAir} (hem : s.reader.decoderEm.ready = false) (h : s.Sees t)
    {type : LfrfidKeyType} {data : List (BitVec 8)} {s' : HidField}
    (hs : s.read type data = some s') :
    s'.reader.decoderEm = s.reader.decoderEm ∧ s'.bits = s.bits ∧ s'.Sees t.poll := by
  obtain ⟨⟨reading, reader⟩, hread, rfl⟩ := Option.map_eq_some_iff.mp hs
  obtain rfl : reader = _ := RfidReader.read_reader hread
  have hreading : s.reader.reading type data = some reading := by
    rw [RfidReader.reading, hread]
    rfl
  rw [RfidReader.reading_hid26 hem, RfidReader.readHid26, h.decoder] at hreading
  refine ⟨congrArg Prod.snd (DecoderEMMarine.read_waiting hem), rfl, ?_⟩
  refine ⟨congrArg (fun dec => dec.read.2) h.decoder, h.cycle, h.high, h.since, ?_⟩
  split at hreading
  · simp only [HidAir.poll]
    cases hv : t.decoder.read.1 with
    | none =>
      rw [hv] at hreading
      obtain rfl := Option.some.inj hreading
      simp [h.readings]
    | some v =>
      rw [hv] at hreading
      obtain rfl := Option.some.inj hreading
      simp [Reading.storeHid26]
  · cases hreading

theorem HidFieldInv.next (h : HidFieldInv d start high s) {l : HidFieldLabel} {s' : HidField}
    (hs : (hidField d start high).next s l = some s') : HidFieldInv d start high s' := by
  obtain ⟨hdeaf, t, ht, hsees⟩ := h
  cases l with
  | rise time =>
    obtain ⟨hhigh, heq⟩ := Option.ite_none_left_eq_some.mp hs
    obtain rfl := Option.some.inj heq
    have hlow := Bool.eq_false_of_not_eq_true hhigh
    exact ⟨emDeaf_rise hdeaf hlow time, _, ht.step (next_rise (hsees.high ▸ hlow) time),
      sees_rise hsees time⟩
  | fall time =>
    obtain ⟨⟨hhigh, htime⟩, heq⟩ := Option.ite_none_right_eq_some.mp hs
    obtain rfl := Option.some.inj heq
    have hfall : (hidAir d start high).next t (.fall time) = some (t.fall time) := by
      refine if_pos ⟨hsees.high ▸ hhigh, ?_⟩
      rw [← hsees.since, ← hsees.cycle]
      exact htime
    exact ⟨emDeaf_fall hdeaf hhigh fun x hx => (htime x hx).2.1, _, ht.step hfall,
      sees_fall hsees time⟩
  | read type data =>
    obtain ⟨hem, hbits, hsees'⟩ := sees_read hdeaf.ready hsees hs
    refine ⟨?_, _, ht.step (l := .poll) rfl, hsees'⟩
    rw [hbits, hem]
    exact hdeaf

theorem hidFieldInv_of_reachable (h : (hidField d start high).Reachable s) :
    HidFieldInv d start high s := by
  refine h.invariant ⟨emDeaf_new _, _, .init, sees_init d start high⟩ ?_
  intro s l s' hinv hs
  exact hinv.next hs

theorem HidField.exists_read (s : HidField) (hem : s.reader.decoderEm.ready = false)
    (type : LfrfidKeyType) {data : List (BitVec 8)} (hdata : 3 ≤ data.length) :
    ∃ s', s.read type data = some s' := by
  obtain ⟨reading, hreading⟩ : ∃ reading, s.reader.reading type data = some reading := by
    rw [RfidReader.reading_hid26 hem, RfidReader.readHid26, if_pos hdata]
    cases s.reader.decoderHid26.read.1 with
    | none => exact ⟨_, rfl⟩
    | some v => exact ⟨_, rfl⟩
  obtain ⟨p, hread, -⟩ := Option.map_eq_some_iff.mp hreading
  exact ⟨_, congrArg _ hread⟩

theorem exists_sees {t : HidAir} (h : (hidAir d start high).Reachable t) :
    ∃ s, (hidField d start high).Reachable s ∧ s.Sees t := by
  refine h.invariant (P := fun t => ∃ s, (hidField d start high).Reachable s ∧ s.Sees t)
    ⟨_, .init, sees_init d start high⟩ ?_
  rintro t l t' ⟨s, hs, hsees⟩ hnext
  cases l with
  | rise time =>
    obtain ⟨hhigh, heq⟩ := Option.ite_none_left_eq_some.mp hnext
    obtain rfl := Option.some.inj heq
    refine ⟨_, hs.step (l := .rise time) (if_neg ?_), sees_rise hsees time⟩
    rw [hsees.high]
    exact hhigh
  | fall time =>
    obtain ⟨hguard, heq⟩ := Option.ite_none_right_eq_some.mp hnext
    obtain rfl := Option.some.inj heq
    refine ⟨_, hs.step (l := .fall time) (if_pos ?_), sees_fall hsees time⟩
    rw [hsees.high, hsees.since, hsees.cycle]
    exact hguard
  | poll =>
    obtain rfl := Option.some.inj hnext
    have hready := (hidFieldInv_of_reachable hs).deaf.ready
    have hbuffer : 3 ≤ (List.replicate 3 (0 : BitVec 8)).length := by simp
    obtain ⟨s', hread⟩ := s.exists_read hready .keyHID hbuffer
    exact ⟨s', hs.step (l := .read .keyHID _) hread, (sees_read hready hsees hread).2.2⟩

theorem HidFieldInv.reads (h : HidFieldInv d start high s) (type : LfrfidKeyType)
    {data : List (BitVec 8)} (hdata : 3 ≤ data.length) :
    s.reader.reading type data = some ⟨false, type, data⟩ ∨
      s.reader.reading type data = some ⟨true, .keyHID, d.toList ++ data.drop 3⟩ := by
  obtain ⟨hdeaf, t, ht, hsees⟩ := h
  rw [RfidReader.reading_hid26 hdeaf.ready, RfidReader.readHid26, if_pos hdata, hsees.decoder]
  cases hv : t.decoder.read.1 with
  | none => exact .inl rfl
  | some v =>
    have hmem : v ∈ t.poll.reads := by simp [HidAir.poll, hv]
    obtain rfl := (hidReadable d).reads _ _ _ (ht.step (l := .poll) rfl) v hmem
    exact .inr rfl

theorem HidFieldInv.result (h : HidFieldInv d start high s) (hreadings : s.readings = [])
    (hbit : (hidPlace d start).bit + 3 * 96 ≤ (hidPlace d s.cycle).bit) (type : LfrfidKeyType)
    {data : List (BitVec 8)} (hdata : 3 ≤ data.length) :
    ∃ reading, s.reader.reading type data = some reading ∧ reading.result = true := by
  obtain ⟨hdeaf, t, ht, hsees⟩ := h
  have hready := (hidReadable d).becomesReady _ _ _ ht (hsees.readings.mp hreadings)
    (hsees.cycle ▸ hbit)
  have hread : t.decoder.read.1 = some (ProtocolHID10301.decode t.decoder.storedData) := by
    rw [DecoderHID26.read, if_pos hready]
  rw [RfidReader.reading_hid26 hdeaf.ready, RfidReader.readHid26, if_pos hdata, hsees.decoder,
    hread]
  exact ⟨_, rfl, rfl⟩

end HidTag

/-- What a new reader reports of the one tag that it is held to, from any point of the waveform and
with reads at any time. -/
structure TellsTags : Prop where
  emReads : ∀ d, (∀ k, k = 2 ∨ k = 4 → ¬SlipsBy d k) → ∀ start into, into < halfBit →
    ∀ s, (emField d start into).Reachable s → ∀ type data, 5 ≤ data.length →
      s.reader.reading type data = some ⟨false, type, data⟩ ∨ s.reader.reading type data =
        some ⟨true, .keyEmarine, d.toList ++ List.replicate (data.length - 5) 0⟩
  emBecomesReady : ∀ (d : Vector (BitVec 8) 5) (s : EmField), ∃ n,
    let t := (EmField.front (EncoderEM.init d).level)^[n] s
    t.position ≤ s.position + 2 + 3 * (2 * 64) ∧ ∀ type data, 5 ≤ data.length →
      ∃ reading, t.reader.reading type data = some reading ∧ reading.result = true
  hidReads : ∀ d start high s, (hidField d start high).Reachable s → ∀ type data, 3 ≤ data.length →
    s.reader.reading type data = some ⟨false, type, data⟩ ∨
    s.reader.reading type data = some ⟨true, .keyHID, d.toList ++ data.drop 3⟩
  hidBecomesReady : ∀ d start high s, (hidField d start high).Reachable s → s.readings = [] →
    (hidPlace d start).bit + 3 * 96 ≤ (hidPlace d s.cycle).bit → ∀ type data, 3 ≤ data.length →
      ∃ reading, s.reader.reading type data = some reading ∧ reading.result = true
  hidArrives : ∀ d start high, ∃ s, (hidField d start high).Reachable s ∧ s.readings = [] ∧
    (hidPlace d s.cycle).bit = (hidPlace d start).bit + 3 * 96

/-- The two decoders do not take the tags of each other for one of theirs. -/
theorem reader_tells_tags : TellsTags where
  emReads d hslips _ _ hinto _ h type _ :=
    (emFieldInv_of_reachable hinto h).reads ((emReadable_iff d).mpr hslips) type
  emBecomesReady := em_leads
  hidReads _ _ _ _ h type _ := (hidFieldInv_of_reachable h).reads type
  hidBecomesReady _ _ _ _ h hreadings hbit type _ :=
    (hidFieldInv_of_reachable h).result hreadings hbit type
  hidArrives d start high := by
    obtain ⟨t, ht, hreads, hbit⟩ := (hidReadable d).arrives start high
    obtain ⟨s, hs, hsees⟩ := exists_sees ht
    exact ⟨s, hs, hsees.readings.mpr hreads, hsees.cycle ▸ hbit⟩

end FlipperZero.LfRfid
