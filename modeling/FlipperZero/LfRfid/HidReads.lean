import FlipperZero.LfRfid.HidFrame

/-! # What the HID decoder reads

The decoder counts the cycles from falling edge to falling edge, which give it every bit of the
stream once from where it came in. A frame that was dropped in part, or the start, gives it a cycle
of any time, which stores no bit. So what is accepted is the card data, and a whole frame is.
-/

namespace FlipperZero.LfRfid

open Lib ProtocolHID10301 DecoderHID26

variable {d : Vector (BitVec 8) 3} {start first : ℕ} {high : Bool} {s : HidAir}
  {time : UInt32}

section Decoder

variable {dec : DecoderHID26} {pulse polarity : Bool}

def DecoderHID26.counter (dec : DecoderHID26) : Counter := ⟨dec.lastPulse, dec.pulseCount⟩

def DecoderHID26.withCounter (dec : DecoderHID26) (c : Counter) : DecoderHID26 :=
  { dec with lastPulse := c.last, pulseCount := c.count }

theorem countPulse_eq (dec : DecoderHID26) (pulse : Bool) : dec.countPulse pulse =
    (dec.withCounter (dec.counter.take hidCount pulse).1,
      (dec.counter.take hidCount pulse).2) := by
  obtain ⟨lastPulseTime, lastPulse, n, storedData, ready⟩ := dec
  have hone : n + 1 < 5 ↔ ¬n + 1 > 4 := by omega
  have hzero : n + 1 < 6 ↔ ¬n + 1 > 5 := by omega
  have hone' : 5 ≤ n + 2 ↔ n > 2 := by omega
  have hzero' : 6 ≤ n + 2 ↔ n > 3 := by omega
  simp only [countPulse, Counter.take, counter, withCounter, hidCount, EncoderHIDH10301.hid1Count,
    EncoderHIDH10301.hid0Count]
  cases lastPulse with
  | true =>
    cases pulse with
    | true => 
      simp only [if_true, hone, ite_not]
      split <;> rfl
    | false => simp [hone']
  | false =>
    cases pulse with
    | true => simp [hzero']
    | false =>
      simp only [Bool.false_eq_true, if_true, if_false, hzero, ite_not]
      split <;> rfl

/-- What an edge stores behind the words: nothing, or a bit that may make the decoder ready. -/
inductive Stores (w : HID10301CardData) : DecoderHID26 × Option Bool → Prop
  | none {dec'} (hwords : dec'.storedData = w) (hready : dec'.ready = false) : Stores w (dec', none)
  | some {dec' data} (hwords : dec'.storedData = shiftWords w data)
      (hready : dec'.ready = canBeDecoded dec'.storedData) (hcount : dec'.pulseCount = 0) :
      Stores w (dec', some data)

theorem takePulse_counter (dec : DecoderHID26) (pulse : Bool) :
    (dec.takePulse pulse).1.counter = (dec.counter.take hidCount pulse).1 ∧
      (dec.takePulse pulse).2 = (dec.counter.take hidCount pulse).2 := by
  rw [takePulse, countPulse_eq]
  cases (dec.counter.take hidCount pulse).2 with
  | none => exact ⟨rfl, rfl⟩
  | some data => exact ⟨rfl, rfl⟩

theorem stores_takePulse (dec : DecoderHID26) (hready : dec.ready = false) (pulse : Bool) :
    Stores dec.storedData (dec.takePulse pulse) := by
  rw [takePulse, countPulse_eq]
  cases hbit : (dec.counter.take hidCount pulse).2 with
  | none => exact .none rfl hready
  | some data =>
    refine .some rfl ?_ (take_count_of_given hbit)
    show (if canBeDecoded (shiftWords dec.storedData data) then true else dec.ready) =
      canBeDecoded (shiftWords dec.storedData data)
    rw [hready]
    cases canBeDecoded (shiftWords dec.storedData data) <;> rfl

theorem processFront_of_ready (hready : dec.ready = true) (polarity : Bool) (time : UInt32) :
    dec.processFront polarity time = (dec, none) :=
  if_pos hready

theorem processFront_rise (hready : dec.ready = false) (time : UInt32) :
    dec.processFront true time = ({ dec with lastPulseTime := time }, none) := by
  have hnot : ¬dec.ready = true := by simp [hready]
  rw [processFront, if_neg hnot, if_pos rfl]

theorem processFront_fall (hready : dec.ready = false) (time : UInt32) :
    dec.processFront false time =
      match pulseOf (dec.lastPulseTime + time) with
      | none => ({ dec with lastPulseTime := dec.lastPulseTime + time }, none)
      | some pulse => { dec with lastPulseTime := dec.lastPulseTime + time }.takePulse pulse := by
  have hnot : ¬dec.ready = true := by simp [hready]
  exact (if_neg hnot).trans (if_neg Bool.false_ne_true)

theorem stores_processFront (hready : dec.ready = false) (polarity : Bool) (time : UInt32) :
    Stores dec.storedData (dec.processFront polarity time) := by
  cases polarity with
  | true =>
    rw [processFront_rise hready]
    exact .none rfl hready
  | false =>
    rw [processFront_fall hready]
    cases pulseOf (dec.lastPulseTime + time) with
    | none => exact .none rfl hready
    | some pulse =>
      exact stores_takePulse { dec with lastPulseTime := dec.lastPulseTime + time } hready pulse

theorem front_of_ready (s : HidAir) (hready : s.decoder.ready = true) (polarity : Bool)
    (time : UInt32) : s.front polarity time = { s with entry := s.cycle, stored := [] } := by
  rw [HidAir.front, processFront_of_ready hready, if_pos hready, if_pos hready]

theorem front_of_not_ready (s : HidAir) (hready : s.decoder.ready = false) (polarity : Bool)
    (time : UInt32) : s.front polarity time = { s with
      decoder := (s.decoder.processFront polarity time).1
      stored := s.stored ++ (s.decoder.processFront polarity time).2.toList } := by
  have hnot : ¬s.decoder.ready = true := by simp [hready]
  rw [HidAir.front, if_neg hnot, if_neg hnot]

end Decoder

section Phase

theorem five_le_hidCount : ∀ v, 5 ≤ hidCount v := by decide

theorem hidPlace_offset (d : Vector (BitVec 8) 3) (n : ℕ) :
    (hidPlace d n).offset < hidCount (hidBit d (hidPlace d n).bit) := by
  cases n with
  | zero =>
    have hfive := five_le_hidCount (hidBit d 0)
    show 0 < hidCount (hidBit d 0)
    omega
  | succ n =>
    rw [hidPlace_succ]
    exact next_offset five_le_hidCount _

theorem hidPlace_bit_succ (d : Vector (BitVec 8) 3) (n : ℕ) :
    (hidPlace d n).bit ≤ (hidPlace d (n + 1)).bit ∧
      (hidPlace d (n + 1)).bit ≤ (hidPlace d n).bit + 1 := by
  rw [hidPlace_succ, Place.next]
  split
  · exact ⟨le_rfl, Nat.le_succ _⟩
  · exact ⟨Nat.le_succ _, le_rfl⟩

theorem pulse_of_inTime {n x : ℕ} {last : UInt32} (hlast : last.toNat = x)
    (h : InTime ((EncoderHIDH10301.init d).isOne n) ((EncoderHIDH10301.init d).isOne (n + 1))
      (x + time.toNat)) :
    ∃ pulse, pulseOf (last + time) = some pulse ∧
      (hidPlace d n).Sounds hidCount (hidBit d) pulse := by
  obtain ⟨hmin, hmax, hmid⟩ := h
  rw [isOne_init, isOne_init, hidPlace_succ] at hmid
  have hbound : maxTime.toNat < 2 ^ 32 := by decide
  have htotal : (last + time).toNat = x + time.toNat := by
    rw [UInt32.toNat_add, hlast, Nat.mod_eq_of_lt (by omega)]
  rw [← htotal] at hmin hmax hmid
  refine ⟨_, if_pos ⟨UInt32.lt_iff_toNat_lt.mpr hmin, UInt32.lt_iff_toNat_lt.mpr hmax⟩, ?_⟩
  have hpulse : decide (¬last + time < midTime) = true ↔ midTime.toNat ≤ (last + time).toNat := by
    rw [decide_eq_true_eq, UInt32.lt_iff_toNat_lt, Nat.not_lt]
  by_cases hkind : decide (¬last + time < midTime) = hidBit d (hidPlace d n).bit
  · exact .inl hkind
  · have hoffset := hidPlace_offset d n
    have hborder : ¬(hidPlace d n).offset + 1 < hidCount (hidBit d (hidPlace d n).bit) := by
      intro hlt
      rw [Place.next, if_pos hlt] at hmid
      exact hkind (Bool.eq_iff_iff.mpr (hpulse.trans (hmid rfl).symm))
    rw [Place.next, if_neg hborder] at hmid
    have hnext : hidBit d (hidPlace d n).bit ≠ hidBit d ((hidPlace d n).bit + 1) := fun hsame =>
      hkind (Bool.eq_iff_iff.mpr (hpulse.trans (hmid hsame).symm))
    exact .inr ⟨by omega, (Bool.eq_not.mpr hkind).trans (Bool.eq_not.mpr hnext.symm).symm⟩

/-- Where the decoder is in the waveform: it has followed the cycles up to the last falling edge, or
the next one ends a cycle that it did not see as a whole. -/
inductive HidPhase (d : Vector (BitVec 8) 3) (s : HidAir) : Prop
  | low (hhigh : s.high = false) (hsince : s.since = some 0) {first}
      (hentry : (hidPlace d s.entry).bit ≤ first ∧ first ≤ (hidPlace d s.entry).bit + 1)
      (hfollows : Follows hidCount (hidBit d) 0 first (hidPlace d s.cycle) s.decoder.counter s.stored)
  | high {n} (hhigh : s.high = true) (hcycle : s.cycle = n + 1)
      (hsince : s.since = some s.decoder.lastPulseTime.toNat) {first}
      (hentry : (hidPlace d s.entry).bit ≤ first ∧ first ≤ (hidPlace d s.entry).bit + 1)
      (hfollows : Follows hidCount (hidBit d) 0 first (hidPlace d n) s.decoder.counter s.stored)
  | lost (hstored : s.stored = []) (hcount : s.decoder.pulseCount = 0)
      (hentry : s.high = true ∧ s.entry ≤ s.cycle ∧ s.cycle ≤ s.entry + 1 ∨
        s.since = none ∧ s.cycle = s.entry) : HidPhase d s


/-- What the decoder stores is the stream, from the bit on at which it came in. -/
structure HidStored (d : Vector (BitVec 8) 3) (s : HidAir) (first len : ℕ) : Prop where
  stored : s.stored = bitsFrom (hidBit d) first len
  entry_le : (hidPlace d s.entry).bit ≤ first
  le_entry : first ≤ (hidPlace d s.entry).bit + 2
  cycle_le : (hidPlace d s.cycle).bit ≤ first + len + 2
  le_cycle : first + len ≤ (hidPlace d s.cycle).bit + 1

theorem HidPhase.stored (h : HidPhase d s) : ∃ first len, HidStored d s first len := by
  have hgiven {p : Place} {first : ℕ}
      (h : Follows hidCount (hidBit d) 0 first p s.decoder.counter s.stored) :
      ∃ s' len, s.stored = bitsFrom (hidBit d) s' len ∧ (s' = first ∨ s' = first + 1) ∧
        p.bit ≤ s' + len + 1 ∧ s' + len ≤ p.bit + 1 := by
    obtain ⟨junk, s', len, hbits, hjunk, hs, hle⟩ := h.given five_le_hidCount
    rw [List.eq_nil_of_length_eq_zero (Nat.le_zero.mp hjunk), List.nil_append] at hbits
    exact ⟨s', len, hbits, hs, hle⟩
  cases h with
  | low _ _ hentry hfollows =>
    obtain ⟨s', len, hbits, hs, hle, hge⟩ := hgiven hfollows
    exact ⟨s', len, hbits, by omega, by omega, by omega, hge⟩
  | @high n _ hcycle _ first hentry hfollows =>
    obtain ⟨s', len, hbits, hs, hle, hge⟩ := hgiven hfollows
    have hnext := hidPlace_bit_succ d n
    refine ⟨s', len, hbits, by omega, by omega, ?_, ?_⟩
    · rw [hcycle]
      omega
    · rw [hcycle]
      omega
  | lost hstored _ hentry =>
    have hnext := hidPlace_bit_succ d s.entry
    refine ⟨(hidPlace d s.entry).bit, 0, hstored, le_rfl, by omega, ?_, ?_⟩
    · rcases (by omega : s.cycle = s.entry ∨ s.cycle = s.entry + 1) with h | h
      · rw [h]
        omega
      · rw [h]
        omega
    · rcases (by omega : s.cycle = s.entry ∨ s.cycle = s.entry + 1) with h | h
      · rw [h]
        omega
      · rw [h]
        omega

theorem hidPhase_init : HidPhase d (hidAir d start high).init := .lost rfl rfl (.inr ⟨rfl, rfl⟩)

theorem HidPhase.rise (h : HidPhase d s) (hcount : s.decoder.ready = true → s.decoder.pulseCount = 0)
    (hhigh : s.high = false) (time : UInt32) : HidPhase d (s.rise time) := by
  cases hready : s.decoder.ready with
  | true =>
    have hrise : s.rise time = _ := front_of_ready (s.risen time) hready true time
    rw [hrise]
    exact .lost rfl (hcount hready) (.inl ⟨rfl, le_rfl, Nat.le_succ _⟩)
  | false =>
    have hrise : s.rise time = _ := front_of_not_ready (s.risen time) hready true time
    have hdec : (s.risen time).decoder.processFront true time = _ := processFront_rise hready time
    rw [hrise, hdec]
    simp only [Option.toList_none, List.append_nil]
    cases h with
    | low _ hsince hentry hfollows =>
      refine .high rfl rfl ?_ hentry hfollows
      show s.since.map (· + time.toNat) = some time.toNat
      rw [hsince, Option.map_some, Nat.zero_add]
    | high hhigh' => 
      rw [hhigh] at hhigh'
      cases hhigh'
    | lost hstored hcount' hentry =>
      refine .lost hstored hcount' (.inl ⟨rfl, ?_⟩)
      rcases hentry with ⟨hhigh', _⟩ | ⟨_, hentry⟩
      · rw [hhigh] at hhigh'
        cases hhigh'
      · show s.entry ≤ s.cycle + 1 ∧ s.cycle + 1 ≤ s.entry + 1
        omega

theorem follows_settling {c : Counter} (hc : c.count ≤ 1) (n : ℕ) :
    Follows hidCount (hidBit d) 0 (hidPlace d n).bit (hidPlace d n) c [] := by
  have hfive := five_le_hidCount c.last
  refine ⟨by omega, hidPlace_offset d n, .settling rfl ?_⟩
  rw [if_neg (by omega)]
  exact le_rfl

theorem HidPhase.fall (h : HidPhase d s) (hcount : s.decoder.ready = true → s.decoder.pulseCount = 0)
    (hhigh : s.high = true) (htime : ∀ x ∈ s.since,
      InTime ((EncoderHIDH10301.init d).isOne (s.cycle - 1))
        ((EncoderHIDH10301.init d).isOne s.cycle) (x + time.toNat)) : HidPhase d (s.fall time) := by
  have hfive := five_le_hidCount
  cases hready : s.decoder.ready with
  | true =>
    have hfall : s.fall time = _ := front_of_ready s.fallen hready false time
    rw [hfall]
    have hzero := hcount hready
    exact .low rfl rfl ⟨le_rfl, Nat.le_succ _⟩
      (follows_settling (show s.decoder.pulseCount ≤ 1 by omega) s.cycle)
  | false =>
    have hfall : s.fall time = _ := front_of_not_ready s.fallen hready false time
    have hdec : s.fallen.decoder.processFront false time = _ := processFront_fall hready time
    rw [hfall, hdec]
    cases h with
    | low hhigh' =>
      rw [hhigh] at hhigh'
      cases hhigh'
    | @high n _ hcycle hsince first hentry hfollows =>
      have hin := htime _ hsince
      rw [hcycle, Nat.add_sub_cancel] at hin
      obtain ⟨pulse, hpulse, hsounds⟩ := pulse_of_inTime rfl hin
      obtain ⟨hcounter, hbit⟩ :=
        takePulse_counter { s.decoder with lastPulseTime := s.decoder.lastPulseTime + time } pulse
      have htake := hfollows.take hfive hsounds
      rw [← hidPlace_succ, ← hcycle] at htake
      rw [hpulse]
      refine .low rfl rfl hentry ?_
      simp only
      rw [hcounter, hbit]
      exact htake
    | lost hstored hcount' hentry =>
      have hplace : (hidPlace d s.entry).bit ≤ (hidPlace d s.cycle).bit ∧
          (hidPlace d s.cycle).bit ≤ (hidPlace d s.entry).bit + 1 := by
        rcases (by omega : s.cycle = s.entry ∨ s.cycle = s.entry + 1) with h | h
        · rw [h]
          exact ⟨le_rfl, Nat.le_succ _⟩
        · rw [h]
          exact hidPlace_bit_succ d s.entry
      have hempty : s.fallen.stored = [] := hstored
      refine .low rfl rfl hplace ?_
      cases pulseOf (s.decoder.lastPulseTime + time) with
      | none =>
        simp only [hempty, Option.toList_none, List.append_nil]
        exact follows_settling (show s.decoder.pulseCount ≤ 1 by omega) s.cycle
      | some pulse =>
        obtain ⟨hcounter, hbit⟩ := takePulse_counter
          { s.decoder with lastPulseTime := s.decoder.lastPulseTime + time } pulse
        obtain ⟨hnone, hle⟩ : (s.decoder.counter.take hidCount pulse).2 = none ∧
            (s.decoder.counter.take hidCount pulse).1.count ≤ 1 := take_of_zero hfive hcount' pulse
        have hnone' := hbit.trans hnone
        simp only [hempty, hnone', Option.toList_none, List.append_nil, hcounter]
        exact follows_settling hle s.cycle

theorem HidPhase.poll (h : HidPhase d s) : HidPhase d s.poll := by
  have hread : s.decoder.read.2.lastPulseTime = s.decoder.lastPulseTime ∧
      s.decoder.read.2.counter = s.decoder.counter := by
    unfold DecoderHID26.read
    split <;> exact ⟨rfl, rfl⟩
  cases h with
  | low hhigh hsince hentry hfollows =>
    exact .low hhigh hsince hentry (by simpa only [HidAir.poll, hread.2] using hfollows)
  | high hhigh hcycle hsince hentry hfollows =>
    exact .high hhigh hcycle (by simpa only [HidAir.poll, hread.1] using hsince) hentry
      (by simpa only [HidAir.poll, hread.2] using hfollows)
  | lost hstored hcount hentry =>
    exact .lost hstored ((congrArg Counter.count hread.2).trans hcount) hentry

end Phase

section Words

/-- What the words hold: bits of the stream behind zeros or behind the card data, and the card data
as long as the decoder is ready. -/
structure HidWords (d : Vector (BitVec 8) 3) (start : ℕ) (s : HidAir) : Prop where
  count : s.decoder.ready = true → s.decoder.pulseCount = 0
  words : ∃ base, (base = 0 ∨ base = register (encode d)) ∧
    register s.decoder.storedData = shiftAll base s.stored
  ready : s.decoder.ready = true → register s.decoder.storedData = register (encode d)
  reads : ∀ v ∈ s.reads, v = d
  waiting : s.reads = [] → s.decoder.ready = false → s.entry = start ∧
    register s.decoder.storedData = shiftAll 0 s.stored ∧
    ∀ bits, bits <+: s.stored → shiftAll 0 bits ≠ register (encode d)

theorem register_clear : register (Vector.replicate 3 0) = 0 := by decide

theorem hidWords_init : HidWords d start (hidAir d start high).init where
  count hready := by cases hready
  words := ⟨0, .inl rfl, register_clear⟩
  ready hready := by cases hready
  reads v hv := absurd hv List.not_mem_nil
  waiting _ _ := by
    refine ⟨rfl, register_clear, fun bits hbits hframe => ?_⟩
    rw [List.prefix_nil.mp hbits] at hframe
    have hone := hidBit_of_lt (d := d) (n := 3) (by decide)
    rw [← hframe, hidBit_preamble (by decide)] at hone
    cases hone

theorem HidWords.keep (h : HidWords d start s) {dec' : DecoderHID26}
    (hwords : dec'.storedData = s.decoder.storedData) (hready : s.decoder.ready = false)
    (hready' : dec'.ready = false) : HidWords d start { s with decoder := dec' } := by
  constructor
  · intro htrue
    rw [hready'] at htrue
    cases htrue
  · simpa only [hwords] using h.words
  · intro htrue
    rw [hready'] at htrue
    cases htrue
  · exact h.reads
  · intro hreads _
    simpa only [hwords] using h.waiting hreads hready

/-- A bit of the stream makes the decoder ready with the card data, or the words stay without. -/
theorem HidWords.store (h : HidWords d start s) {dec' : DecoderHID26} {data : Bool} {first len : ℕ}
    (hwords : dec'.storedData = shiftWords s.decoder.storedData data)
    (hready : s.decoder.ready = false) (hready' : dec'.ready = canBeDecoded dec'.storedData)
    (hcount : dec'.pulseCount = 0) (hstored : s.stored ++ [data] = bitsFrom (hidBit d) first len) :
    HidWords d start { s with decoder := dec', stored := s.stored ++ [data] } := by
  have hshift (base : BitVec 96) (h : register s.decoder.storedData = shiftAll base s.stored) :
      register dec'.storedData = shiftAll base (s.stored ++ [data]) := by
    rw [hwords, register_shiftWords, h, shiftAll_append]
    rfl
  obtain ⟨base, hbase, hold⟩ := h.words
  constructor
  · exact fun _ => hcount
  · exact ⟨base, hbase, hshift base hold⟩
  · intro htrue
    have hpos : 0 < len := by
      have hlen := congrArg List.length hstored
      rw [List.length_append, List.length_singleton, length_bitsFrom] at hlen
      omega
    exact eq_of_canBeDecoded hbase hpos (hstored ▸ hshift base hold) (hready'.symm.trans htrue)
  · exact h.reads
  · intro hreads hnot
    obtain ⟨hentry, hzero, hprefix⟩ := h.waiting hreads hready
    refine ⟨hentry, hshift 0 hzero, fun bits hbits hframe => ?_⟩
    rcases List.prefix_concat_iff.mp hbits with rfl | hbits
    · rw [← hshift 0 hzero] at hframe
      rw [show dec'.ready = false from hnot, register_injective hframe, canBeDecoded_encode] at hready'
      cases hready'
    · exact hprefix bits hbits hframe

/-- An edge of whatever the waveform is keeps the words, when what is stored is the stream. -/
theorem HidWords.front (h : HidWords d start s) {polarity : Bool} {first len : ℕ}
    (hstored : (s.front polarity time).stored = bitsFrom (hidBit d) first len) :
    HidWords d start (s.front polarity time) := by
  cases hready : s.decoder.ready with
  | true =>
    rw [front_of_ready s hready]
    constructor
    · exact h.count
    · exact ⟨register (encode d), .inr rfl, h.ready hready⟩
    · exact h.ready
    · exact h.reads
    · intro _ hnot
      rw [hready] at hnot
      cases hnot
  | false =>
    have hstores := stores_processFront hready polarity time
    rw [front_of_not_ready s hready] at hstored ⊢
    generalize s.decoder.processFront polarity time = next at hstored hstores ⊢
    cases hstores with
    | none hwords hready' =>
      simp only [Option.toList_none, List.append_nil]
      exact h.keep hwords hready hready'
    | some hwords hready' hcount => exact h.store hwords hready hready' hcount hstored

theorem HidWords.poll (h : HidWords d start s) : HidWords d start s.poll := by
  cases hready : s.decoder.ready with
  | false =>
    have hread : s.decoder.read = (none, s.decoder) := by
      rw [DecoderHID26.read, hready, if_neg Bool.false_ne_true]
    rw [HidAir.poll, hread]
    simpa using h
  | true =>
    have hvalue : ProtocolHID10301.decode s.decoder.storedData = d := by
      rw [register_injective (h.ready hready), ProtocolHID10301.decode_encode]
    have hread : s.decoder.read = (some d, { s.decoder with ready := false }) := by
      rw [DecoderHID26.read, if_pos hready, hvalue]
    rw [HidAir.poll, hread]
    constructor
    · intro htrue
      cases htrue
    · exact h.words
    · intro htrue
      cases htrue
    · intro v hv
      rcases List.mem_append.mp hv with hv | hv
      · exact h.reads v hv
      · exact List.mem_singleton.mp hv
    · intro hreads
      exact absurd hreads (List.append_ne_nil_of_right_ne_nil _ (List.cons_ne_nil d []))

end Words

/-- What the decoder does on every waveform in time and with any polls: it stores every bit of the
stream once from where it came in, every read that succeeds returns the payload, and the first one
is possible within three frames. -/
structure HidReadable (d : Vector (BitVec 8) 3) : Prop where
  stores : ∀ start high s, (hidAir d start high).Reachable s →
    (∃ first len, HidStored d s first len) ∧
    ∃ base, (base = 0 ∨ base = register (encode d)) ∧
      register s.decoder.storedData = shiftAll base s.stored
  reads : ∀ start high s, (hidAir d start high).Reachable s → ∀ v ∈ s.reads, v = d
  becomesReady : ∀ start high s, (hidAir d start high).Reachable s → s.reads = [] →
    (hidPlace d start).bit + 3 * 96 ≤ (hidPlace d s.cycle).bit → s.decoder.ready = true
  arrives : ∀ start high, ∃ s, (hidAir d start high).Reachable s ∧ s.reads = [] ∧
    (hidPlace d s.cycle).bit = (hidPlace d start).bit + 3 * 96

section Readable

structure HidSound (d : Vector (BitVec 8) 3) (start : ℕ) (s : HidAir) : Prop where
  phase : HidPhase d s
  words : HidWords d start s

theorem HidSound.next {l : HidLabel} {s' : HidAir} (h : HidSound d start s)
    (hs : (hidAir d start high).next s l = some s') : HidSound d start s' := by
  obtain ⟨hphase, hwords⟩ := h
  cases l with
  | rise time =>
    obtain ⟨hhigh, heq⟩ := Option.ite_none_left_eq_some.mp hs
    obtain rfl := Option.some.inj heq
    have hphase' := hphase.rise hwords.count (Bool.eq_false_of_not_eq_true hhigh) time
    obtain ⟨first, len, hstored⟩ := hphase'.stored
    have hrisen : HidWords d start (s.risen time) :=
      ⟨hwords.count, hwords.words, hwords.ready, hwords.reads, hwords.waiting⟩
    exact ⟨hphase', hrisen.front hstored.stored⟩
  | fall time =>
    obtain ⟨⟨hhigh, htime⟩, heq⟩ := Option.ite_none_right_eq_some.mp hs
    obtain rfl := Option.some.inj heq
    have hphase' := hphase.fall hwords.count hhigh htime
    obtain ⟨first, len, hstored⟩ := hphase'.stored
    have hfallen : HidWords d start s.fallen :=
      ⟨hwords.count, hwords.words, hwords.ready, hwords.reads, hwords.waiting⟩
    exact ⟨hphase', hfallen.front hstored.stored⟩
  | poll =>
    obtain rfl := Option.some.inj hs
    exact ⟨hphase.poll, hwords.poll⟩

theorem hidSound_of_reachable (h : (hidAir d start high).Reachable s) : HidSound d start s :=
  h.invariant ⟨hidPhase_init, hidWords_init⟩ fun _ _ _ hsound hs => hsound.next hs

theorem shiftAll_frame {m s len : ℕ} (hs : s ≤ 96 * m) (hlen : 96 * m + 96 = s + len) :
    shiftAll 0 (bitsFrom (hidBit d) s len) = register (encode d) := by
  refine BitVec.eq_of_getMsbD_eq fun i hi => ?_
  have hidx : s + (len - 96 + i) = 96 * m + i := by omega
  rw [getMsbD_shiftAll_of_le hi (by rw [length_bitsFrom]; omega), length_bitsFrom,
    getD_bitsFrom _ (by omega), hidx, hidBit_add_mul, hidBit_of_lt hi]

theorem HidSound.ready_of_frames (h : HidSound d start s) (hreads : s.reads = [])
    (hbit : (hidPlace d start).bit + 3 * 96 ≤ (hidPlace d s.cycle).bit) :
    s.decoder.ready = true := by
  by_contra hnot
  obtain ⟨hentry, _, hprefix⟩ := h.words.waiting hreads (Bool.eq_false_of_not_eq_true hnot)
  obtain ⟨first, len, hstored, _, hfirst, hcycle, _⟩ := h.phase.stored
  rw [hentry] at hfirst
  obtain ⟨m, hm, hm'⟩ : ∃ m, first ≤ 96 * m ∧ 96 * m < first + 96 := ⟨(first + 95) / 96, by omega, by omega⟩
  obtain ⟨rest, hrest⟩ : ∃ rest, len = 96 * m + 96 - first + rest :=
    ⟨len - (96 * m + 96 - first), by omega⟩
  refine hprefix (bitsFrom (hidBit d) first (96 * m + 96 - first)) ?_ (shiftAll_frame hm (by omega))
  rw [hstored, hrest, bitsFrom_add]
  exact List.prefix_append _ _

theorem exists_next_bit (d : Vector (BitVec 8) 3) (n : ℕ) :
    ∃ m, n < m ∧ (hidPlace d m).bit = (hidPlace d n).bit + 1 := by
  have hrest (rest : ℕ) : ∀ n, hidCount (hidBit d (hidPlace d n).bit) - (hidPlace d n).offset = rest →
      ∃ m, n < m ∧ (hidPlace d m).bit = (hidPlace d n).bit + 1 := by
    induction rest with
    | zero =>
      intro n hn
      have hoffset := hidPlace_offset d n
      omega
    | succ rest ih =>
      intro n hn
      by_cases hlt : (hidPlace d n).offset + 1 < hidCount (hidBit d (hidPlace d n).bit)
      · have hnext : hidPlace d (n + 1) = ⟨(hidPlace d n).bit, (hidPlace d n).offset + 1⟩ := by
          rw [hidPlace_succ, Place.next, if_pos hlt]
        have hless : hidCount (hidBit d (hidPlace d (n + 1)).bit) - (hidPlace d (n + 1)).offset =
            rest := by
          rw [hnext]
          simp only
          omega
        obtain ⟨m, hm, hbit⟩ := ih (n + 1) hless
        exact ⟨m, by omega, by rw [hbit, hnext]⟩
      · refine ⟨n + 1, Nat.lt_succ_self n, ?_⟩
        rw [hidPlace_succ, Place.next, if_neg hlt]
  exact hrest _ n rfl

theorem exists_bit_add (d : Vector (BitVec 8) 3) (n k : ℕ) :
    ∃ m, n ≤ m ∧ (hidPlace d m).bit = (hidPlace d n).bit + k := by
  induction k with
  | zero => exact ⟨n, le_rfl, rfl⟩
  | succ k ih =>
    obtain ⟨m, hm, hbit⟩ := ih
    obtain ⟨m', hm', hbit'⟩ := exists_next_bit d m
    exact ⟨m', by omega, by omega⟩

theorem next_rise (hhigh : s.high = false) (time : UInt32) :
    (hidAir d start high).next s (.rise time) = some (s.rise time) :=
  if_neg (by rw [hhigh]; exact Bool.false_ne_true)

/-- The decoder at the beginning of a cycle's low part, nothing read. -/
structure Passed (s : HidAir) (n : ℕ) : Prop where
  high : s.high = false
  since : s.since = some 0
  reads : s.reads = []
  cycle : s.cycle = n

theorem Passed.next {n : ℕ} (h : Passed s n) (hs : (hidAir d start high).Reachable s) :
    ∃ s', (hidAir d start high).Reachable s' ∧ Passed s' (n + 1) := by
  let isOne := (EncoderHIDH10301.init d).isOne
  let time : UInt32 := if isOne n then 2560 else 2048
  have hin : InTime (isOne n) (isOne (n + 1)) (0 + time.toNat + time.toNat) := by
    have hall : ∀ p q : Bool, InTime p q
        (0 + (if p then 2560 else 2048 : UInt32).toNat + (if p then 2560 else 2048 : UInt32).toNat) := by
      decide
    exact hall _ _
  have hfall : (hidAir d start high).next (s.rise time) (.fall time) =
      some ((s.rise time).fall time) := by
    refine if_pos ⟨rfl, fun x hx => ?_⟩
    have hsince : (s.rise time).since = some (0 + time.toNat) := congrArg (Option.map _) h.since
    have hcycle : (s.rise time).cycle = n + 1 := congrArg (· + 1) h.cycle
    obtain rfl : 0 + time.toNat = x := Option.some.inj (hsince.symm.trans hx)
    rw [hcycle]
    exact hin
  exact ⟨_, (hs.step (next_rise h.high time)).step hfall, rfl, rfl, h.reads, congrArg (· + 1) h.cycle⟩

theorem next_first_fall (hhigh : s.high = true) (hsince : s.since = none) (time : UInt32) :
    (hidAir d start high).next s (.fall time) = some (s.fall time) := by
  refine if_pos ⟨hhigh, fun x hx => ?_⟩
  rw [hsince] at hx
  exact absurd hx (Option.not_mem_none x)

theorem exists_first_passed (d : Vector (BitVec 8) 3) (start : ℕ) (high : Bool) :
    ∃ s n, (hidAir d start high).Reachable s ∧ Passed s n ∧ n ≤ start + 1 := by
  have hinit : (hidAir d start high).Reachable (hidAir d start high).init := .init
  cases high with
  | true =>
    exact ⟨_, start, hinit.step (next_first_fall rfl rfl 0), ⟨rfl, rfl, rfl, rfl⟩, Nat.le_succ start⟩
  | false =>
    exact ⟨_, start + 1, (hinit.step (next_rise rfl 0)).step (next_first_fall rfl rfl 0),
      ⟨rfl, rfl, rfl, rfl⟩, le_rfl⟩

theorem exists_passed (d : Vector (BitVec 8) 3) (start : ℕ) (high : Bool) {n : ℕ} (hn : start < n) :
    ∃ s, (hidAir d start high).Reachable s ∧ Passed s n := by
  obtain ⟨s, n₀, hs, hpassed, hle⟩ := exists_first_passed d start high
  obtain ⟨k, rfl⟩ := Nat.exists_eq_add_of_le (show n₀ ≤ n by omega)
  clear hn hle
  induction k with
  | zero => exact ⟨s, hs, hpassed⟩
  | succ k ih =>
    obtain ⟨s', hs', hpassed'⟩ := ih
    exact hpassed'.next hs'

/-- The card data of every payload is read right from every offset. -/
theorem hidReadable (d : Vector (BitVec 8) 3) : HidReadable d where
  stores start high s h := ⟨(hidSound_of_reachable h).phase.stored, (hidSound_of_reachable h).words.words⟩
  reads start high s h := (hidSound_of_reachable h).words.reads
  becomesReady start high s h hreads hbit := (hidSound_of_reachable h).ready_of_frames hreads hbit
  arrives start high := by
    obtain ⟨n, hn, hbit⟩ := exists_bit_add d start (3 * 96)
    have hne : n ≠ start := by
      rintro rfl
      omega
    obtain ⟨s, hs, hpassed⟩ := exists_passed d start high (show start < n by omega)
    exact ⟨s, hs, hpassed.reads, by rw [hpassed.cycle, hbit]⟩

end Readable

end FlipperZero.LfRfid
