import FlipperZero.LfRfid.DecoderIndala

/-! # Encoder and decoder of the Indala card data

The layout of the decoder is the word of the encoder, rotated by three. The decoder's loops
add other bits than the encoder's parity covers, and its test of the static bits lets every
word pass in which one of the three groups is right.
-/

namespace FlipperZero.LfRfid.DecoderIndala

open Lib Finset ProtocolIndala40134 IndalaFormat

/-- The word of the encoder at the rotation of the layout. -/
def layout (d : Vector (BitVec 8) 3) : BitVec 64 := (encode d).rotateLeft 3

def cardNumber (d : Vector (BitVec 8) 3) : BitVec 16 := d.getD 1 0 ++ d.getD 2 0

/-- In the rotations of its word, as they are and inverted, the card is read exactly at that
of the layout. -/
def ReadsCard (d : Vector (BitVec 8) 3) : Prop :=
  ∀ fuel ≥ 130, ∀ s : State, s.ready = false → ∀ k < 64,
    (s.readedData = (encode d).rotateLeft k ∨ s.readedData = ~~~((encode d).rotateLeft k)) →
    ∃ t, verify fuel s = some t ∧ (t.ready = true ↔ k = 3) ∧
      (k = 3 → t.facility = d.getD 0 0 ∧ t.number = cardNumber d)

/-- The word is accepted only if the encoder produces it, rotated and perhaps inverted. -/
def AcceptsEncoded (word : BitVec 64) : Prop :=
  ∀ fuel ≥ 130, ∀ s : State, s.ready = false → s.readedData = word →
    ∃ t, verify fuel s = some t ∧
      (t.ready = true → ∃ d, word = layout d ∨ word = ~~~layout d)

/-- The bits that only one of the two parities of encoder and decoder covers are even. -/
def Balanced (facility : BitVec 8) (number : BitVec 16) : Prop :=
  (∑ i ∈ range 7, (facility.getLsbD (1 + i)).toNat +
    ∑ i ∈ range 4, (number.getLsbD (12 + i)).toNat + (number.getLsbD 0).toNat) % 2 = 0 ∧
  (∑ i ∈ range 7, (number.getLsbD (5 + i)).toNat) % 2 = 0

def StaticBits (raw : BitVec 64) : Prop :=
  static0 raw = 0b101 ∧ static1 raw = 0 ∧ static2 raw = false

/-- The bit of the layout, by the position that it has for the encoder. -/
def layoutBit (fc : BitVec 24) (i : ℕ) : Bool := encodedBit fc ((66 - i) % 64)

variable {d : Vector (BitVec 8) 3} {word raw : BitVec 64} {k i : ℕ}

theorem getLsbD_rotateLeft (hk : k < 64) (hi : i < 64) :
    (word.rotateLeft k).getLsbD i = word.getMsbD ((63 - i + k) % 64) := by
  have hlt : (63 - i + k) % 64 < 64 := Nat.mod_lt _ (by decide)
  rw [BitVec.getLsbD_rotateLeft_of_le hk, BitVec.getMsbD_eq_getLsbD, decide_eq_true hlt,
    Bool.true_and]
  by_cases h : i < k
  · rw [decide_eq_true h, cond_true]
    congr 1
    omega
  · rw [decide_eq_false h, cond_false, decide_eq_true hi, Bool.true_and]
    congr 1
    omega

theorem getLsbD_layout (hi : i < 64) : (layout d).getLsbD i = layoutBit (fcAndCard d) i := by
  have hposition : (63 - i + 3) % 64 = (66 - i) % 64 := by
    congr 1
    omega
  rw [layout, getLsbD_rotateLeft (by decide) hi, getMsbD_encode (by omega), hposition]
  rfl

theorem fcAndCard_low (hi : i < 16) : (fcAndCard d).getLsbD i = (cardNumber d).getLsbD i := by
  rw [fcAndCard, cardNumber, BitVec.getLsbD_append, BitVec.getLsbD_append, BitVec.getLsbD_append]
  split
  · rfl
  · rw [if_pos (by omega)]

theorem fcAndCard_high (i : ℕ) : (fcAndCard d).getLsbD (16 + i) = (d.getD 0 0).getLsbD i := by
  rw [fcAndCard, BitVec.getLsbD_append, if_neg (by omega), BitVec.getLsbD_append,
    if_neg (by omega)]
  congr 1
  omega

theorem map_getLsbD_layout {positions : List ℕ} (h : ∀ i ∈ positions, i < 64) :
    positions.map (layout d).getLsbD = positions.map (layoutBit (fcAndCard d)) := by
  apply List.map_congr_left
  intro i hi
  exact getLsbD_layout (h i hi)

theorem x_layout : x (layout d) = (List.range 8).map fun i => (fcAndCard d).getLsbD (23 - i) := by
  rw [x, map_getLsbD_layout (by decide)]
  rfl

theorem y_layout : y (layout d) = (List.range 16).map fun i => (fcAndCard d).getLsbD (15 - i) := by
  rw [y, map_getLsbD_layout (by decide)]
  rfl

theorem facility_layout : facility (layout d) = d.getD 0 0 := by
  apply BitVec.eq_of_getLsbD_eq
  intro i hi
  have hidx : 23 - (8 - 1 - i) = 16 + i := by omega
  have hi' : 8 - 1 - i < 8 := by omega
  rw [facility, getLsbD_shiftAll (by simpa [x] using hi) (by simp [x]), x_layout]
  simp only [List.length_map, List.length_range, List.getD_eq_getElem?_getD, List.getElem?_map,
    List.getElem?_range hi', Option.map_some, Option.getD_some, hidx]
  exact fcAndCard_high i

theorem number_layout : number (layout d) = cardNumber d := by
  apply BitVec.eq_of_getLsbD_eq
  intro i hi
  have hidx : 15 - (16 - 1 - i) = i := by omega
  have hi' : 16 - 1 - i < 16 := by omega
  rw [number, getLsbD_shiftAll (by simpa [y] using hi) (by simp [y]), y_layout]
  simp only [List.length_map, List.length_range, List.getD_eq_getElem?_getD, List.getElem?_map,
    List.getElem?_range hi', Option.map_some, Option.getD_some, hidx]
  exact fcAndCard_low hi

theorem p1_layout : p1 (layout d) = decide (evenParitySum (fcAndCard d) % 2 = 1) := by
  rw [p1, getLsbD_layout (by decide), layoutBit, encodedBit, bits]
  generalize decide (evenParitySum (fcAndCard d) % 2 = 1) = even
  rfl

theorem p2_layout : p2 (layout d) = decide (oddParitySum (fcAndCard d) % 2 = 1) := by
  rw [p2, getLsbD_layout (by decide), layoutBit, encodedBit, bits]
  generalize decide (oddParitySum (fcAndCard d) % 2 = 1) = odd
  rfl

theorem getLsbD_extract {w start len : ℕ} (hi : i < len) {v : BitVec w} :
    (v.extractLsb' start len).getLsbD i = v.getLsbD (start + i) := by
  rw [BitVec.getLsbD_extractLsb', decide_eq_true hi, Bool.true_and]

theorem extract_layout {start len : ℕ} {v : BitVec len} (hlen : start + len ≤ 64)
    (h : ∀ i < len, layoutBit (fcAndCard d) (start + i) = v.getLsbD i) :
    (layout d).extractLsb' start len = v := by
  apply BitVec.eq_of_getLsbD_eq
  intro i hi
  rw [getLsbD_extract hi, getLsbD_layout (by omega)]
  exact h i hi

theorem staticBits_layout : StaticBits (layout d) := by
  refine ⟨?_, ?_, ?_⟩
  · apply extract_layout (by decide)
    rintro (_ | _ | _ | i) hi
    · rfl
    · rfl
    · rfl
    · omega
  · apply extract_layout (by decide)
    rintro (_ | _ | i) hi
    · rfl
    · rfl
    · omega
  · exact getLsbD_layout (by decide)

theorem encodedBit_eq_false {fc : BitVec 24} {p : ℕ} (h : 3 ≤ p) (h' : p < 32) :
    encodedBit fc p = false := by
  have hnone : ((bits fc).reverse.find? fun q => q.2 = p) = none := by
    apply List.find?_eq_none.mpr
    intro q hq
    have hposition : q.2 ∈ (bits fc).map Prod.snd :=
      List.mem_map_of_mem (List.mem_reverse.mp hq)
    simp only [bits, List.map_cons, List.map_nil, List.mem_cons, List.not_mem_nil, or_false]
      at hposition
    simp only [decide_eq_true_eq]
    omega
  rw [encodedBit, hnone]
  rfl

theorem preamble_layout : preamble (layout d) = 1 := by
  apply extract_layout (by decide)
  rintro (_ | i) hi
  · rfl
  · rw [layoutBit, encodedBit_eq_false (by omega) (by omega)]
    simp

theorem sumToCheck_layout :
    sumToCheck (layout d) = ProtocolIndala40134.checksum (fcAndCard d) := by
  have hbits : [21, 26, 31, 15, 33, 29, 7, 25].map (fun i => ((layout d).getLsbD i).toNat) =
      [14, 12, 9, 8, 6, 5, 2, 0].map fun i => ((fcAndCard d).getLsbD i).toNat := by
    have hmap := congrArg (List.map Bool.toNat)
      (@map_getLsbD_layout d [21, 26, 31, 15, 33, 29, 7, 25] (by decide))
    rw [List.map_map] at hmap
    exact hmap
  rw [sumToCheck, hbits]
  simp only [ProtocolIndala40134.checksum, List.map_cons, List.map_nil, List.sum_cons, List.sum_nil]
  omega

theorem checksum_layout : IndalaFormat.checksum (layout d) =
    if ProtocolIndala40134.checksum (fcAndCard d) % 2 = 0 then 0b10 else 0b01 := by
  apply extract_layout (by decide)
  have hlow : layoutBit (fcAndCard d) 3 =
      decide (ProtocolIndala40134.checksum (fcAndCard d) % 2 = 1) := by
    rw [layoutBit, encodedBit, bits]
    generalize decide (ProtocolIndala40134.checksum (fcAndCard d) % 2 = 1) = odd
    rfl
  have hhigh : layoutBit (fcAndCard d) 4 =
      !decide (ProtocolIndala40134.checksum (fcAndCard d) % 2 = 1) := by
    rw [layoutBit, encodedBit, bits]
    generalize decide (ProtocolIndala40134.checksum (fcAndCard d) % 2 = 1) = odd
    rfl
  rintro (_ | _ | i) hi
  · rw [hlow]
    split
    · next heven => rw [decide_eq_false (by omega)]; rfl
    · next hodd => rw [decide_eq_true (Nat.mod_two_ne_zero.mp hodd)]; rfl
  · rw [hhigh]
    split
    · next heven => rw [decide_eq_false (by omega)]; rfl
    · next hodd => rw [decide_eq_true (Nat.mod_two_ne_zero.mp hodd)]; rfl
  · omega

theorem checks_layout : checks (layout d) = true := by
  simp [checks, preamble_layout, staticBits_layout.2.2, sumToCheck_layout, checksum_layout]

theorem evenParitySum_fcAndCard : evenParitySum (fcAndCard d) =
    ∑ i ∈ range 4, ((cardNumber d).getLsbD (12 + i)).toNat +
      (((d.getD 0 0).getLsbD 0).toNat + ∑ i ∈ range 7, ((d.getD 0 0).getLsbD (1 + i)).toNat) := by
  have hfacility : ∑ i ∈ range 8, ((d.getD 0 0).getLsbD i).toNat =
      ((d.getD 0 0).getLsbD 0).toNat + ∑ i ∈ range 7, ((d.getD 0 0).getLsbD (1 + i)).toNat := by
    exact (sum_range_add _ 1 7).trans (by rw [sum_range_one])
  have hcard : ∑ i ∈ range 4, ((fcAndCard d).getLsbD (12 + i)).toNat =
      ∑ i ∈ range 4, ((cardNumber d).getLsbD (12 + i)).toNat := by
    apply sum_congr rfl
    intro i hi
    rw [fcAndCard_low (by have := mem_range.mp hi; omega)]
  have hhigh : ∑ i ∈ range 8, ((fcAndCard d).getLsbD (12 + (4 + i))).toNat =
      ∑ i ∈ range 8, ((d.getD 0 0).getLsbD i).toNat := by
    apply sum_congr rfl
    intro i _
    rw [← fcAndCard_high i, ← Nat.add_assoc]
  rw [evenParitySum, ← hfacility, ← hcard, ← hhigh]
  exact sum_range_add _ 4 8

theorem oddParitySum_fcAndCard : oddParitySum (fcAndCard d) =
    1 + (∑ i ∈ range 5, ((cardNumber d).getLsbD i).toNat +
      ∑ i ∈ range 7, ((cardNumber d).getLsbD (5 + i)).toNat) := by
  have hlow : ∑ i ∈ range 12, ((fcAndCard d).getLsbD i).toNat =
      ∑ i ∈ range 12, ((cardNumber d).getLsbD i).toNat := by
    apply sum_congr rfl
    intro i hi
    rw [fcAndCard_low (by have := mem_range.mp hi; omega)]
  rw [oddParitySum, hlow, ← sum_range_add]

theorem toNat_decide_odd (n : ℕ) : (decide (n % 2 = 1)).toNat = n % 2 := by
  rcases Nat.mod_two_eq_zero_or_one n with h | h <;> rw [h] <;> rfl

/-- The card is read from its layout where both parities of the encoder agree with those
of the decoder. -/
theorem passes_layout_iff : Passes (layout d) ↔ Balanced (d.getD 0 0) (cardNumber d) := by
  rw [Passes, facility_layout, number_layout, p1_layout, p2_layout, wiegandBits]
  simp only [checks_layout, true_and, Bool.and_eq_true, decide_eq_true_eq, Balanced,
    toNat_decide_odd, evenParitySum_fcAndCard, oddParitySum_fcAndCard]
  generalize ∑ i ∈ range 4, ((cardNumber d).getLsbD (12 + i)).toNat = high
  generalize ∑ i ∈ range 7, ((d.getD 0 0).getLsbD (1 + i)).toNat = facility
  generalize ∑ i ∈ range 5, ((cardNumber d).getLsbD i).toNat = low
  generalize ∑ i ∈ range 7, ((cardNumber d).getLsbD (5 + i)).toNat = middle
  omega

section Positions

theorem getMsbD_encode_preamble : (encode d).getMsbD 0 = true ∧ (encode d).getMsbD 2 = true ∧
    (encode d).getMsbD 32 = true ∧ (encode d).getMsbD 55 = false := by
  refine ⟨?_, ?_, ?_, ?_⟩
  all_goals
    rw [getMsbD_encode (by decide)]
    rfl

theorem getMsbD_encode_gap {p : ℕ} (hp : 3 ≤ p) (hp' : p < 32) :
    (encode d).getMsbD p = false :=
  (getMsbD_encode (by omega)).trans (encodedBit_eq_false hp hp')

theorem getMsbD_encode_checksum :
    (encode d).getMsbD 62 = !(encode d).getMsbD 63 := by
  rw [getMsbD_encode (by decide), getMsbD_encode (by decide), encodedBit, encodedBit, bits]
  generalize decide (ProtocolIndala40134.checksum (fcAndCard d) % 2 = 1) = odd
  rfl

theorem getMsbD_encode_odd :
    (encode d).getMsbD 38 = decide (oddParitySum (fcAndCard d) % 2 = 1) := by
  rw [getMsbD_encode (by decide), encodedBit, bits]
  generalize decide (oddParitySum (fcAndCard d) % 2 = 1) = odd
  rfl

theorem exists_position (hi : i < 12) :
    ∃ p, 33 ≤ p ∧ p ≤ 61 ∧ (encode d).getMsbD p = (fcAndCard d).getLsbD i := by
  have hall : ∀ p, p < 64 → encodedBit (fcAndCard d) p = (fcAndCard d).getLsbD i →
      (encode d).getMsbD p = (fcAndCard d).getLsbD i := by
    intro p hp heq
    rw [getMsbD_encode hp, heq]
  rcases i with _ | _ | _ | _ | _ | _ | _ | _ | _ | _ | _ | _ | i
  · exact ⟨41, by decide, by decide, hall _ (by decide) rfl⟩
  · exact ⟨50, by decide, by decide, hall _ (by decide) rfl⟩
  · exact ⟨59, by decide, by decide, hall _ (by decide) rfl⟩
  · exact ⟨56, by decide, by decide, hall _ (by decide) rfl⟩
  · exact ⟨54, by decide, by decide, hall _ (by decide) rfl⟩
  · exact ⟨37, by decide, by decide, hall _ (by decide) rfl⟩
  · exact ⟨33, by decide, by decide, hall _ (by decide) rfl⟩
  · exact ⟨46, by decide, by decide, hall _ (by decide) rfl⟩
  · exact ⟨51, by decide, by decide, hall _ (by decide) rfl⟩
  · exact ⟨35, by decide, by decide, hall _ (by decide) rfl⟩
  · exact ⟨36, by decide, by decide, hall _ (by decide) rfl⟩
  · exact ⟨52, by decide, by decide, hall _ (by decide) rfl⟩
  · omega

end Positions

section Rotations

theorem window_of_checks (hk : k < 64) (h : checks (word.rotateLeft k) = true) {s : ℕ}
    (hs : s < 29) : word.getMsbD ((s + k) % 64) = false := by
  have hbit := (preamble_of_checks h).2 (63 - s) (by omega) (by omega)
  rwa [getLsbD_rotateLeft hk (by omega), show 63 - (63 - s) = s by omega] at hbit

theorem window_of_checks_not (hk : k < 64) (h : checks (~~~word.rotateLeft k) = true) {s : ℕ}
    (hs : s < 29) : word.getMsbD ((s + k) % 64) = true := by
  have hbit := (preamble_of_checks h).2 (63 - s) (by omega) (by omega)
  rw [BitVec.getLsbD_not, getLsbD_rotateLeft hk (by omega), decide_eq_true (by omega : 63 - s < 64),
    Bool.true_and, show 63 - (63 - s) = s by omega] at hbit
  simpa using hbit

theorem exists_in_window {p : ℕ} (hk : k < 64) (hp : p < 64) (h : (p + 64 - k) % 64 < 29) :
    ∃ s < 29, (s + k) % 64 = p :=
  ⟨(p + 64 - k) % 64, h, by omega⟩

theorem not_checks_not_rotateLeft (hk : k < 64) :
    ¬checks (~~~(encode d).rotateLeft k) = true := by
  intro h
  have hfalse : ∃ p < 64, (p + 64 - k) % 64 < 29 ∧ (encode d).getMsbD p = false := by
    rcases (by omega : k < 32 ∨ (32 ≤ k ∧ k < 56) ∨ 56 ≤ k) with hk' | hk' | hk'
    · exact ⟨max k 3, by omega, by omega, getMsbD_encode_gap (by omega) (by omega)⟩
    · exact ⟨55, by decide, by omega, getMsbD_encode_preamble.2.2.2⟩
    · exact ⟨3, by decide, by omega, getMsbD_encode_gap (by decide) (by decide)⟩
  obtain ⟨p, hp, hwindow, hfalse⟩ := hfalse
  obtain ⟨s, hs, rfl⟩ := exists_in_window hk hp hwindow
  rw [window_of_checks_not hk h hs] at hfalse
  cases hfalse

theorem checks_rotateLeft (hk : k < 64) (h : checks ((encode d).rotateLeft k) = true) : k = 3 := by
  have hwindow : ∀ p < 64, (p + 64 - k) % 64 < 29 → (encode d).getMsbD p = false := by
    intro p hp hlt
    obtain ⟨s, hs, rfl⟩ := exists_in_window hk hp hlt
    exact window_of_checks hk h hs
  have hout : ∀ p < 64, (encode d).getMsbD p = true → 29 ≤ (p + 64 - k) % 64 := by
    intro p hp htrue
    apply Nat.le_of_not_lt
    intro hlt
    rw [hwindow p hp hlt] at htrue
    cases htrue
  obtain ⟨hzero, htwo, hthirtyTwo, -⟩ := @getMsbD_encode_preamble d
  have h0 := hout 0 (by decide) hzero
  have h2 := hout 2 (by decide) htwo
  have h32 := hout 32 (by decide) hthirtyTwo
  by_contra hne
  rcases (by omega : k = 33 ∨ k = 34 ∨ k = 35) with rfl | rfl | rfl
  · have hodd := hwindow 38 (by decide) (by decide)
    have hlow : ∀ i < 12, (fcAndCard d).getLsbD i = false := by
      intro i hi
      obtain ⟨p, hle, hle', heq⟩ := @exists_position d i hi
      exact heq.symm.trans (hwindow p (by omega) (by omega))
    have hsum : ∑ i ∈ range 12, ((fcAndCard d).getLsbD i).toNat = 0 := by
      apply sum_eq_zero
      intro i hi
      rw [hlow i (mem_range.mp hi)]
      rfl
    rw [getMsbD_encode_odd, oddParitySum, hsum] at hodd
    cases hodd
  · have hchecksum : IndalaFormat.checksum ((encode d).rotateLeft 34) = 0 := by
      apply BitVec.eq_of_getLsbD_eq
      intro i hi
      rw [IndalaFormat.checksum, getLsbD_extract hi, getLsbD_rotateLeft hk (by omega),
        getMsbD_encode_gap (by omega) (by omega)]
      simp
    simp only [checks, hchecksum, Bool.and_eq_true, decide_eq_true_eq] at h
    have hzero := h.2
    split at hzero <;> cases hzero
  · have hlast := hwindow 63 (by decide) (by decide)
    have hnext := hwindow 62 (by decide) (by decide)
    rw [getMsbD_encode_checksum, hlast] at hnext
    cases hnext

end Rotations

section Words

variable {raw' : BitVec 64}

theorem getLsbD_of_extract {start len : ℕ}
    (h : raw.extractLsb' start len = raw'.extractLsb' start len) (hi : start ≤ i)
    (hi' : i < start + len) : raw.getLsbD i = raw'.getLsbD i := by
  obtain ⟨j, rfl⟩ := Nat.exists_eq_add_of_le hi
  rw [← getLsbD_extract (by omega : j < len), h, getLsbD_extract (by omega)]

theorem shiftAll_injective {w : ℕ} {l l' : List Bool} (hl : l.length = w) (hl' : l'.length = w)
    (h : shiftAll (0 : BitVec w) l = shiftAll 0 l') : l = l' := by
  apply List.ext_getElem (hl.trans hl'.symm)
  intro j hj hj'
  have hbit : (shiftAll (0 : BitVec w) l).getLsbD (w - 1 - j) =
      (shiftAll (0 : BitVec w) l').getLsbD (w - 1 - j) := by
    rw [h]
  rw [getLsbD_shiftAll (by omega) (by omega), getLsbD_shiftAll (by omega) (by omega), hl, hl',
    show w - 1 - (w - 1 - j) = j by omega] at hbit
  rwa [List.getD_eq_getElem _ _ hj, List.getD_eq_getElem _ _ hj'] at hbit

theorem getLsbD_of_x (h : facility raw = facility raw') :
    ∀ i ∈ [9, 17, 22, 19, 18, 13, 27, 8], raw.getLsbD i = raw'.getLsbD i :=
  List.map_inj_left.mp (shiftAll_injective rfl rfl h)

theorem getLsbD_of_y (h : number raw = number raw') :
    ∀ i ∈ [24, 21, 23, 26, 14, 30, 31, 15, 20, 33, 29, 12, 10, 7, 16, 25],
      raw.getLsbD i = raw'.getLsbD i :=
  List.map_inj_left.mp (shiftAll_injective rfl rfl h)

theorem toNat_injective {b b' : Bool} (h : b.toNat = b'.toNat) : b = b' := by
  cases b <;> cases b' <;> first | rfl | cases h

theorem wiegandBits_unique {facility : BitVec 8} {number : BitVec 16} {p1 p2 p1' p2' : Bool}
    (h : wiegandBits facility number p1 p2 = true)
    (h' : wiegandBits facility number p1' p2' = true) : p1 = p1' ∧ p2 = p2' := by
  simp only [wiegandBits, Bool.and_eq_true, decide_eq_true_eq] at h h'
  have hp1 := Bool.toNat_le p1
  have hp2 := Bool.toNat_le p2
  have hp1' := Bool.toNat_le p1'
  have hp2' := Bool.toNat_le p2'
  constructor
  · apply toNat_injective
    omega
  · apply toNat_injective
    omega

theorem sumToCheck_of_y (h : number raw = number raw') : sumToCheck raw = sumToCheck raw' := by
  have hmap : [21, 26, 31, 15, 33, 29, 7, 25].map (fun i => (raw.getLsbD i).toNat) =
      [21, 26, 31, 15, 33, 29, 7, 25].map fun i => (raw'.getLsbD i).toNat := by
    apply List.map_congr_left
    intro i hi
    have hsub : ∀ i ∈ [21, 26, 31, 15, 33, 29, 7, 25],
        i ∈ [24, 21, 23, 26, 14, 30, 31, 15, 20, 33, 29, 12, 10, 7, 16, 25] := by decide
    rw [getLsbD_of_y h i (hsub i hi)]
  rw [sumToCheck, hmap, sumToCheck]

theorem checksum_of_checks (h : checks raw = true) :
    IndalaFormat.checksum raw = if sumToCheck raw % 2 = 0 then 0b10 else 0b01 := by
  simp only [checks, Bool.and_eq_true, decide_eq_true_eq] at h
  exact h.2

theorem eq_of_passes (h : Passes raw) (h' : Passes raw') (hstatic : StaticBits raw)
    (hstatic' : StaticBits raw') (hfacility : facility raw = facility raw')
    (hnumber : number raw = number raw') : raw = raw' := by
  have hchecksum : IndalaFormat.checksum raw = IndalaFormat.checksum raw' := by
    rw [checksum_of_checks h.1, checksum_of_checks h'.1, sumToCheck_of_y hnumber]
  have hparity := h'.2
  rw [← hfacility, ← hnumber] at hparity
  obtain ⟨hp1, hp2⟩ := wiegandBits_unique h.2 hparity
  have hcover : ∀ i < 34, i < 3 ∨ (3 ≤ i ∧ i < 5) ∨ (5 ≤ i ∧ i < 7) ∨ i = 11 ∨ i = 28 ∨ i = 32 ∨
      i ∈ [9, 17, 22, 19, 18, 13, 27, 8] ∨
        i ∈ [24, 21, 23, 26, 14, 30, 31, 15, 20, 33, 29, 12, 10, 7, 16, 25] := by decide
  apply BitVec.eq_of_getLsbD_eq
  intro i hi
  rcases Nat.lt_trichotomy i 34 with hlt | rfl | hgt
  · rcases hcover i hlt with hi | ⟨hle, hi⟩ | ⟨hle, hi⟩ | rfl | rfl | rfl | hi | hi
    · exact getLsbD_of_extract (hstatic.1.trans hstatic'.1.symm) (Nat.zero_le i) hi
    · exact getLsbD_of_extract hchecksum hle hi
    · exact getLsbD_of_extract (hstatic.2.1.trans hstatic'.2.1.symm) hle hi
    · exact hstatic.2.2.trans hstatic'.2.2.symm
    · exact hp2
    · exact hp1
    · exact getLsbD_of_x hfacility i hi
    · exact getLsbD_of_y hnumber i hi
  · exact (preamble_of_checks h.1).1.trans (preamble_of_checks h'.1).1.symm
  · exact ((preamble_of_checks h.1).2 i hgt hi).trans ((preamble_of_checks h'.1).2 i hgt hi).symm

end Words

theorem exists_card (facility : BitVec 8) (number : BitVec 16) :
    ∃ d : Vector (BitVec 8) 3, d.getD 0 0 = facility ∧ cardNumber d = number := by
  refine ⟨#v[facility, number.extractLsb' 8 8, number.extractLsb' 0 8], rfl, ?_⟩
  apply BitVec.eq_of_getLsbD_eq
  intro i hi
  show (number.extractLsb' 8 8 ++ number.extractLsb' 0 8).getLsbD i = _
  rw [BitVec.getLsbD_append]
  split
  · next hlow => rw [getLsbD_extract hlow, Nat.zero_add]
  · next hhigh =>
    rw [getLsbD_extract (by omega)]
    congr 1
    omega

/-- A word that passes with the right static bits and balanced parities is one of the encoder. -/
theorem exists_layout (h : Passes raw) (hstatic : StaticBits raw)
    (hbalanced : Balanced (facility raw) (number raw)) : ∃ d, raw = layout d := by
  obtain ⟨d, hfacility, hnumber⟩ := exists_card (facility raw) (number raw)
  have hpasses : Passes (layout d) := by
    rw [passes_layout_iff, hfacility, hnumber]
    exact hbalanced
  refine ⟨d, eq_of_passes h hpasses hstatic staticBits_layout ?_ ?_⟩
  · exact hfacility.symm.trans facility_layout.symm
  · exact hnumber.symm.trans number_layout.symm

theorem passes_rotation {v : BitVec 64} (hk : k < 64)
    (hword : word = (encode d).rotateLeft k ∨ word = ~~~((encode d).rotateLeft k))
    (hv : v = word ∨ v = ~~~word) (h : Passes v) : k = 3 ∧ v = layout d := by
  have hrotation : v = (encode d).rotateLeft k ∨ v = ~~~((encode d).rotateLeft k) := by
    rcases hword with rfl | rfl <;> rcases hv with rfl | rfl
    · exact .inl rfl
    · exact .inr rfl
    · exact .inr rfl
    · exact .inl (BitVec.not_not)
  rcases hrotation with rfl | rfl
  · obtain rfl := checks_rotateLeft hk h.1
    exact ⟨rfl, rfl⟩
  · exact absurd h.1 (not_checks_not_rotateLeft hk)

theorem readsCard_iff : ReadsCard d ↔ Balanced (d.getD 0 0) (cardNumber d) := by
  rw [← passes_layout_iff]
  constructor
  · intro h
    obtain ⟨t, ht, hready, -⟩ :=
      h 130 le_rfl ⟨layout d, 0, 0, false⟩ rfl 3 (by decide) (.inl rfl)
    obtain ⟨t', ht', hready', -⟩ := @verified 130 ⟨layout d, 0, 0, false⟩ rfl le_rfl
    obtain rfl := Option.some.inj (ht.symm.trans ht')
    obtain ⟨v, hv, hpasses⟩ := hready'.mp (hready.mpr rfl)
    obtain ⟨-, rfl⟩ := passes_rotation (by decide : 3 < 64) (.inl rfl) hv hpasses
    exact hpasses
  · intro hlayout fuel hfuel s hnot k hk hword
    obtain ⟨t, ht, hready, hread⟩ := verified hnot hfuel
    have hfound : k = 3 → layout d = s.readedData ∨ layout d = ~~~s.readedData := by
      rintro rfl
      rcases hword with hword | hword
      · exact .inl hword.symm
      · rw [hword, BitVec.not_not]
        exact .inr rfl
    refine ⟨t, ht, ?_, ?_⟩
    · rw [hready]
      constructor
      · rintro ⟨v, hv, hpasses⟩
        exact (passes_rotation hk hword hv hpasses).1
      · exact fun hthree => ⟨layout d, hfound hthree, hlayout⟩
    · intro hthree
      obtain ⟨hfacility, hnumber⟩ := hread _ (hfound hthree) hlayout
      exact ⟨hfacility.trans facility_layout, hnumber.trans number_layout⟩

theorem acceptsEncoded_iff : AcceptsEncoded word ↔
    ∀ v, (v = word ∨ v = ~~~word) → Passes v →
      StaticBits v ∧ Balanced (facility v) (number v) := by
  constructor
  · intro h v hv hpasses
    obtain ⟨t, ht, haccepted⟩ := h 130 le_rfl ⟨word, 0, 0, false⟩ rfl rfl
    obtain ⟨t', ht', hready, -⟩ := @verified 130 ⟨word, 0, 0, false⟩ rfl le_rfl
    obtain rfl := Option.some.inj (ht.symm.trans ht')
    obtain ⟨d, hword⟩ := haccepted (hready.mpr ⟨v, hv, hpasses⟩)
    obtain ⟨-, rfl⟩ := passes_rotation (by decide : 3 < 64) hword hv hpasses
    refine ⟨staticBits_layout, ?_⟩
    rw [facility_layout, number_layout]
    exact passes_layout_iff.mp hpasses
  · intro h fuel hfuel s hnot hword
    obtain ⟨t, ht, hready, -⟩ := verified hnot hfuel
    refine ⟨t, ht, ?_⟩
    rw [hready, hword]
    rintro ⟨v, hv, hpasses⟩
    obtain ⟨hstatic, hbalanced⟩ := h v hv hpasses
    obtain ⟨d, rfl⟩ := exists_layout hpasses hstatic hbalanced
    refine ⟨d, ?_⟩
    rcases hv with hv | hv
    · exact .inl hv.symm
    · rw [hv, BitVec.not_not]
      exact .inr rfl

/-- The cards that the decoder reads, the words that it should not accept, and the end of its
loops. -/
theorem indala_codec (d : Vector (BitVec 8) 3) (word : BitVec 64) (s : State) :
    (ReadsCard d ↔ Balanced (d.getD 0 0) (cardNumber d)) ∧
    (AcceptsEncoded word ↔ ∀ v, (v = word ∨ v = ~~~word) → Passes v →
      StaticBits v ∧ Balanced (facility v) (number v)) ∧
    ∀ fuel ≥ 130, (verify fuel s).isSome := by
  refine ⟨readsCard_iff, acceptsEncoded_iff, ?_⟩
  intro fuel hfuel
  rw [verify_eq hfuel]
  rfl

/-- The card with facility 128 and number 0 is never read. -/
theorem indala_codec_facility_128 : ¬((∀ d, ReadsCard d) ∧ ∀ word, AcceptsEncoded word) := by
  rintro ⟨h, -⟩
  have hbalanced := readsCard_iff.mp (h #v[128, 0, 0])
  exact absurd hbalanced.1 (by decide)

end FlipperZero.LfRfid.DecoderIndala
