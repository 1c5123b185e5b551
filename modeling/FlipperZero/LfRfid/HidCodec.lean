import FlipperZero.LfRfid.ProtocolHid10301

/-! # The HID H10301 codec

The checks of `can_be_decoded` fix every bit of the card data but those of the three bytes: the first
44 bits are the same for all cards, the pairs behind them stand for 26 bits, and the two parity tests
give the outer two of these.
-/

namespace FlipperZero.LfRfid.ProtocolHID10301

open Lib Finset

variable {cardData : HID10301CardData} {bits : List Bool} {r r' : BitVec 32} {n i b : ℕ}

theorem getLsbD_of_mask {w m c : BitVec 32} {s k : ℕ} (h : w >>> s &&& m = c)
    (hm : m.getLsbD k = true) : w.getLsbD (s + k) = c.getLsbD k := by
  rw [← h, BitVec.getLsbD_and, hm, Bool.and_true, BitVec.getLsbD_ushiftRight]

theorem getMsbD_eq_getLsbD {w : BitVec 32} {j k : ℕ} (h : j + k = 31) :
    w.getMsbD j = w.getLsbD k := by
  have hk : 32 - 1 - j = k := by omega
  rw [BitVec.getMsbD_eq_getLsbD, hk, decide_eq_true (by omega), Bool.true_and]

theorem register_of_checks {w w' : BitVec 32}
    (hw : ∀ j < 32, (register cardData).getMsbD j = w.getMsbD j)
    (hw' : ∀ j < 32, (register cardData).getMsbD (32 + j) = w'.getMsbD j)
    (hpreamble : (w >>> 24).setWidth 8 = 0x1D#8) (hcompany : w >>> 10 &&& 0x3FFF#32 = 0x1556#32)
    (hformat : (w &&& 0x3FF#32) <<< 12 ||| (w' >>> 20 &&& 0xFFF#32) = 0x155556#32) (hn : n < 44) :
    (register cardData).getMsbD n = fixedBits.getMsbD n := by
  have hfirst : ∀ n < 8, fixedBits.getMsbD n = (0x1D#8).getLsbD (7 - n) := by decide
  have hsecond : ∀ n < 14, fixedBits.getMsbD (8 + n) = (0x1556#32).getLsbD (13 - n) := by decide
  have hthird : ∀ n < 22, fixedBits.getMsbD (22 + n) = (0x155556#32).getLsbD (21 - n) := by decide
  have hmask : ∀ k < 14, (0x3FFF#32).getLsbD k = true := by decide
  have hlow : ∀ k < 32, (0x3FF#32).getLsbD k = decide (k < 10) := by decide
  have hhigh : ∀ k < 32, (0xFFF#32).getLsbD k = decide (k < 12) := by decide
  rcases (by omega : n < 8 ∨ (8 ≤ n ∧ n < 22) ∨ 22 ≤ n) with h | ⟨h, h'⟩ | h
  · rw [hfirst n h, ← hpreamble, BitVec.getLsbD_setWidth, decide_eq_true (by omega), Bool.true_and,
      BitVec.getLsbD_ushiftRight, hw n (by omega)]
    exact getMsbD_eq_getLsbD (by omega)
  · obtain ⟨m, rfl⟩ := Nat.exists_eq_add_of_le h
    rw [hsecond m (by omega), ← getLsbD_of_mask hcompany (hmask _ (by omega)),
      hw (8 + m) (by omega)]
    exact getMsbD_eq_getLsbD (by omega)
  · obtain ⟨m, rfl⟩ := Nat.exists_eq_add_of_le h
    rw [hthird m (by omega), ← hformat, BitVec.getLsbD_or, BitVec.getLsbD_and,
      BitVec.getLsbD_shiftLeft, BitVec.getLsbD_and, BitVec.getLsbD_ushiftRight,
      hhigh _ (by omega), decide_eq_true (by omega : 21 - m < 32), Bool.true_and]
    rcases Nat.lt_or_ge m 10 with hm | hm
    · rw [hlow _ (by omega), decide_eq_false (by omega : ¬21 - m < 12),
        decide_eq_true (by omega : 21 - m - 12 < 10), Bool.and_false, Bool.or_false, Bool.and_true,
        Bool.not_false, Bool.true_and, hw (22 + m) (by omega)]
      exact getMsbD_eq_getLsbD (by omega)
    · have hidx : 22 + m = 32 + (m - 10) := by omega
      rw [decide_eq_true (by omega : 21 - m < 12), Bool.not_true, Bool.false_and, Bool.false_or,
        Bool.and_true, hidx, hw' (m - 10) (by omega)]
      exact getMsbD_eq_getLsbD (by omega)

theorem length_pairs : (pairs cardData).length = 26 := by
  simp [pairs]

theorem getLsbD_pairs (h : i < (pairs cardData).length) (hb : b < 2) :
    (pairs cardData)[i].getLsbD b = (register cardData).getMsbD (45 + 2 * i - b) := by
  have hi : i < 26 := h.trans_eq length_pairs
  simp only [pairs]
  rcases Nat.lt_or_ge i 10 with hlt | hge
  · rw [List.getElem_append_left (by simpa using hlt), List.getElem_map, List.getElem_range,
      BitVec.getLsbD_setWidth, decide_eq_true hb, Bool.true_and, BitVec.getLsbD_ushiftRight,
      ← getMsbD_word (i := 1) (j := 13 + 2 * i - b) (by omega) (by decide) (by omega) (by omega)]
    exact (getMsbD_eq_getLsbD (by omega)).symm
  · rw [List.getElem_append_right (by simpa using hge), List.getElem_map, List.getElem_range,
      List.length_map, List.length_range, BitVec.getLsbD_setWidth, decide_eq_true hb, Bool.true_and,
      BitVec.getLsbD_ushiftRight,
      ← getMsbD_word (i := 2) (j := 2 * (i - 10) + 1 - b) (by omega) (by decide) (by omega) (by omega)]
    exact (getMsbD_eq_getLsbD (by omega)).symm

theorem foldlM_decodePair_eq_some {l : List (BitVec 2)} (h : l.foldlM decodePair r = some r') :
    ∃ bits : List Bool, l = bits.map pairOf ∧ r' = shiftAll r bits := by
  induction l generalizing r with
  | nil => exact ⟨[], rfl, (Option.some.inj h).symm⟩
  | cons pair l ih =>
    rw [List.foldlM_cons, decodePair] at h
    split at h
    · next hpair =>
      obtain ⟨bits, hbits, hr⟩ := ih h
      exact ⟨false :: bits, by rw [hpair, hbits]; rfl, hr⟩
    · split at h
      · next hpair =>
        obtain ⟨bits, hbits, hr⟩ := ih h
        exact ⟨true :: bits, by rw [hpair, hbits]; rfl, hr⟩
      · cases h

theorem getLsbD_fcCn_decode (h : pairs cardData = bits.map pairOf) (hi : i < 24) :
    (fcCn (decode cardData)).getLsbD i = (shiftAll (0 : BitVec 32) bits).getLsbD (1 + i) := by
  have hresult : (pairs cardData).foldl
      (fun result pair => (decodePair result pair).getD result) 0 = shiftAll 0 bits := by
    rw [h, foldl_decodePair]
  have hbyte (s : ℕ) {k : ℕ} (hk : k < 8) : ((shiftAll (0 : BitVec 32) bits >>> s).setWidth 8).getLsbD k =
      (shiftAll (0 : BitVec 32) bits).getLsbD (s + k) := by
    rw [BitVec.getLsbD_setWidth, decide_eq_true hk, Bool.true_and, BitVec.getLsbD_ushiftRight]
  have hidx : i = 8 * (i / 8) + i % 8 := (Nat.div_add_mod i 8).symm
  have hmod : i % 8 < 8 := Nat.mod_lt i (by decide)
  obtain ⟨hlow, hmiddle, hhigh⟩ := getLsbD_fcCn (d := decode cardData) hmod
  have hdecode : decode cardData = #v[(shiftAll (0 : BitVec 32) bits >>> 17).setWidth 8,
      (shiftAll (0 : BitVec 32) bits >>> 9).setWidth 8,
      (shiftAll (0 : BitVec 32) bits >>> 1).setWidth 8] := by
    simp only [decode, hresult]
  rcases (by omega : i / 8 = 0 ∨ i / 8 = 1 ∨ i / 8 = 2) with hdiv | hdiv | hdiv
  · rw [hidx, hdiv, hlow, hdecode]
    exact (hbyte 1 hmod).trans (congrArg _ (by omega))
  · rw [hidx, hdiv, hmiddle, hdecode]
    exact (hbyte 9 hmod).trans (congrArg _ (by omega))
  · rw [hidx, hdiv, hhigh, hdecode]
    exact (hbyte 17 hmod).trans (congrArg _ (by omega))

theorem dataBits_decode (h : pairs cardData = bits.map pairOf)
    (hparity : parityTests (shiftAll 0 bits) = true) : dataBits (decode cardData) = bits := by
  have hlen : bits.length = 26 := by
    rw [← @length_pairs cardData, h, List.length_map]
  have hfcCn {k : ℕ} (hk : k < 24) := getLsbD_fcCn_decode h hk
  have hodd : oddParitySum (fcCn (decode cardData)) =
      1 + ∑ i ∈ range 12, ((shiftAll (0 : BitVec 32) bits).getLsbD (i + 1)).toNat := by
    apply congrArg (1 + ·)
    refine sum_congr rfl fun i hi => ?_
    rw [hfcCn ((mem_range.mp hi).trans (by decide)), Nat.add_comm 1 i]
  have heven : evenParitySum (fcCn (decode cardData)) =
      ∑ i ∈ range 12, ((shiftAll (0 : BitVec 32) bits).getLsbD (13 + i)).toNat := by
    refine sum_congr rfl fun i hi => ?_
    rw [hfcCn (by have := mem_range.mp hi; omega), ← Nat.add_assoc]
  rw [parityTests, Bool.and_eq_true, decide_eq_true_eq, decide_eq_true_eq, sum_range_succ',
    sum_range_succ _ 12, ← heven] at hparity
  obtain ⟨hlow, hhigh⟩ := hparity
  change (_ + ((shiftAll (0 : BitVec 32) bits).getLsbD 25).toNat) % 2 ≠ 1 at hhigh
  have hbit (b : Bool) (s : ℕ) : b = decide (s % 2 = 1) ↔ b.toNat % 2 = s % 2 := by
    cases b <;> simp <;> omega
  have hresult : ∀ k < 26, (shiftAll (0 : BitVec 32) bits).getLsbD k =
      (result (decode cardData)).getLsbD k := by
    intro k hk
    rcases k with _ | k
    · rw [getLsbD_result_zero, hodd, hbit]
      omega
    · rcases Nat.lt_or_ge k 24 with hlt | hge
      · rw [getLsbD_result_succ hlt, hfcCn hlt, Nat.add_comm]
      · obtain rfl : k = 24 := by omega
        change (shiftAll (0 : BitVec 32) bits).getLsbD 25 = _
        rw [getLsbD_result_last, hbit]
        omega
  refine List.ext_getElem (by rw [length_dataBits, hlen]) fun i hi hi' => ?_
  rw [length_dataBits] at hi
  have hlast := hresult (25 - i) (by omega)
  have hidx : bits.length - 1 - (25 - i) = i := by omega
  have hback : 25 - (25 - i) = i := by omega
  rw [getLsbD_result (by omega), getLsbD_shiftAll (by omega) (by omega), hidx, hback,
    List.getD_eq_getElem _ _ hi', List.getD_eq_getElem _ _ (by rwa [length_dataBits])] at hlast
  exact hlast.symm

theorem encode_decode (h : canBeDecoded cardData = true) : encode (decode cardData) = cardData := by
  rw [canBeDecoded, Bool.and_eq_true, Bool.and_eq_true, Bool.and_eq_true, decide_eq_true_eq,
    decide_eq_true_eq, decide_eq_true_eq] at h
  obtain ⟨⟨⟨hpreamble, hcompany⟩, hformat⟩, hpairs⟩ := h
  split at hpairs
  · cases hpairs
  · next r hr =>
    obtain ⟨bits, hbits, rfl⟩ := foldlM_decodePair_eq_some hr
    have hencode : pairs (encode (decode cardData)) = pairs cardData := by
      rw [pairs_encode, dataBits_decode hbits hpairs, hbits]
    apply register_injective
    apply BitVec.eq_of_getMsbD_eq
    intro n hn
    by_cases hlt : n < 44
    · have hw : ∀ j < 32, (register cardData).getMsbD j = cardData[0].getMsbD j :=
        fun j hj => (getMsbD_word (by omega) (by decide) (by omega) hj).symm
      have hw' : ∀ j < 32, (register cardData).getMsbD (32 + j) = cardData[1].getMsbD j :=
        fun j hj => (getMsbD_word (by omega) (by decide) (by omega) hj).symm
      rw [register_fixed hlt, register_of_checks hw hw' hpreamble hcompany hformat hlt]
    · have hidx : n = 45 + 2 * ((n - 44) / 2) - (1 - (n - 44) % 2) := by omega
      have hlt : (n - 44) / 2 < 26 := by omega
      rw [hidx, ← getLsbD_pairs (hlt.trans_eq length_pairs.symm) (by omega),
        ← getLsbD_pairs (hlt.trans_eq length_pairs.symm) (by omega)]
      simp only [hencode]

/-- The accepted words are the encodings of payloads, and `decode` is inverse to `encode`. -/
theorem hid_h10301_codec : (∀ cardData, canBeDecoded cardData = true ↔ ∃ d, encode d = cardData) ∧
    (∀ d, decode (encode d) = d) ∧
    ∀ cardData, canBeDecoded cardData = true → encode (decode cardData) = cardData := by
  refine ⟨fun cardData => ?_, decode_encode, fun cardData => encode_decode⟩
  constructor
  · intro h
    exact ⟨decode cardData, encode_decode h⟩
  · rintro ⟨d, rfl⟩
    exact canBeDecoded_encode d

end FlipperZero.LfRfid.ProtocolHID10301
