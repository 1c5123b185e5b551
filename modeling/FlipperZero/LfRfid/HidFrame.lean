import FlipperZero.LfRfid.HidAir

/-! # The card data that the HID decoder accepts

Three ones in a row occur in the endless stream only in the preamble. So words that have taken in
some bits of the stream, behind zeros or behind card data of the payload, are accepted only where
they are card data of the payload again.
-/

namespace FlipperZero.LfRfid

open Lib ProtocolHID10301 DecoderHID26

variable {d : Vector (BitVec 8) 3} {n s len : ℕ} {base : BitVec 96} {w : HID10301CardData}

theorem hidBit_of_lt (hn : n < 96) : hidBit d n = (register (encode d)).getMsbD n := by
  rw [hidBit, Nat.mod_eq_of_lt hn]

theorem hidBit_add_mul (d : Vector (BitVec 8) 3) (m n : ℕ) : hidBit d (96 * m + n) = hidBit d n := by
  rw [hidBit, hidBit, Nat.mul_add_mod]

theorem hidBit_preamble (hn : n < 8) : hidBit d n = preamble.getD n false := by
  rw [hidBit_of_lt (by omega), register_encode (by omega), if_pos hn]

theorem hidBit_pair (hn : n < 44) : hidBit d (9 + 2 * n) = !hidBit d (8 + 2 * n) := by
  obtain ⟨hbit, hbit'⟩ := register_encode_pair (d := d) hn
  rw [hidBit_of_lt (by omega), hidBit_of_lt (by omega), hbit, hbit']

theorem not_pair {v : Bool} (hlow : 8 ≤ n) (hhigh : n < 96) (heven : n % 2 = 0)
    (h : hidBit d n = v) (h' : hidBit d (n + 1) = v) : False := by
  obtain ⟨m, rfl⟩ : ∃ m, n = 8 + 2 * m := ⟨(n - 8) / 2, by omega⟩
  have hnext : 8 + 2 * m + 1 = 9 + 2 * m := by omega
  rw [hnext, hidBit_pair (by omega), h] at h'
  cases v <;> cases h'

theorem not_three_ones (hn : n < 96) (hne : n ≠ 3) (h : hidBit d n = true)
    (h' : hidBit d (n + 1) = true) (h'' : hidBit d (n + 2) = true) : False := by
  have hzero {m : ℕ} (hm : m < 8) (hfalse : preamble.getD m false = false) :
      hidBit d m ≠ true := by
    rw [hidBit_preamble hm, hfalse]
    exact Bool.false_ne_true
  have height : hidBit d 9 = true → hidBit d 8 = true → False := fun h9 h8 =>
    not_pair le_rfl (by decide) rfl h8 h9
  rcases (by omega : n ≤ 2 ∨ 4 ≤ n ∧ n ≤ 6 ∨ n = 7 ∨ n = 95 ∨ 8 ≤ n ∧ n < 95) with
    hle | ⟨hge, hle⟩ | rfl | rfl | ⟨hge, hlt⟩
  · refine hzero (by omega) ?_ h
    rcases (by omega : n = 0 ∨ n = 1 ∨ n = 2) with rfl | rfl | rfl <;> rfl
  · rcases (by omega : n = 4 ∨ n = 5 ∨ n = 6) with rfl | rfl | rfl
    · exact hzero (by decide) rfl h''
    · exact hzero (by decide) rfl h'
    · exact hzero (by decide) rfl h
  · exact height h'' h'
  · have hwrap : hidBit d (95 + 1) = hidBit d 0 := hidBit_add_mul d 1 0
    exact hzero (by decide) rfl (hwrap ▸ h')
  · rcases Nat.mod_two_eq_zero_or_one n with heven | hodd
    · exact not_pair hge (by omega) heven h h'
    · exact not_pair (by omega) (by omega) (by omega) h' h''

theorem three_ones (h : hidBit d n = true) (h' : hidBit d (n + 1) = true)
    (h'' : hidBit d (n + 2) = true) : n % 96 = 3 := by
  by_contra hne
  rw [← Nat.div_add_mod n 96, hidBit_add_mul] at h
  rw [← Nat.div_add_mod n 96, Nat.add_assoc, hidBit_add_mul] at h' h''
  exact not_three_ones (Nat.mod_lt _ (by decide)) hne h h' h''

theorem preamble_of_canBeDecoded (h : canBeDecoded w = true) (hn : n < 8) :
    (register w).getMsbD n = hidBit d n := by
  have hpreamble : (w[0] >>> 24).setWidth 8 = 0x1D#8 := by
    simp only [canBeDecoded, Bool.and_eq_true, decide_eq_true_eq] at h
    exact h.1.1.1
  have hconst : ∀ n < 8, (0x1D#8).getMsbD n = preamble.getD n false := by decide
  have hidx : n + 32 - 8 - 24 = n := by omega
  rw [hidBit_preamble hn, ← hconst n hn, ← hpreamble, BitVec.getMsbD_setWidth,
    BitVec.getMsbD_ushiftRight, hidx, decide_eq_true (by omega), decide_eq_true (by omega),
    decide_eq_false (by omega), getMsbD_word (n := n) (by omega) (by decide) (by omega) (by omega)]
  rfl

/-- Words that have taken in bits of the stream, behind zeros or behind card data, are accepted only
as card data. -/
theorem eq_of_canBeDecoded (hbase : base = 0 ∨ base = register (encode d)) (hpos : 0 < len)
    (hw : register w = shiftAll base (bitsFrom (hidBit d) s len)) (h : canBeDecoded w = true) :
    register w = register (encode d) := by
  have hfirst {n : ℕ} (hn : n < 8) : (register w).getMsbD n = hidBit d n :=
    preamble_of_canBeDecoded h hn
  have hold {n : ℕ} (hlt : n + len < 96) : (register w).getMsbD n = base.getMsbD (n + len) := by
    rw [hw, getMsbD_shiftAll (by omega), length_bitsFrom, if_pos hlt]
  have hnew {n : ℕ} (hn : n < 96) (hge : 96 ≤ n + len) :
      (register w).getMsbD n = hidBit d (s + (n + len - 96)) := by
    rw [hw, getMsbD_shiftAll hn, length_bitsFrom, if_neg (Nat.not_lt.mpr hge),
      getD_bitsFrom _ (by omega)]
  rcases Nat.lt_or_ge len 93 with hlt | hge
  · exfalso
    rcases hbase with rfl | rfl
    · have hone := hold (n := 3) (by omega)
      have hzero : (0 : BitVec 96).getMsbD (3 + len) = false := BitVec.getMsbD_zero
      rw [hfirst (by decide), hidBit_preamble (by decide), hzero] at hone
      cases hone
    · have hkept {n : ℕ} (hn : n < 8) (hlt : n + len < 96) :
          hidBit d (len + n) = preamble.getD n false := by
        rw [Nat.add_comm, hidBit_of_lt hlt, ← hold hlt, hfirst hn, hidBit_preamble hn]
      rcases (by omega : len ≤ 90 ∨ len = 91 ∨ len = 92) with hle | rfl | rfl
      · have hplace : (len + 3) % 96 = 3 :=
          three_ones (hkept (by decide) (by omega)) (hkept (n := 4) (by decide) (by omega))
            (hkept (n := 5) (by decide) (by omega))
        omega
      · exact not_pair (by decide) (by decide) rfl (hkept (n := 1) (by decide) (by decide))
          (hkept (n := 2) (by decide) (by decide))
      · exact not_pair (by decide) (by decide) rfl (hkept (n := 0) (by decide) (by decide))
          (hkept (n := 1) (by decide) (by decide))
  · have hones {n : ℕ} (hlow : 3 ≤ n) (hhigh : n ≤ 5) : hidBit d (s + (n + len - 96)) = true := by
      rw [← hnew (by omega) (by omega), hfirst (by omega), hidBit_preamble (by omega)]
      rcases (by omega : n = 3 ∨ n = 4 ∨ n = 5) with rfl | rfl | rfl <;> rfl
    have hplace : (s + (3 + len - 96)) % 96 = 3 := by
      refine three_ones (hones le_rfl (by decide)) ?_ ?_
      · rw [← hones (n := 4) (by decide) (by decide)]
        congr 1
        omega
      · rw [← hones (n := 5) (by decide) (by decide)]
        congr 1
        omega
    refine BitVec.eq_of_getMsbD_eq fun i hi => ?_
    rw [← hidBit_of_lt hi]
    rcases Nat.lt_or_ge i 3 with hlow | hhigh
    · exact hfirst (by omega)
    · rw [hnew hi (by omega), hidBit, hidBit]
      congr 1
      omega

end FlipperZero.LfRfid
