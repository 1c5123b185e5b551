import Mathlib.Data.BitVec
import Mathlib.Data.List.GetD

/-! # Cyclic redundancy checks

A check shifts a remainder down by one place for each bit, and adds the polynomial when a one
leaves it. The remainder is linear in the bits, so an error goes unseen exactly when its own
remainder is zero: no short burst does, and no few bits where the polynomial has no short period.
-/

namespace FlipperZero.Lib

variable {w : ℕ} {poly crc crc' : BitVec w} {b b' : Bool} {bits bits' : List Bool} {n : ℕ}

def feed (poly crc : BitVec w) (b : Bool) : BitVec w :=
  if (crc.getLsbD 0 ^^ b) = true then (crc >>> 1) ^^^ poly else crc >>> 1

def remainder (poly crc : BitVec w) (bits : List Bool) : BitVec w := bits.foldl (feed poly) crc

theorem remainder_append : remainder poly crc (bits ++ bits') =
    remainder poly (remainder poly crc bits) bits' :=
  List.foldl_append

theorem remainder_cons :
    remainder poly crc (b :: bits) = remainder poly (feed poly crc b) bits := rfl

theorem getLsbD_feed : (feed poly crc b).getLsbD n =
    (crc.getLsbD (1 + n) ^^ ((crc.getLsbD 0 ^^ b) && poly.getLsbD n)) := by
  unfold feed
  split
  · next h => rw [h, BitVec.getLsbD_xor, BitVec.getLsbD_ushiftRight, Bool.true_and]
  · next h =>
    rw [Bool.eq_false_of_not_eq_true h, BitVec.getLsbD_ushiftRight, Bool.false_and,
      Bool.xor_false]

theorem feed_xor : feed poly (crc ^^^ crc') (b ^^ b') = feed poly crc b ^^^ feed poly crc' b' := by
  apply BitVec.eq_of_getLsbD_eq
  intro i _
  simp only [getLsbD_feed, BitVec.getLsbD_xor]
  cases poly.getLsbD i with
  | false => simp only [Bool.and_false, Bool.xor_false]
  | true =>
    simp only [Bool.and_true, Bool.xor_assoc, Bool.xor_left_comm]

theorem remainder_xor (h : bits.length = bits'.length) :
    remainder poly (crc ^^^ crc') (List.zipWith (· ^^ ·) bits bits') =
      remainder poly crc bits ^^^ remainder poly crc' bits' := by
  induction bits generalizing bits' crc crc' with
  | nil =>
    obtain rfl := List.eq_nil_of_length_eq_zero h.symm
    rfl
  | cons b bits ih =>
    obtain ⟨b', bits', rfl⟩ := List.exists_cons_of_length_eq_add_one h.symm
    have := @ih (feed poly crc b) (feed poly crc' b') bits' (by simpa using h)
    rwa [← feed_xor] at this

theorem getLsbD_zero_of_feed (hpoly : poly.msb = true)
    (h : (feed poly crc b).getLsbD (w - 1) = false) : crc.getLsbD 0 = b := by
  have hw : poly.getLsbD (w - 1) = true := by rwa [BitVec.msb_eq_getLsbD_last] at hpoly
  rw [getLsbD_feed, BitVec.getLsbD_of_ge crc (1 + (w - 1)) (by omega), hw] at h
  simpa using h

theorem getLsbD_of_remainder_eq_zero (hpoly : poly.msb = true)
    (h : remainder poly crc bits = 0#w) (hlen : bits.length ≤ w) (n : ℕ) :
    crc.getLsbD n = bits.getD n false := by
  have hbound : ∀ n, crc.getLsbD n = bits.getD n false := by
    clear n
    induction bits generalizing crc with
    | nil =>
      obtain rfl : crc = 0#w := h
      simp
    | cons b bits ih =>
      have hnext := @ih (feed poly crc b) h (by simp at hlen; omega)
      have hlow : crc.getLsbD 0 = b := by
        apply getLsbD_zero_of_feed hpoly
        rw [hnext, List.getD_eq_default _ _ (by simp at hlen; omega)]
      rintro (_ | n)
      · exact hlow
      · have := hnext n
        rw [getLsbD_feed, hlow, Bool.xor_self, Bool.false_and, Bool.xor_false] at this
        rw [Nat.add_comm n 1, this, Nat.add_comm 1 n, List.getD_cons_succ]
  exact hbound n

theorem feed_zero_false : feed poly 0#w false = 0#w := by
  simp [feed]

theorem feed_zero_true : feed poly 0#w true = poly := by
  simp [feed]

theorem feed_true : feed poly crc true = feed poly crc false ^^^ poly := by
  have := @feed_xor w poly crc 0#w false true
  rwa [BitVec.xor_zero, feed_zero_true] at this

theorem remainder_of_silent (h : ∀ b ∈ bits, b = false) : remainder poly 0#w bits = 0#w := by
  induction bits with
  | nil => rfl
  | cons b bits ih =>
    obtain rfl := h b List.mem_cons_self
    rw [remainder_cons, feed_zero_false]
    exact ih fun b hb => h b (List.mem_cons_of_mem _ hb)

theorem remainder_self :
    remainder poly crc ((List.range n).map crc.getLsbD) = crc >>> n := by
  induction n with
  | zero => exact (BitVec.ushiftRight_zero crc).symm
  | succ n ih =>
    rw [List.range_succ, List.map_append, remainder_append, ih]
    apply BitVec.eq_of_getLsbD_eq
    intro i _
    refine getLsbD_feed.trans ?_
    simp only [BitVec.getLsbD_ushiftRight, Nat.add_zero, Bool.xor_self, Bool.false_and,
      Bool.xor_false]
    rw [Nat.add_assoc]

theorem remainder_bits (value : BitVec w) :
    remainder poly crc ((List.range n).map value.getLsbD) =
      remainder poly (crc ^^^ value) (List.replicate n false) ^^^ (value >>> n) := by
  have hcrc : crc ^^^ value ^^^ value = crc := by
    rw [BitVec.xor_assoc, BitVec.xor_self, BitVec.xor_zero]
  have hlength : (List.replicate n false).length = ((List.range n).map value.getLsbD).length := by
    simp
  have hlinear := @remainder_xor w poly (crc ^^^ value) value _ _ hlength
  have hbits : List.zipWith (· ^^ ·) (List.replicate n false) ((List.range n).map value.getLsbD) =
      (List.range n).map value.getLsbD := by
    apply List.ext_getElem
    · simp
    · intro i _ _
      simp
  rwa [hcrc, hbits, remainder_self] at hlinear

theorem remainder_replicate_xor {low high : BitVec w} (hhigh : ∀ i < n, high.getLsbD i = false) :
    remainder poly (low ^^^ high) (List.replicate n false) =
      remainder poly low (List.replicate n false) ^^^ (high >>> n) := by
  have hzeros : (List.range n).map high.getLsbD = List.replicate n false := by
    apply List.ext_getElem
    · simp
    · intro i hi _
      simpa using hhigh i (by simpa using hi)
  have hself := @remainder_bits w poly low n high
  rw [hzeros] at hself
  rw [hself, BitVec.xor_assoc, BitVec.xor_self, BitVec.xor_zero]

theorem exists_first_true (h : true ∈ bits) :
    ∃ before after, bits = before ++ true :: after ∧ ∀ b ∈ before, b = false := by
  induction bits with
  | nil => cases h
  | cons b bits ih =>
    cases b with
    | true => exact ⟨[], bits, rfl, by simp⟩
    | false =>
      obtain ⟨before, after, rfl, hbefore⟩ := ih (by simpa using h)
      refine ⟨false :: before, after, rfl, ?_⟩
      rintro b (_ | ⟨_, hb⟩)
      · rfl
      · exact hbefore b hb

theorem silent_of_count (h : bits.count true = 0) : ∀ b ∈ bits, b = false := by
  intro b hb
  cases b with
  | false => rfl
  | true => exact absurd hb (List.count_eq_zero.mp h)

theorem remainder_of_first {before after : List Bool} (h : ∀ b ∈ before, b = false) :
    remainder poly 0#w (before ++ true :: after) = remainder poly poly after := by
  rw [remainder_append, remainder_of_silent h, remainder_cons, feed_zero_true]

section Detection

variable (hpoly : poly.msb = true)

include hpoly

theorem length_pos_of_msb : 0 < w := by
  rcases Nat.eq_zero_or_pos w with rfl | hw
  · rw [BitVec.msb_eq_getLsbD_last, BitVec.getLsbD_of_ge _ _ (Nat.zero_le _)] at hpoly
    cases hpoly
  · exact hw

theorem eq_zero_of_silent (h : ∀ b ∈ bits, b = false) (hzero : remainder poly crc bits = 0#w) :
    crc = 0#w := by
  induction bits generalizing crc with
  | nil => exact hzero
  | cons b bits ih =>
    obtain rfl := h b List.mem_cons_self
    have hfeed := ih (fun b hb => h b (List.mem_cons_of_mem _ hb)) hzero
    have hbits : ∀ n, crc.getLsbD n = [false].getD n false :=
      getLsbD_of_remainder_eq_zero hpoly hfeed (length_pos_of_msb hpoly)
    apply BitVec.eq_of_getLsbD_eq
    intro i _
    rw [hbits i]
    cases i <;> simp

theorem remainder_ne_zero_of_burst {k : ℕ} (hmem : true ∈ bits)
    (hburst : ∀ i, bits.getD i false = true → k ≤ i ∧ i < k + w) : remainder poly 0#w bits ≠ 0#w := by
  intro hzero
  have hsplit : bits = bits.take k ++ ((bits.drop k).take w ++ bits.drop (k + w)) := by
    rw [← List.drop_drop, List.take_append_drop, List.take_append_drop]
  have hbefore : ∀ b ∈ bits.take k, b = false := by
    intro b hb
    obtain ⟨i, hi, rfl⟩ := List.getElem_of_mem hb
    rw [List.getElem_take]
    by_contra hone
    have hget : bits.getD i false = true := by
      rw [List.getD_eq_getElem _ _ (by simp at hi; omega)]
      exact Bool.eq_true_of_not_eq_false hone
    have := hburst i hget
    simp at hi
    omega
  have hafter : ∀ b ∈ bits.drop (k + w), b = false := by
    intro b hb
    obtain ⟨i, hi, rfl⟩ := List.getElem_of_mem hb
    rw [List.getElem_drop]
    by_contra hone
    have hget : bits.getD (k + w + i) false = true := by
      rw [List.getD_eq_getElem _ _ (by simp at hi; omega)]
      exact Bool.eq_true_of_not_eq_false hone
    have := hburst _ hget
    omega
  rw [hsplit, remainder_append, remainder_append, remainder_of_silent hbefore] at hzero
  have hmiddle := getLsbD_of_remainder_eq_zero hpoly (eq_zero_of_silent hpoly hafter hzero)
    (List.length_take_le _ _)
  rw [hsplit] at hmem
  rcases List.mem_append.mp hmem with h | h
  · cases hbefore _ h
  · rcases List.mem_append.mp h with h | h
    · obtain ⟨i, hi, hone⟩ := List.getElem_of_mem h
      have := hmiddle i
      rw [List.getD_eq_getElem _ _ hi, hone] at this
      simp at this
    · cases hafter _ h

theorem remainder_ne_zero_of_two {before between after : List Bool}
    (hperiod : ∀ d, 0 < d → d ≤ between.length + 1 →
      remainder poly poly (List.replicate d false) ≠ poly)
    (hbefore : ∀ b ∈ before, b = false) (hbetween : ∀ b ∈ between, b = false)
    (hafter : ∀ b ∈ after, b = false) :
    remainder poly 0#w (before ++ true :: (between ++ true :: after)) ≠ 0#w := by
  rw [remainder_of_first hbefore, remainder_append]
  intro hzero
  have hmeet : feed poly (remainder poly poly between) true = 0#w :=
    eq_zero_of_silent hpoly hafter hzero
  rw [feed_true, BitVec.xor_eq_zero_iff] at hmeet
  apply hperiod (between.length + 1) (Nat.succ_pos _) le_rfl
  rw [List.replicate_succ', remainder_append, ← List.eq_replicate_iff.mpr ⟨rfl, hbetween⟩]
  exact hmeet

theorem remainder_ne_zero_of_count {φ : BitVec w → Bool}
    (hparity : ∀ crc b, φ (feed poly crc b) = (φ crc ^^ b)) (hφ : φ 0#w = false)
    (hperiod : ∀ d, 0 < d → d < bits.length →
      remainder poly poly (List.replicate d false) ≠ poly)
    (hmem : true ∈ bits) (hcount : bits.count true ≤ 3) : remainder poly 0#w bits ≠ 0#w := by
  have hodd : ∀ bits crc, φ (remainder poly crc bits) = (φ crc ^^ decide (bits.count true % 2 = 1)) := by
    intro bits
    induction bits with
    | nil => exact fun crc => by simp [remainder]
    | cons b bits ih =>
      intro crc
      rw [remainder_cons, ih, hparity, Bool.xor_assoc]
      apply congrArg
      cases b with
      | false => simp
      | true =>
        rw [List.count_cons_self]
        rcases Nat.mod_two_eq_zero_or_one (bits.count true) with h | h <;> simp [Nat.add_mod, h]
  have hpos := List.count_pos_iff.mpr hmem
  rcases (by omega : bits.count true % 2 = 1 ∨ bits.count true = 2) with hone | htwo
  · intro hzero
    have := hodd bits 0#w
    rw [hzero, hφ, hone] at this
    cases this
  · obtain ⟨before, rest, rfl, hbefore⟩ := exists_first_true hmem
    have hrest : rest.count true = 1 := by
      rw [List.count_append, List.count_cons_self,
        List.count_eq_zero.mpr fun h => (by cases hbefore _ h)] at htwo
      omega
    obtain ⟨between, after, rfl, hbetween⟩ :=
      exists_first_true (List.count_pos_iff.mp (by omega : 0 < rest.count true))
    apply remainder_ne_zero_of_two hpoly _ hbefore hbetween
    · apply silent_of_count
      rw [List.count_append, List.count_cons_self] at hrest
      omega
    · intro d hd hle
      exact hperiod d hd (by simp; omega)

end Detection

end FlipperZero.Lib
