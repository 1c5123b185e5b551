import Mathlib.Data.BitVec
import Mathlib.Data.List.GetD
import Mathlib.Tactic.Ring

/-! # Shift registers

A register takes a new bit at its low end and loses the one at its high end. Bits are
numbered from the oldest, so after `k` new bits bit `n` is the former bit `n + k`.
-/

namespace FlipperZero.Lib

variable {w : ℕ} {r r' : BitVec w} {n : ℕ}

def shiftIn (r : BitVec w) (b : Bool) : BitVec w := r <<< 1 ||| (BitVec.ofBool b).setWidth w

def shiftAll (r : BitVec w) (bits : List Bool) : BitVec w := bits.foldl shiftIn r

theorem getMsbD_shiftIn (hn : n < w) (b : Bool) :
    (shiftIn r b).getMsbD n = if n + 1 = w then b else r.getMsbD (n + 1) := by
  unfold shiftIn
  rw [BitVec.getMsbD_or, BitVec.getMsbD_shiftLeft, BitVec.getMsbD_eq_getLsbD (x := BitVec.setWidth w _),
    BitVec.getLsbD_setWidth, BitVec.getLsbD_ofBool]
  split
  · next h =>
    subst h
    simp [BitVec.getMsbD_of_ge]
  · next h =>
    have hne : w - 1 - n ≠ 0 := by omega
    simp [hn, hne]

theorem getMsbD_shiftAll (hn : n < w) (bits : List Bool) :
    (shiftAll r bits).getMsbD n =
      if n + bits.length < w then r.getMsbD (n + bits.length)
      else bits.getD (n + bits.length - w) false := by
  induction bits using List.reverseRecOn generalizing n with
  | nil => simp [shiftAll, hn]
  | append_singleton bits b ih =>
    have hstep : shiftAll r (bits ++ [b]) = shiftIn (shiftAll r bits) b := by
      simp [shiftAll]
    rw [hstep, getMsbD_shiftIn hn, List.length_append, List.length_singleton]
    split
    · next hlast =>
      have hidx : n + (bits.length + 1) - w = bits.length := by omega
      rw [if_neg (by omega), hidx, List.getD_append_right _ _ _ _ le_rfl, Nat.sub_self]
      rfl
    · next hlast =>
      have hcomm : n + 1 + bits.length = n + (bits.length + 1) := by omega
      rw [ih (by omega), hcomm]
      split
      · rfl
      · rw [List.getD_append _ _ _ _ (by omega)]

theorem shiftAll_append (bits bits' : List Bool) :
    shiftAll r (bits ++ bits') = shiftAll (shiftAll r bits) bits' :=
  List.foldl_append

theorem getMsbD_shiftAll_of_le (hn : n < w) {bits : List Bool} (h : w ≤ bits.length) :
    (shiftAll r bits).getMsbD n = bits.getD (bits.length - w + n) false := by
  have hidx : n + bits.length - w = bits.length - w + n := by omega
  rw [getMsbD_shiftAll hn, if_neg (by omega), hidx]

theorem getLsbD_shiftAll {bits : List Bool} {i : ℕ} (hi : i < bits.length) (h : bits.length ≤ w) :
    (shiftAll r bits).getLsbD i = bits.getD (bits.length - 1 - i) false := by
  have hmsb := getMsbD_shiftAll (r := r) (n := w - 1 - i) (by omega) bits
  have hidx : w - 1 - i + bits.length - w = bits.length - 1 - i := by omega
  have hlsb : w - 1 - (w - 1 - i) = i := by omega
  rw [if_neg (by omega), hidx, BitVec.getMsbD_eq_getLsbD, hlsb,
    decide_eq_true (by omega : w - 1 - i < w), Bool.true_and] at hmsb
  exact hmsb

def bitsFrom (b : ℕ → Bool) (s len : ℕ) : List Bool := (List.range len).map fun j => b (s + j)

theorem bitsFrom_succ (b : ℕ → Bool) (s len : ℕ) :
    bitsFrom b s (len + 1) = bitsFrom b s len ++ [b (s + len)] := by
  simp [bitsFrom, List.range_succ]

theorem length_bitsFrom (b : ℕ → Bool) (s len : ℕ) : (bitsFrom b s len).length = len := by
  simp [bitsFrom]

theorem getD_bitsFrom (b : ℕ → Bool) {s len j : ℕ} (hj : j < len) :
    (bitsFrom b s len).getD j false = b (s + j) := by
  simp [bitsFrom, hj]

theorem bitsFrom_cons (b : ℕ → Bool) (s len : ℕ) :
    bitsFrom b s (len + 1) = b s :: bitsFrom b (s + 1) len := by
  unfold bitsFrom
  rw [List.range_succ_eq_map, List.map_cons, List.map_map, Nat.add_zero]
  refine congrArg _ (List.map_congr_left fun j _ => ?_)
  exact congrArg b (by simp only [Nat.succ_eq_add_one]; omega)

theorem bitsFrom_eq {b : ℕ → Bool} {s : ℕ} {bits : List Bool}
    (h : ∀ j < bits.length, b (s + j) = bits.getD j false) :
    bitsFrom b s bits.length = bits := by
  refine List.ext_getElem (length_bitsFrom b s _) fun j hj hj' => ?_
  have hget := h j hj'
  rw [← getD_bitsFrom b hj'] at hget
  rwa [List.getD_eq_getElem _ _ hj, List.getD_eq_getElem _ _ hj'] at hget

theorem shiftIn_bitsFrom (r : BitVec w) (b : ℕ → Bool) (s len : ℕ) :
    shiftIn (shiftAll r (bitsFrom b s len)) (b (s + len)) = shiftAll r (bitsFrom b s (len + 1)) := by
  rw [bitsFrom_succ, shiftAll_append]
  rfl

theorem bitsFrom_add (b : ℕ → Bool) (s len len' : ℕ) :
    bitsFrom b s (len + len') = bitsFrom b s len ++ bitsFrom b (s + len) len' := by
  induction len' with
  | zero => simp [bitsFrom]
  | succ len' ih => rw [← Nat.add_assoc, bitsFrom_succ, ih, bitsFrom_succ, List.append_assoc, Nat.add_assoc]

theorem shiftAll_eq_or {v : ℕ} (hv : v ≤ w) {bits : List Bool} (h : bits.length = v) :
    r <<< v ||| (shiftAll (0 : BitVec v) bits).setWidth w = shiftAll r bits := by
  refine BitVec.eq_of_getMsbD_eq fun i hi => ?_
  rw [getMsbD_shiftAll hi, BitVec.getMsbD_or, BitVec.getMsbD_shiftLeft, h,
    BitVec.getMsbD_eq_getLsbD (x := BitVec.setWidth w _), BitVec.getLsbD_setWidth]
  split
  · next hlt =>
    rw [BitVec.getLsbD_of_ge (shiftAll (0 : BitVec v) bits) _ (by omega)]
    simp
  · next hge =>
    have hmsb := getMsbD_shiftAll_of_le (r := (0 : BitVec v)) (n := i + v - w) (by omega) h.ge
    rw [BitVec.getMsbD_eq_getLsbD, decide_eq_true (by omega), Bool.true_and, h, Nat.sub_self,
      Nat.zero_add] at hmsb
    have hidx : w - 1 - i = v - 1 - (i + v - w) := by omega
    rw [BitVec.getMsbD_of_ge r _ (by omega), hidx, hmsb, decide_eq_true hi, decide_eq_true (by omega)]
    rfl

section Blocks

variable {α β : Type*} {f : α → List β} {m : ℕ}

theorem length_flatMap_block (hf : ∀ x, (f x).length = m) (xs : List α) :
    (xs.flatMap f).length = m * xs.length := by
  induction xs with
  | nil => simp
  | cons x xs ih =>
    rw [List.flatMap_cons, List.length_append, hf, ih, List.length_cons]
    ring

theorem getD_flatMap_block (hf : ∀ x, (f x).length = m) {xs : List α} {i j : ℕ}
    (hi : i < xs.length) (hj : j < m) (d : β) :
    (xs.flatMap f).getD (m * i + j) d = (f xs[i]).getD j d := by
  induction xs generalizing i with
  | nil => exact absurd hi (Nat.not_lt_zero i)
  | cons x xs ih =>
    rw [List.flatMap_cons]
    cases i with
    | zero =>
      rw [Nat.mul_zero, Nat.zero_add, List.getD_append _ _ _ _ (by rw [hf]; exact hj)]
      rfl
    | succ i =>
      have hidx : m * (i + 1) + j - m = m * i + j := by
        rw [Nat.mul_succ]
        omega
      rw [List.getD_append_right _ _ _ _ (by rw [hf, Nat.mul_succ]; omega), hf, hidx,
        ih (by simpa using hi)]
      rfl

end Blocks

end FlipperZero.Lib
