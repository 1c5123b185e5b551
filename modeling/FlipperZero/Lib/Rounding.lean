import Mathlib.Data.Int.Log
import Mathlib.Data.Rat.Floor
import Mathlib.Algebra.Order.Field.Rat
import Mathlib.Tactic.Linarith
import Mathlib.Tactic.NormNum

/-! # Rounding to binary floating point

Nonnegative rationals are rounded to the nearest value with a significand of `p`
bits, ties to the even one. The exponent is unbounded: the values below stay far
from overflow and from the subnormal range.
-/

namespace FlipperZero.Lib

def roundHalfEven (q : ℚ) : ℤ :=
  let n := ⌊q⌋
  if q - n < 1 / 2 then n
  else if 1 / 2 < q - n then n + 1
  else n + n % 2

/-- The distance of the values with `p` bits around `x`. -/
def ulp (p : ℕ) (x : ℚ) : ℚ := 2 ^ (Int.log 2 x - (p - 1 : ℤ))

def roundTo (p : ℕ) (x : ℚ) : ℚ := roundHalfEven (x / ulp p x) * ulp p x

abbrev binary32 : ℚ → ℚ := roundTo 24

abbrev binary64 : ℚ → ℚ := roundTo 53

variable {q x : ℚ} {n e : ℤ} {p : ℕ}

theorem roundHalfEven_eq (h1 : q - n < 1 / 2) (h2 : n - q < 1 / 2) : roundHalfEven q = n := by
  have hlo := Int.floor_le q
  have hhi := Int.lt_floor_add_one q
  unfold roundHalfEven
  rcases lt_or_ge q n with hq | hq
  · have hf : ⌊q⌋ = n - 1 := by
      rw [Int.floor_eq_iff]
      constructor <;> push_cast <;> linarith
    simp only [hf]
    push_cast
    rw [if_neg (by linarith), if_pos (by linarith)]
    omega
  · have hf : ⌊q⌋ = n := by
      rw [Int.floor_eq_iff]
      constructor <;> linarith
    simp only [hf]
    rw [if_pos h1]

@[simp] theorem roundHalfEven_intCast (n : ℤ) : roundHalfEven n = n :=
  roundHalfEven_eq (by norm_num) (by norm_num)

theorem floor_le_roundHalfEven (q : ℚ) : ⌊q⌋ ≤ roundHalfEven q := by
  simp only [roundHalfEven]
  split
  · exact le_rfl
  · split
    · omega
    · have := Int.emod_nonneg ⌊q⌋ (by decide : (2 : ℤ) ≠ 0)
      omega

theorem le_roundHalfEven (h : (n : ℚ) ≤ q) : n ≤ roundHalfEven q :=
  (Int.le_floor.mpr h).trans (floor_le_roundHalfEven q)

theorem ulp_pos (p : ℕ) (x : ℚ) : 0 < ulp p x :=
  zpow_pos two_pos _

theorem log_eq (h1 : (2 : ℚ) ^ e ≤ x) (h2 : x < 2 ^ (e + 1)) : Int.log 2 x = e := by
  have hx : 0 < x := lt_of_lt_of_le (zpow_pos two_pos _) h1
  have hle := (Int.zpow_le_iff_le_log (b := 2) one_lt_two hx).mp (by exact_mod_cast h1)
  have hlt := (Int.lt_zpow_iff_log_lt (b := 2) one_lt_two hx).mp (by exact_mod_cast h2)
  omega

theorem roundTo_eq (h1 : (2 : ℚ) ^ e ≤ x) (h2 : x < 2 ^ (e + 1))
    (h3 : x < (n + 1 / 2) * 2 ^ (e - (p - 1 : ℤ))) (h4 : (n - 1 / 2) * 2 ^ (e - (p - 1 : ℤ)) < x) :
    roundTo p x = n * 2 ^ (e - (p - 1 : ℤ)) := by
  have hu : (0 : ℚ) < 2 ^ (e - (p - 1 : ℤ)) := zpow_pos two_pos _
  have hn : roundHalfEven (x / 2 ^ (e - (p - 1 : ℤ))) = n := by
    apply roundHalfEven_eq
    · have := (div_lt_iff₀ hu).mpr h3
      linarith
    · have := (lt_div_iff₀ hu).mpr h4
      linarith
  simp only [roundTo, ulp, log_eq h1 h2, hn]

theorem two_zpow_le_roundTo (h : (2 : ℚ) ^ e ≤ x) (hp : 0 < p) : (2 : ℚ) ^ e ≤ roundTo p x := by
  have hx : 0 < x := lt_of_lt_of_le (zpow_pos two_pos _) h
  have hlog := Int.zpow_log_le_self (b := 2) one_lt_two hx
  have he := (Int.zpow_le_iff_le_log (b := 2) one_lt_two hx).mp (by exact_mod_cast h)
  have hsplit : (2 : ℚ) ^ Int.log 2 x = 2 ^ (p - 1 : ℕ) * ulp p x := by
    rw [ulp, ← zpow_natCast, ← zpow_add₀ (by norm_num)]
    congr 1
    omega
  have hn : ((2 ^ (p - 1) : ℕ) : ℤ) ≤ roundHalfEven (x / ulp p x) := by
    apply le_roundHalfEven
    rw [le_div_iff₀ (ulp_pos p x)]
    push_cast at hlog ⊢
    linarith
  calc (2 : ℚ) ^ e ≤ 2 ^ Int.log 2 x := zpow_le_zpow_right₀ (by norm_num) he
    _ = 2 ^ (p - 1 : ℕ) * ulp p x := hsplit
    _ ≤ roundTo p x := by
      apply mul_le_mul_of_nonneg_right _ (ulp_pos p x).le
      exact_mod_cast hn

theorem roundTo_natCast {m : ℕ} (h : m < 2 ^ p) : roundTo p m = m := by
  rcases Nat.eq_zero_or_pos m with rfl | hm
  · have h0 : roundHalfEven 0 = 0 := roundHalfEven_intCast 0
    simp [roundTo, h0]
  have hx : (0 : ℚ) < m := by exact_mod_cast hm
  have hle : Int.log 2 (m : ℚ) < p := by
    apply (Int.lt_zpow_iff_log_lt (b := 2) one_lt_two hx).mp
    exact_mod_cast h
  obtain ⟨k, hk⟩ : ∃ k : ℕ, Int.log 2 (m : ℚ) - (p - 1 : ℤ) = -k :=
    ⟨(p - 1 - Int.log 2 (m : ℚ)).toNat, by omega⟩
  have hq : (m : ℚ) / ulp p m = ((m * 2 ^ k : ℕ) : ℤ) := by
    rw [ulp, hk, zpow_neg, div_inv_eq_mul, zpow_natCast]
    push_cast
    rfl
  rw [roundTo, hq, roundHalfEven_intCast, ← hq, div_mul_cancel₀ _ (ulp_pos p m).ne']

theorem roundTo_natCast_lt_iff {m : ℕ} {c : ℚ} (hp : 0 < p) (hc : c ≤ 2 ^ p) :
    roundTo p m < c ↔ (m : ℚ) < c := by
  rcases lt_or_ge m (2 ^ p) with hm | hm
  · rw [roundTo_natCast hm]
  · have hm' : (2 : ℚ) ^ (p : ℤ) ≤ m := by exact_mod_cast hm
    have hr := two_zpow_le_roundTo hm' hp
    rw [zpow_natCast] at hm' hr
    constructor <;> intro h <;> linarith

theorem lt_roundTo_natCast_iff {m : ℕ} {c : ℚ} (hp : 0 < p) (hc : c < 2 ^ p) :
    c < roundTo p m ↔ c < (m : ℚ) := by
  rcases lt_or_ge m (2 ^ p) with hm | hm
  · rw [roundTo_natCast hm]
  · have hm' : (2 : ℚ) ^ (p : ℤ) ≤ m := by exact_mod_cast hm
    have hr := two_zpow_le_roundTo hm' hp
    rw [zpow_natCast] at hm' hr
    constructor <;> intro h <;> linarith

end FlipperZero.Lib
