import Mathlib.Algebra.GroupWithZero.Nat
import Mathlib.Data.List.Basic
import Mathlib.Data.List.Induction
import Mathlib.Data.Nat.Digits.Defs

/-! # Numbers spelled by bits

The highest bit comes first. Dropping bits at the low end divides the number, dropping bits at the
high end leaves a remainder.
-/

namespace FlipperZero.Lib

def bitNumber (bits : List Bool) : ℕ := Nat.ofDigits 2 (bits.reverse.map Bool.toNat)

variable {bits bits' : List Bool} {n : ℕ}

theorem lt_two_of_mem_bits {bits : List Bool} : ∀ d ∈ bits.map Bool.toNat, d < 2 := by
  rintro d hd
  obtain ⟨b, -, rfl⟩ := List.mem_map.mp hd
  exact Bool.toNat_lt b

@[simp] theorem bitNumber_nil : bitNumber [] = 0 := rfl

theorem bitNumber_concat (bits : List Bool) (b : Bool) :
    bitNumber (bits ++ [b]) = b.toNat + 2 * bitNumber bits := by
  simp only [bitNumber, List.reverse_append, List.reverse_singleton, List.singleton_append,
    List.map_cons, Nat.ofDigits_cons]

theorem bitNumber_lt (bits : List Bool) : bitNumber bits < 2 ^ bits.length := by
  have h := Nat.ofDigits_lt_base_pow_length Nat.one_lt_two (@lt_two_of_mem_bits bits.reverse)
  simpa [bitNumber] using h

theorem bitNumber_take (bits : List Bool) (n : ℕ) :
    bitNumber (bits.take (bits.length - n)) = bitNumber bits / 2 ^ n := by
  rw [bitNumber, bitNumber, Nat.ofDigits_div_pow_eq_ofDigits_drop n Nat.two_pos _
    lt_two_of_mem_bits, ← List.map_drop, List.drop_reverse]

theorem bitNumber_drop (bits : List Bool) (n : ℕ) :
    bitNumber (bits.drop (bits.length - n)) = bitNumber bits % 2 ^ n := by
  rw [bitNumber, bitNumber, Nat.ofDigits_mod_pow_eq_ofDigits_take n Nat.two_pos _
    lt_two_of_mem_bits, ← List.map_take, List.take_reverse]

theorem bitNumber_inj (hlength : bits.length = bits'.length) :
    bitNumber bits = bitNumber bits' ↔ bits = bits' := by
  refine ⟨fun h => ?_, congrArg _⟩
  have hdigits := Nat.ofDigits_inj_of_len_eq Nat.one_lt_two (by simp [hlength])
    lt_two_of_mem_bits lt_two_of_mem_bits h
  have hinj : Function.Injective Bool.toNat := fun b b' => by cases b <;> cases b' <;> simp
  exact List.reverse_inj.mp (List.map_injective_iff.mpr hinj hdigits)

theorem bitNumber_inner (bits : List Bool) :
    bitNumber bits.tail.dropLast = bitNumber bits % 2 ^ (bits.length - 1) / 2 := by
  cases bits with
  | nil => rfl
  | cons b bits =>
    have htail := bitNumber_drop (b :: bits) bits.length
    have hlast := bitNumber_take bits 1
    rw [List.length_cons, Nat.add_sub_cancel_left, List.drop_one, List.tail_cons] at htail
    rw [List.tail_cons, List.dropLast_eq_take, hlast, htail, pow_one, List.length_cons,
      Nat.add_sub_cancel]

theorem bitNumber_map_not (bits : List Bool) :
    bitNumber (bits.map not) + bitNumber bits = 2 ^ bits.length - 1 := by
  induction bits using List.reverseRecOn with
  | nil => rfl
  | append_singleton bits b ih =>
    have hpos := Nat.two_pow_pos bits.length
    rw [List.map_append, List.map_singleton, bitNumber_concat, bitNumber_concat,
      List.length_append, List.length_singleton, pow_succ]
    cases b <;> simp only [Bool.not_false, Bool.not_true, Bool.toNat_true, Bool.toNat_false] <;>
      omega

end FlipperZero.Lib
