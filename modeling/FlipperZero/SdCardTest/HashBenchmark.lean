import Mathlib.Data.BitVec

/-! # The hash test of an SD card

The test writes blocks to the card, reads them back and compares the hashes of what it has written
and of what it has read. The hash takes one byte after another, and each step is a permutation of
the hashes for one byte and of the low bytes for one hash.
-/

namespace FlipperZero.SdCardTest

def fnv1aInit : BitVec 32 := 2166136261

def fnv1aPrime : BitVec 32 := 16777619

def fnv1aStep (hash : BitVec 32) (byte : BitVec 8) : BitVec 32 :=
  (hash ^^^ byte.setWidth 32) * fnv1aPrime

def fnv1aBufferHash (buffer : List (BitVec 8)) (hash : BitVec 32) : BitVec 32 :=
  buffer.foldl fnv1aStep hash

def benchmarkCount : ℕ := 20

/-- Whether the test shows equal hashes, for the blocks that it reads back. -/
def hashBenchmark (benchmarkData : List (BitVec 8)) (readBuffers : List (List (BitVec 8))) : Bool :=
  let mcuDataHash := (List.range benchmarkCount).foldl
    (fun hash _ => fnv1aBufferHash benchmarkData hash) fnv1aInit
  let sdcardDataHash := readBuffers.foldl
    (fun hash readBuffer => fnv1aBufferHash readBuffer hash) fnv1aInit
  decide (mcuDataHash = sdcardDataHash)

variable {x y : BitVec 32} {a b a' b' : BitVec 8} {buffer buffers : List (BitVec 8)}

theorem mul_prime_injective (h : x * fnv1aPrime = y * fnv1aPrime) : x = y := by
  have hinv : fnv1aPrime * 899433627 = 1#32 := by decide
  have hmul := congrArg (· * (899433627 : BitVec 32)) h
  simpa only [BitVec.mul_assoc, hinv, BitVec.mul_one] using hmul

theorem fnv1aStep_injective (h : fnv1aStep x b = fnv1aStep y b) : x = y :=
  (BitVec.xor_left_inj _).mp (mul_prime_injective h)

theorem fnv1aBufferHash_injective (h : fnv1aBufferHash buffer x = fnv1aBufferHash buffer y) :
    x = y := by
  induction buffer generalizing x y with
  | nil => exact h
  | cons byte buffer ih =>
    rw [fnv1aBufferHash, fnv1aBufferHash, List.foldl_cons, List.foldl_cons] at h
    exact fnv1aStep_injective (ih h)

theorem toNat_xor_div (x : BitVec 32) (b : BitVec 8) :
    (x ^^^ b.setWidth 32).toNat / 256 = x.toNat / 256 := by
  have hb : b.toNat / 2 ^ 8 = 0 := Nat.div_eq_of_lt b.isLt
  have hwidth : (b.setWidth 32).toNat = b.toNat := by
    rw [BitVec.toNat_setWidth]
    exact Nat.mod_eq_of_lt (lt_trans b.isLt (by decide))
  have hxor : (x.toNat ^^^ b.toNat) / 2 ^ 8 = x.toNat / 2 ^ 8 ^^^ b.toNat / 2 ^ 8 :=
    Nat.xor_div_two_pow
  rw [hb, Nat.xor_zero] at hxor
  rw [BitVec.toNat_xor, hwidth]
  exact hxor

/-- The factor times a number of the size of a byte is not near a multiple of the modulus. -/
theorem prime_far {d e m : ℤ} (hd : -256 < d) (hd' : d < 256) (he : -256 < e) (he' : e < 256)
    (h : d * 16777619 = 4294967296 * m + e) : d = 0 := by
  obtain ⟨k, hk⟩ : ∃ k, k = d - 256 * m := ⟨_, rfl⟩
  have hsplit : k * 16777216 = e - 403 * d := by omega
  have hzero : k = 0 := by
    clear h hk
    omega
  omega

/-- Hashes that agree in the bits above a byte before and after they are multiplied are equal. -/
theorem mul_prime_far (hxy : x.toNat / 256 = y.toNat / 256)
    (hmul : (x * fnv1aPrime).toNat / 256 = (y * fnv1aPrime).toNat / 256) : x = y := by
  have hprime : fnv1aPrime.toNat = 16777619 := rfl
  have hx := Nat.div_add_mod (x.toNat * 16777619) 4294967296
  have hy := Nat.div_add_mod (y.toNat * 16777619) 4294967296
  rw [BitVec.toNat_mul, BitVec.toNat_mul, hprime] at hmul
  have hzero := prime_far (d := (x.toNat : ℤ) - y.toNat)
    (e := (x.toNat * 16777619 % 4294967296 : ℕ) - (y.toNat * 16777619 % 4294967296 : ℕ))
    (m := (x.toNat * 16777619 / 4294967296 : ℕ) - (y.toNat * 16777619 / 4294967296 : ℕ))
    (by omega) (by omega) (by omega) (by omega) (by omega)
  exact BitVec.eq_of_toNat_eq (by omega)

theorem fnv1aStep_pair (h : fnv1aStep (fnv1aStep x a) b = fnv1aStep (fnv1aStep x a') b') :
    a = a' ∧ b = b' := by
  have hwidth {z : BitVec 32} {c d : BitVec 8} (heq : z ^^^ c.setWidth 32 = z ^^^ d.setWidth 32) :
      c = d := by
    have hlow := congrArg (BitVec.setWidth 8) ((BitVec.xor_right_inj z).mp heq)
    simpa using hlow
  have hxor : fnv1aStep x a ^^^ b.setWidth 32 = fnv1aStep x a' ^^^ b'.setWidth 32 :=
    mul_prime_injective h
  have hfirst : x ^^^ a.setWidth 32 = x ^^^ a'.setWidth 32 := by
    refine mul_prime_far ?_ ?_
    · rw [toNat_xor_div, toNat_xor_div]
    · have hdiv := congrArg (·.toNat / 256) hxor
      simp only [toNat_xor_div] at hdiv
      exact hdiv
  obtain rfl := hwidth hfirst
  exact ⟨rfl, hwidth hxor⟩

theorem fnv1aBufferHash_cons (byte : BitVec 8) (buffer : List (BitVec 8)) (hash : BitVec 32) :
    fnv1aBufferHash (byte :: buffer) hash = fnv1aBufferHash buffer (fnv1aStep hash byte) := by
  rw [fnv1aBufferHash, fnv1aBufferHash, List.foldl_cons]

theorem fnv1aBufferHash_append (l l' : List (BitVec 8)) (hash : BitVec 32) :
    fnv1aBufferHash (l ++ l') hash = fnv1aBufferHash l' (fnv1aBufferHash l hash) := by
  rw [fnv1aBufferHash, fnv1aBufferHash, fnv1aBufferHash, List.foldl_append]

theorem fnv1aBufferHash_flatten (buffers : List (List (BitVec 8))) (hash : BitVec 32) :
    buffers.foldl (fun hash buffer => fnv1aBufferHash buffer hash) hash =
      fnv1aBufferHash buffers.flatten hash := by
  induction buffers generalizing hash with
  | nil => rfl
  | cons buffer buffers ih =>
    rw [List.foldl_cons, ih, List.flatten_cons, fnv1aBufferHash_append]

theorem foldl_range (data : List (BitVec 8)) (n : ℕ) (hash : BitVec 32) :
    (List.range n).foldl (fun hash _ => fnv1aBufferHash data hash) hash =
      fnv1aBufferHash (List.replicate n data).flatten hash := by
  induction n with
  | zero => rfl
  | succ n ih =>
    rw [List.range_succ, List.foldl_append, ih, List.replicate_succ', List.flatten_append,
      fnv1aBufferHash_append, List.flatten_singleton, List.foldl_cons, List.foldl_nil]

/-- The hashes of two sequences that may only differ in two bytes in a row are equal exactly when
the bytes are. -/
theorem fnv1aBufferHash_eq_iff (before after : List (BitVec 8)) :
    fnv1aBufferHash (before ++ a :: b :: after) x = fnv1aBufferHash (before ++ a' :: b' :: after) x ↔
      a = a' ∧ b = b' := by
  constructor
  · intro h
    simp only [fnv1aBufferHash_append, fnv1aBufferHash_cons] at h
    exact fnv1aStep_pair (fnv1aBufferHash_injective h)
  · rintro ⟨rfl, rfl⟩
    rfl

/-- When what is read back differs from what was written in two bytes in a row at most, however it
comes in blocks, the test shows equal hashes exactly when it does not differ. -/
theorem hash_benchmark_detects {data : List (BitVec 8)} {readBuffers : List (List (BitVec 8))}
    (before after : List (BitVec 8))
    (hwritten : (List.replicate benchmarkCount data).flatten = before ++ a :: b :: after)
    (hread : readBuffers.flatten = before ++ a' :: b' :: after) :
    hashBenchmark data readBuffers = true ↔ a = a' ∧ b = b' := by
  rw [hashBenchmark, foldl_range, fnv1aBufferHash_flatten, hwritten, hread, decide_eq_true_iff]
  exact fnv1aBufferHash_eq_iff before after

/-- A card that gives one block with another byte. -/
theorem hash_benchmark_detects_byte : hashBenchmark [1, 2] ([1, 3] :: List.replicate 19 [1, 2]) =
    true ↔ (1 : BitVec 8) = 1 ∧ (2 : BitVec 8) = 3 :=
  hash_benchmark_detects [] (List.replicate 19 [1, 2]).flatten rfl rfl

end FlipperZero.SdCardTest
