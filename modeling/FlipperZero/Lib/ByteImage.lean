import Mathlib.Algebra.Group.Nat.Defs
import Mathlib.Data.Nat.Notation

/-! # Records in memory

A record of words is stored as bytes, the lowest byte of each word first. The sum of the bytes of
an image tells it from every image that differs in one byte.
-/

namespace FlipperZero.Lib

variable {n k : ℕ} {bytes rest : List (BitVec 8)} {words : List (BitVec 32)}

def leBytes : ℕ → ℕ → List (BitVec 8)
  | 0, _ => []
  | n + 1, value => BitVec.ofNat 8 value :: leBytes n (value / 256)

def leValue : List (BitVec 8) → ℕ
  | [] => 0
  | byte :: bytes => byte.toNat + 256 * leValue bytes

@[simp] theorem length_leBytes (n value : ℕ) : (leBytes n value).length = n := by
  induction n generalizing value with
  | zero => rfl
  | succ n ih => exact congrArg (· + 1) (ih _)

theorem leValue_leBytes (n value : ℕ) : leValue (leBytes n value) = value % 256 ^ n := by
  induction n generalizing value with
  | zero => exact (Nat.mod_one value).symm
  | succ n ih =>
    have hmod := Nat.mod_mul (a := 256) (b := 256 ^ n) (x := value)
    rw [← Nat.pow_succ'] at hmod
    rw [leBytes, leValue, ih, BitVec.toNat_ofNat]
    exact hmod.symm

theorem leBytes_leValue (bytes : List (BitVec 8)) :
    leBytes bytes.length (leValue bytes) = bytes := by
  induction bytes with
  | nil => rfl
  | cons byte bytes ih =>
    have hdiv : (byte.toNat + 256 * leValue bytes) / 256 = leValue bytes := by omega
    have hbyte : BitVec.ofNat 8 (byte.toNat + 256 * leValue bytes) = byte := by
      apply BitVec.eq_of_toNat_eq
      rw [BitVec.toNat_ofNat]
      omega
    rw [leValue, List.length_cons, leBytes, hdiv, hbyte, ih]

theorem leValue_lt (bytes : List (BitVec 8)) : leValue bytes < 256 ^ bytes.length := by
  induction bytes with
  | nil => exact Nat.one_pos
  | cons byte bytes ih =>
    rw [leValue, List.length_cons, Nat.pow_succ']
    omega

section Words

def wordsBytes : List (BitVec 32) → List (BitVec 8)
  | [] => []
  | word :: words => leBytes 4 word.toNat ++ wordsBytes words

def wordAt (bytes : List (BitVec 8)) (k : ℕ) : BitVec 32 :=
  BitVec.ofNat 32 (leValue ((bytes.drop (4 * k)).take 4))

@[simp] theorem length_wordsBytes (words : List (BitVec 32)) :
    (wordsBytes words).length = 4 * words.length := by
  induction words with
  | nil => rfl
  | cons word words ih =>
    rw [wordsBytes, List.length_append, length_leBytes, ih, List.length_cons]
    omega

theorem wordAt_zero (word : BitVec 32) (rest : List (BitVec 8)) :
    wordAt (leBytes 4 word.toNat ++ rest) 0 = word := by
  apply BitVec.eq_of_toNat_eq
  rw [wordAt, Nat.mul_zero, List.drop_zero, List.take_left' (length_leBytes 4 _), leValue_leBytes,
    BitVec.toNat_ofNat]
  omega

theorem wordAt_succ (h : bytes.length = 4) :
    wordAt (bytes ++ rest) (k + 1) = wordAt rest k := by
  have hdrop : (bytes ++ rest).drop (4 * (k + 1)) = rest.drop (4 * k) := by
    rw [Nat.mul_succ, Nat.add_comm, ← h, List.drop_length_add_append]
  rw [wordAt, wordAt, hdrop]

theorem wordAt_wordsBytes (hk : k < words.length) :
    wordAt (wordsBytes words) k = words.get ⟨k, hk⟩ := by
  induction words generalizing k with
  | nil => cases hk
  | cons word words ih =>
    cases k with
    | zero => exact wordAt_zero word _
    | succ k =>
      rw [wordsBytes, wordAt_succ (length_leBytes 4 _)]
      exact ih (Nat.lt_of_succ_lt_succ hk)

theorem wordsBytes_wordAt (h : bytes.length = 4 * n) :
    wordsBytes ((List.range n).map (wordAt bytes)) = bytes := by
  induction n generalizing bytes with
  | zero => exact (List.eq_nil_of_length_eq_zero h).symm
  | succ n ih =>
    have hfour : (bytes.take 4).length = 4 := by
      rw [List.length_take]
      omega
    have hhead : leBytes 4 (wordAt bytes 0).toNat = bytes.take 4 := by
      have hlt := leValue_lt (bytes.take 4)
      have hbytes := leBytes_leValue (bytes.take 4)
      rw [hfour] at hlt hbytes
      have hword : leValue (bytes.take 4) % 2 ^ 32 = leValue (bytes.take 4) := Nat.mod_eq_of_lt hlt
      rw [wordAt, Nat.mul_zero, List.drop_zero, BitVec.toNat_ofNat, hword, hbytes]
    have htail : (List.range n).map (fun k => wordAt bytes (k + 1)) =
        (List.range n).map (wordAt (bytes.drop 4)) := by
      refine List.map_congr_left fun k _ => ?_
      have hword : wordAt (bytes.take 4 ++ bytes.drop 4) (k + 1) = wordAt (bytes.drop 4) k :=
        wordAt_succ hfour
      rwa [List.take_append_drop] at hword
    have hrest : (bytes.drop 4).length = 4 * n := by
      rw [List.length_drop]
      omega
    rw [List.range_succ_eq_map, List.map_cons, List.map_map, wordsBytes, hhead]
    exact (congrArg _ ((congrArg _ htail).trans (ih hrest))).trans (List.take_append_drop 4 bytes)

end Words

section Sum

def byteSum (bytes : List (BitVec 8)) : BitVec 8 := bytes.foldl (· + ·) 0#8

theorem foldl_add (sum : BitVec 8) (bytes : List (BitVec 8)) :
    bytes.foldl (· + ·) sum = sum + byteSum bytes := by
  induction bytes generalizing sum with
  | nil => exact (BitVec.add_zero sum).symm
  | cons byte bytes ih =>
    rw [byteSum, List.foldl_cons, List.foldl_cons, ih, ih, BitVec.zero_add, BitVec.add_assoc]

theorem byteSum_cons (byte : BitVec 8) (bytes : List (BitVec 8)) :
    byteSum (byte :: bytes) = byte + byteSum bytes := by
  rw [byteSum, List.foldl_cons, foldl_add, BitVec.zero_add]

theorem byteSum_set (hk : k < bytes.length) (byte : BitVec 8) :
    byteSum (bytes.set k byte) = byteSum bytes ↔ byte = bytes.get ⟨k, hk⟩ := by
  induction bytes generalizing k with
  | nil => cases hk
  | cons first bytes ih =>
    cases k with
    | zero =>
      rw [List.set_cons_zero, byteSum_cons, byteSum_cons, BitVec.add_left_inj]
      exact Iff.rfl
    | succ k =>
      rw [List.set_cons_succ, byteSum_cons, byteSum_cons, BitVec.add_right_inj]
      exact ih (Nat.lt_of_succ_lt_succ hk)

end Sum

end FlipperZero.Lib
