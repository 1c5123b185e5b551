import FlipperZero.Lib.CString
import Mathlib.Data.Int.Order.Basic

/-! # Decimal numbers at the start of a text

The conversion `%lu` skips spaces, takes a sign and the digits behind it. A number that has more
than 32 bits gives the largest one; a negative one gives what it is in 32 bits.
-/

namespace FlipperZero.Lib

def isDigit (b : Byte) : Bool := 0x30#8 ≤ b && b ≤ 0x39#8

def decimal (digits : List Byte) : ℕ := digits.foldl (fun n b => 10 * n + (b.toNat - 0x30)) 0

/-- `sscanf(s, "%lu", &value)`, with what is returned when nothing is converted. -/
def sscanfLu (s : List Byte) : Except ℤ UInt32 :=
  let text := s.dropWhile isSpace
  let signed := skipSign text
  let digits := signed.2.takeWhile isDigit
  if digits = [] then .error (if text = [] then -1 else 0)
  else .ok (.ofNat (if 0xFFFFFFFF < decimal digits then 0xFFFFFFFF
    else if signed.1 then 0x100000000 - decimal digits else decimal digits))

inductive Sign where
  | none
  | plus
  | minus

namespace Sign

def bytes : Sign → List Byte
  | none => []
  | plus => [0x2B]
  | minus => [0x2D]

def negative : Sign → Bool
  | none | plus => false
  | minus => true

def value (sign : Sign) (n : ℕ) : ℤ := if sign.negative then -n else n

end Sign

/-- The text begins with a decimal number, which may have a sign, and spaces before it. -/
def BeginsWithNumber (text : List Byte) (value : ℤ) : Prop :=
  ∃ (space digits rest : List Byte) (sign : Sign),
    text = space ++ (sign.bytes ++ (digits ++ rest)) ∧ (∀ b ∈ space, isSpace b = true) ∧
    digits ≠ [] ∧ (∀ b ∈ digits, isDigit b = true) ∧ (∀ b ∈ rest.head?, isDigit b = false) ∧
    value = sign.value (decimal digits)

/-- What a number is as an unsigned number of 32 bits. -/
def unsignedOf (value : ℤ) : ℕ :=
  if 0xFFFFFFFF < value.natAbs then 0xFFFFFFFF else (value % 0x100000000).toNat

variable {s digits rest : List Byte} {b : Byte} {v v' : ℤ}

theorem not_isSpace_of_isDigit : ∀ b : Byte, isDigit b = true →
    isSpace b = false ∧ b ≠ 0x2D#8 ∧ b ≠ 0x2B#8 := by
  decide +kernel

theorem takeWhile_digits (hdigits : ∀ b ∈ digits, isDigit b = true)
    (hrest : ∀ b ∈ rest.head?, isDigit b = false) :
    (digits ++ rest).takeWhile isDigit = digits := by
  rw [List.takeWhile_append_of_pos hdigits]
  cases rest with
  | nil => simp
  | cons b rest => rw [List.takeWhile_cons_of_neg (by simp [hrest b rfl]), List.append_nil]

theorem dropWhile_spaces {space : List Byte} (hspace : ∀ b ∈ space, isSpace b = true)
    (hs : ∀ b ∈ s.head?, isSpace b = false) : (space ++ s).dropWhile isSpace = s := by
  rw [List.dropWhile_append_of_pos hspace]
  cases s with
  | nil => rfl
  | cons b s => exact List.dropWhile_cons_of_neg (by simp [hs b rfl])

theorem head_bytes_append {sign : Sign} (hne : digits ≠ [])
    (hdigits : ∀ b ∈ digits, isDigit b = true) :
    ∀ b ∈ (sign.bytes ++ (digits ++ rest)).head?, isSpace b = false := by
  obtain ⟨d, digits, rfl⟩ := List.exists_cons_of_ne_nil hne
  rintro b hb
  cases sign with
  | none =>
    obtain rfl : d = b := Option.some.inj hb
    exact (not_isSpace_of_isDigit d (hdigits d (List.mem_cons_self ..))).1
  | plus =>
    obtain rfl : 0x2B = b := Option.some.inj hb
    rfl
  | minus =>
    obtain rfl : 0x2D = b := Option.some.inj hb
    rfl

theorem skipSign_bytes_append (sign : Sign) (hne : digits ≠ [])
    (hdigits : ∀ b ∈ digits, isDigit b = true) :
    skipSign (sign.bytes ++ (digits ++ rest)) = (sign.negative, digits ++ rest) := by
  obtain ⟨d, digits, rfl⟩ := List.exists_cons_of_ne_nil hne
  obtain ⟨-, hminus, hplus⟩ := not_isSpace_of_isDigit d (hdigits d (List.mem_cons_self ..))
  cases sign with
  | none => exact (if_neg hminus).trans (if_neg hplus)
  | plus => rfl
  | minus => rfl

theorem exists_sign (text : List Byte) :
    ∃ sign : Sign, text = sign.bytes ++ (skipSign text).2 ∧ (skipSign text).1 = sign.negative := by
  cases text with
  | nil => exact ⟨.none, rfl, rfl⟩
  | cons b text =>
    by_cases hminus : b = 0x2D#8
    · exact ⟨.minus, by simp [skipSign, hminus, Sign.bytes],
        by simp [skipSign, hminus, Sign.negative]⟩
    · by_cases hplus : b = 0x2B#8
      · exact ⟨.plus, by simp [skipSign, hplus, Sign.bytes],
          by simp [skipSign, hplus, Sign.negative]⟩
      · exact ⟨.none, by simp [skipSign, hminus, hplus, Sign.bytes],
          by simp [skipSign, hminus, hplus, Sign.negative]⟩

theorem beginsWithNumber_iff : BeginsWithNumber s v ↔
    (skipSign (s.dropWhile isSpace)).2.takeWhile isDigit ≠ [] ∧
      v = if (skipSign (s.dropWhile isSpace)).1
        then -(decimal ((skipSign (s.dropWhile isSpace)).2.takeWhile isDigit) : ℤ)
        else decimal ((skipSign (s.dropWhile isSpace)).2.takeWhile isDigit) := by
  constructor
  · rintro ⟨space, digits, rest, sign, rfl, hspace, hne, hdigits, hrest, rfl⟩
    rw [dropWhile_spaces hspace (head_bytes_append hne hdigits),
      skipSign_bytes_append sign hne hdigits]
    simp only [takeWhile_digits hdigits hrest]
    exact ⟨hne, rfl⟩
  · rintro ⟨hne, hv⟩
    obtain ⟨sign, htext, hsign⟩ := exists_sign (s.dropWhile isSpace)
    refine ⟨s.takeWhile isSpace, _, (skipSign (s.dropWhile isSpace)).2.dropWhile isDigit, sign,
      ?_, ?_, hne, ?_, ?_, ?_⟩
    · rw [List.takeWhile_append_dropWhile, ← htext, List.takeWhile_append_dropWhile]
    · exact List.all_eq_true.mp List.all_takeWhile
    · exact List.all_eq_true.mp List.all_takeWhile
    · intro b hb
      have hrest := List.head?_dropWhile_not isDigit (skipSign (s.dropWhile isSpace)).2
      rwa [Option.mem_def.mp hb] at hrest
    · rw [hv, hsign]
      rfl

theorem BeginsWithNumber.unique (h : BeginsWithNumber s v) (h' : BeginsWithNumber s v') :
    v = v' := by
  rw [(beginsWithNumber_iff.mp h).2, (beginsWithNumber_iff.mp h').2]

theorem toNat_ofNat_converted (negative : Bool) (n : ℕ) :
    (UInt32.ofNat (if 0xFFFFFFFF < n then 0xFFFFFFFF
      else if negative then 0x100000000 - n else n)).toNat =
        unsignedOf (if negative then -n else n) := by
  have hnatAbs : (if negative then -n else n : ℤ).natAbs = n := by
    cases negative
    · rfl
    · exact Int.natAbs_neg n
  rw [UInt32.toNat_ofNat', unsignedOf, hnatAbs]
  by_cases hn : 0xFFFFFFFF < n
  · rw [if_pos hn, if_pos hn]
  · rw [if_neg hn, if_neg hn]
    cases negative
    · simp only [Bool.false_eq_true, if_false]
      omega
    · simp only [if_true]
      omega

/-- The conversion succeeds for a text that begins with a number, and gives this in 32 bits. -/
theorem sscanfLu_eq_ok_iff {u : UInt32} : sscanfLu s = .ok u ↔
    ∃ v, BeginsWithNumber s v ∧ u.toNat = unsignedOf v := by
  simp only [beginsWithNumber_iff, sscanfLu]
  constructor
  · intro h
    split at h
    · cases h
    · rename_i hne
      exact ⟨_, ⟨hne, rfl⟩, Except.ok.inj h ▸ toNat_ofNat_converted _ _⟩
  · rintro ⟨v, ⟨hne, rfl⟩, hu⟩
    rw [if_neg hne]
    congr 1
    exact UInt32.toNat_inj.mp ((toNat_ofNat_converted _ _).trans hu.symm)

end FlipperZero.Lib
