import Mathlib.Data.BitVec

/-! # Bytes as text of the C library

A C string is a list of bytes without the NUL that ends it. The conversions of base 16 skip
spaces, take a sign and the prefix `0x`, and stop at the first byte that is no digit.
-/

namespace FlipperZero.Lib

abbrev Byte := BitVec 8

def ascii (text : List Char) : List Byte := text.map fun c => BitVec.ofNat 8 c.toNat

def cString (buffer : List Byte) : List Byte := buffer.takeWhile (· ≠ 0#8)

def isSpace (b : Byte) : Bool := b = 0x20#8 || (0x09#8 ≤ b && b ≤ 0x0D#8)

def hexValue (b : Byte) : Option ℕ :=
  if 0x30#8 ≤ b && b ≤ 0x39#8 then some (b.toNat - 0x30)
  else if 0x41#8 ≤ b && b ≤ 0x46#8 then some (b.toNat - 0x37)
  else if 0x61#8 ≤ b && b ≤ 0x66#8 then some (b.toNat - 0x57)
  else none

/-- The digit that `%X` prints. -/
def hexDigit (n : ℕ) : Byte := BitVec.ofNat 8 (if n < 10 then 0x30 + n else 0x37 + n)

/-- `%02X` of a byte. -/
def hexText (b : Byte) : List Byte := [hexDigit (b.toNat / 16), hexDigit (b.toNat % 16)]

/-- What a conversion has read; `rest` is where it stopped. -/
structure Converted where
  negative : Bool
  magnitude : ℕ
  rest : List Byte
deriving DecidableEq, Repr

def skipSign : List Byte → Bool × List Byte
  | [] => (false, [])
  | b :: s => if b = 0x2D#8 then (true, s) else if b = 0x2B#8 then (false, s) else (false, b :: s)

/-- The prefix belongs to the number when a digit follows it. -/
def skipPrefix : List Byte → List Byte
  | b :: c :: d :: s =>
    if b = 0x30#8 ∧ (c = 0x78#8 ∨ c = 0x58#8) ∧ (hexValue d).isSome then d :: s
    else b :: c :: d :: s
  | s => s

def magnitude (digits : List Byte) : ℕ :=
  digits.foldl (fun n b => 16 * n + (hexValue b).getD 0) 0

def convert (s : List Byte) : Converted :=
  let signed := skipSign (s.dropWhile isSpace)
  let s' := skipPrefix signed.2
  let digits := s'.takeWhile fun b => (hexValue b).isSome
  if digits = [] then ⟨false, 0, s⟩ else ⟨signed.1, magnitude digits, s'.drop digits.length⟩

/-- `strtol(s, NULL, 16)` for a `long` of 32 bits. -/
def strtol (s : List Byte) : ℤ :=
  let c := convert s
  if c.negative then -(min c.magnitude 0x80000000 : ℕ) else (min c.magnitude 0x7FFFFFFF : ℕ)

/-- `strtoul(s, &endptr, 16)` for an `unsigned long` of 32 bits, with what `endptr` points to. -/
def strtoul (s : List Byte) : ℕ × List Byte :=
  let c := convert s
  (if 0xFFFFFFFF < c.magnitude then 0xFFFFFFFF
    else if c.negative then (0x100000000 - c.magnitude) % 0x100000000
    else c.magnitude, c.rest)

variable {b c : Byte} {m n : ℕ} {s : List Byte}

theorem hexValue_lt : ∀ {b : Byte}, hexValue b = some m → m < 16 := by
  intro b h
  have hall : ∀ b : Byte, (hexValue b).all (· < 16) = true := by decide +kernel
  have := hall b
  simpa [h] using this

theorem hexValue_hexDigit (hn : n < 16) : hexValue (hexDigit n) = some n := by
  have hall : ∀ n < 16, hexValue (hexDigit n) = some n := by decide
  exact hall n hn

theorem of_hexValue (h : hexValue b = some m) : isSpace b = false ∧ b ≠ 0x2D#8 ∧ b ≠ 0x2B#8 ∧
    b ≠ 0x78#8 ∧ b ≠ 0x58#8 ∧ b ≠ 0#8 := by
  have hall : ∀ b : Byte, (hexValue b).isSome → isSpace b = false ∧ b ≠ 0x2D#8 ∧ b ≠ 0x2B#8 ∧
      b ≠ 0x78#8 ∧ b ≠ 0x58#8 ∧ b ≠ 0#8 := by decide +kernel
  exact hall b (by simp [h])

def IsHex (digits : List Byte) : Prop := ∀ b ∈ digits, (hexValue b).isSome

theorem takeWhile_hex {digits : List Byte} (hdigits : IsHex digits)
    (hs : ∀ d ∈ s.head?, hexValue d = none) :
    (digits ++ s).takeWhile (fun b => (hexValue b).isSome) = digits := by
  rw [List.takeWhile_append_of_pos hdigits]
  cases s with
  | nil => simp
  | cons d s => simp [hs d rfl]

theorem convert_digits {digits : List Byte} (hlength : 2 ≤ digits.length) (hdigits : IsHex digits)
    (hs : ∀ d ∈ s.head?, hexValue d = none) :
    convert (digits ++ s) = ⟨false, magnitude digits, s⟩ := by
  have htake := takeWhile_hex hdigits hs
  rcases digits with - | ⟨b, - | ⟨c, digits⟩⟩
  · simp at hlength
  · simp at hlength
  · obtain ⟨m, hb⟩ := Option.isSome_iff_exists.mp (hdigits b (by simp))
    obtain ⟨n, hc⟩ := Option.isSome_iff_exists.mp (hdigits c (by simp))
    obtain ⟨hspace, hminus, hplus, -⟩ := of_hexValue hb
    obtain ⟨-, -, -, hlower, hupper, -⟩ := of_hexValue hc
    have hprefix : skipPrefix (b :: c :: digits ++ s) = b :: c :: digits ++ s := by
      cases h : digits ++ s <;> simp [h, skipPrefix, hlower, hupper]
    have hsign : skipSign ((b :: c :: digits ++ s).dropWhile isSpace) =
        (false, b :: c :: digits ++ s) := by
      simp [hspace, skipSign, hminus, hplus]
    rw [convert, hsign, hprefix, htake, if_neg (List.cons_ne_nil _ _), List.drop_left]

theorem convert_prefixed {digits : List Byte} (hlength : 1 ≤ digits.length)
    (hdigits : IsHex digits) (hs : ∀ d ∈ s.head?, hexValue d = none) :
    convert (0x30#8 :: 0x78#8 :: digits ++ s) = ⟨false, magnitude digits, s⟩ := by
  have htake := takeWhile_hex hdigits hs
  rcases digits with - | ⟨b, digits⟩
  · simp at hlength
  · have hprefix : skipPrefix (0x30#8 :: 0x78#8 :: b :: digits ++ s) = b :: digits ++ s := by
      simp [skipPrefix, hdigits b (by simp)]
    have hsign : skipSign ((0x30#8 :: 0x78#8 :: b :: digits ++ s).dropWhile isSpace) =
        (false, 0x30#8 :: 0x78#8 :: b :: digits ++ s) := rfl
    rw [convert, hsign, hprefix, htake, if_neg (List.cons_ne_nil _ _), List.drop_left]

theorem convert_two_append (hb : hexValue b = some m) (hc : hexValue c = some n)
    (hs : ∀ d ∈ s.head?, hexValue d = none) :
    convert (b :: c :: s) = ⟨false, 16 * m + n, s⟩ := by
  have hdigits : IsHex [b, c] := by simp [IsHex, hb, hc]
  have hmagnitude : magnitude [b, c] = 16 * m + n := by simp [magnitude, hb, hc]
  exact hmagnitude ▸ convert_digits le_rfl hdigits hs

theorem convert_two (hb : hexValue b = some m) (hc : hexValue c = some n) :
    convert [b, c] = ⟨false, 16 * m + n, []⟩ :=
  convert_two_append hb hc fun d hd => (by cases hd)

theorem strtol_two (hb : hexValue b = some m) (hc : hexValue c = some n) :
    strtol [b, c] = (16 * m + n : ℕ) := by
  have hm := hexValue_lt hb
  have hn := hexValue_lt hc
  rw [strtol, convert_two hb hc]
  simp only [Bool.false_eq_true, if_false]
  rw [Nat.min_eq_left (by omega)]

theorem strtoul_two (hb : hexValue b = some m) (hc : hexValue c = some n)
    (hs : ∀ d ∈ s.head?, hexValue d = none) : strtoul (b :: c :: s) = (16 * m + n, s) := by
  have hm := hexValue_lt hb
  have hn := hexValue_lt hc
  rw [strtoul, convert_two_append hb hc hs]
  simp only [Bool.false_eq_true, if_false]
  rw [if_neg (by omega)]

theorem magnitude_lt {digits : List Byte} : magnitude digits < 16 ^ digits.length := by
  induction digits using List.reverseRecOn with
  | nil => exact Nat.one_pos
  | append_singleton digits b ih =>
    have hvalue : (hexValue b).getD 0 < 16 := by
      cases h : hexValue b with
      | none => exact Nat.succ_pos 15
      | some m => exact hexValue_lt h
    have happend : magnitude (digits ++ [b]) = 16 * magnitude digits + (hexValue b).getD 0 := by
      simp [magnitude]
    rw [happend, List.length_append, List.length_singleton, Nat.pow_succ]
    omega

theorem strtoul_of_convert {digits : List Byte} {text : List Byte}
    (h : convert text = ⟨false, magnitude digits, s⟩) (hlength : digits.length ≤ 8) :
    strtoul text = (magnitude digits, s) := by
  have hlt : magnitude digits < 16 ^ 8 :=
    Nat.lt_of_lt_of_le magnitude_lt (Nat.pow_le_pow_right (by decide) hlength)
  rw [strtoul, h]
  simp only [Bool.false_eq_true, if_false]
  rw [if_neg (by omega)]

end FlipperZero.Lib
