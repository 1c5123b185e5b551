import FlipperZero.Lib.TrieSearch

/-! # ROM codes of OneWire devices

A ROM code is eight bytes. It goes over the bus byte by byte, each byte from its least
significant bit, so bit `k` of the transmission is bit `k % 8` of byte `k / 8`.
-/

namespace FlipperZero.OneWire

open Lib

structure Rom where
  bytes : Vector (BitVec 8) 8
deriving DecidableEq

namespace Rom

variable {r r' : Rom} {k : ℕ}

def byte (r : Rom) (n : ℕ) : BitVec 8 := r.bytes[n]?.getD 0

/-- The bits of the code in the order of transmission. -/
def bits (r : Rom) : Word 64 := fun k => (r.byte (k / 8)).getLsbD (k % 8)

def key (r : Rom) : List Bool := List.ofFn r.bits

def setByte (r : Rom) (n : ℕ) (v : BitVec 8) : Rom := ⟨r.bytes.setIfInBounds n v⟩

def romByteMask (j : ℕ) : BitVec 8 := 1#8 <<< j

theorem byte_setByte (r : Rom) {n : ℕ} (hn : n < 8) (m : ℕ) (v : BitVec 8) :
    (r.setByte n v).byte m = if n = m then v else r.byte m := by
  unfold byte setByte
  rw [Vector.getElem?_setIfInBounds, if_pos hn]
  split
  · rfl
  · rfl

theorem bits_injective : Function.Injective bits := by
  intro r r' h
  have hbytes : r.bytes = r'.bytes := by
    refine Vector.ext fun i hi => BitVec.eq_of_getLsbD_eq fun j hj => ?_
    have hbit := congrFun h ⟨8 * i + j, by omega⟩
    have hdiv : (8 * i + j) / 8 = i := by omega
    have hmod : (8 * i + j) % 8 = j := by omega
    simpa only [bits, byte, hdiv, hmod, Vector.getElem?_eq_getElem hi, Option.getD_some] using hbit
  cases r
  cases r'
  exact congrArg Rom.mk hbytes

/-- Codes in the order of their transmitted bits. -/
noncomputable instance : LinearOrder Rom where
  __ := PartialOrder.lift (fun r : Rom => toLex r.bits) (toLex.injective.comp bits_injective)
  le_total r r' := le_total (toLex r.bits) (toLex r'.bits)
  toDecidableLE := Classical.decRel _
  toDecidableEq := inferInstance

theorem getLsbD_romByteMask {j : ℕ} (hj : j < 8) (i : ℕ) :
    (romByteMask j).getLsbD i = decide (i = j) := by
  unfold romByteMask
  rw [BitVec.getLsbD_shiftLeft, BitVec.getLsbD_one]
  by_cases h : i = j
  · simp [h, hj]
  · simp [h]
    omega

theorem byte_and_romByteMask (hk : k < 64) :
    (r.byte (k / 8) &&& romByteMask (k % 8) ≠ 0) ↔ r.bits ⟨k, hk⟩ = true := by
  have hj : k % 8 < 8 := Nat.mod_lt _ (by decide)
  constructor
  · intro hne
    by_contra hbit
    refine hne (BitVec.eq_of_getLsbD_eq fun i hi => ?_)
    rw [BitVec.getLsbD_and, getLsbD_romByteMask hj]
    by_cases hik : i = k % 8
    · subst hik
      simpa [bits] using hbit
    · simp [hik]
  · intro hbit heq
    have := congrArg (fun v => v.getLsbD (k % 8)) heq
    simp only [BitVec.getLsbD_and, getLsbD_romByteMask hj, decide_true, Bool.and_true] at this
    simp only [bits] at hbit
    rw [hbit] at this
    simp at this

theorem bits_setByte (hk : k < 64) {v : BitVec 8} {b : Bool}
    (hv : ∀ i, v.getLsbD i = if i = k % 8 then b else (r.byte (k / 8)).getLsbD i) :
    (r.setByte (k / 8) v).bits = Function.update r.bits ⟨k, hk⟩ b := by
  funext i
  have hn : k / 8 < 8 := by omega
  unfold bits
  rw [byte_setByte r hn]
  by_cases hik : i = ⟨k, hk⟩
  · subst hik
    rw [if_pos rfl, hv, if_pos rfl, Function.update_self]
  · have hne : (i : ℕ) ≠ k := fun h => hik (Fin.ext h)
    rw [Function.update_of_ne hik]
    split
    · next hdiv =>
      rw [hv, if_neg (by omega), hdiv]
    · rfl

theorem bits_setByte_or (hk : k < 64) :
    (r.setByte (k / 8) (r.byte (k / 8) ||| romByteMask (k % 8))).bits =
      Function.update r.bits ⟨k, hk⟩ true := by
  refine bits_setByte hk fun i => ?_
  rw [BitVec.getLsbD_or, getLsbD_romByteMask (Nat.mod_lt _ (by decide))]
  by_cases h : i = k % 8
  · simp [h]
  · simp [h]

theorem bits_setByte_and_not (hk : k < 64) :
    (r.setByte (k / 8) (r.byte (k / 8) &&& ~~~romByteMask (k % 8))).bits =
      Function.update r.bits ⟨k, hk⟩ false := by
  refine bits_setByte hk fun i => ?_
  rw [BitVec.getLsbD_and, BitVec.getLsbD_not, getLsbD_romByteMask (Nat.mod_lt _ (by decide))]
  by_cases h : i = k % 8
  · simp [h]
  · simp only [h, decide_false, Bool.not_false, if_false, Bool.and_true, Bool.and_eq_left_iff_imp]
    intro hbit
    simpa using BitVec.lt_of_getLsbD hbit

theorem byte_zero_eq_iff {b : BitVec 8} :
    r.byte 0 = b ↔ ∀ k : Fin 64, (k : ℕ) < 8 → r.bits k = b.getLsbD k := by
  constructor
  · rintro rfl k hk
    have hdiv : (k : ℕ) / 8 = 0 := Nat.div_eq_of_lt hk
    have hmod : (k : ℕ) % 8 = k := Nat.mod_eq_of_lt hk
    simp only [bits, hdiv, hmod]
  · intro h
    apply BitVec.eq_of_getLsbD_eq
    intro i hi
    have hbit := h ⟨i, by omega⟩ hi
    have hdiv : i / 8 = 0 := Nat.div_eq_of_lt hi
    have hmod : i % 8 = i := Nat.mod_eq_of_lt hi
    simpa only [bits, hdiv, hmod] using hbit

theorem byte_zero_eq_zero_iff : r.byte 0 = 0 ↔ ∀ k : Fin 64, k < 8 → r.bits k = false := by
  rw [byte_zero_eq_iff]
  apply forall₂_congr
  intro k _
  have hzero : (0 : BitVec 8).getLsbD k = false := BitVec.getLsbD_zero
  rw [hzero]

theorem drop_key (r : Rom) (hk : k < 64) :
    r.key.drop k = r.bits ⟨k, hk⟩ :: r.key.drop (k + 1) := by
  have hlen : k < r.key.length := by simpa [key] using hk
  rw [List.drop_eq_getElem_cons hlen]
  congr 1
  exact List.getElem_ofFn _

theorem drop_key_eq_nil (r : Rom) : r.key.drop 64 = [] :=
  List.drop_eq_nil_of_le (by simp [key])

end Rom

end FlipperZero.OneWire
