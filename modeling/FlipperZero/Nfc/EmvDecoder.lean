import FlipperZero.Lib.Loop
import Mathlib.Algebra.Group.Nat.Defs
import Mathlib.Data.Prod.Lex

/-! # The decoders of EMV responses

A card answers with bytes in which the decoders look for tags, and copy the value behind a tag into
a field. An access outside the response or outside the field stops a decoder here. The grammars
below describe the responses that no decoder reads or writes outside of.
-/

namespace FlipperZero.Nfc

open Lib

structure Apdu where
  size : BitVec 8
  data : Vector (BitVec 8) 255
deriving DecidableEq

structure EmvApplication where
  /-- The one byte of the priority. -/
  priority : Vector (BitVec 8) 1
  aid : Vector (BitVec 8) 16
  aidLen : BitVec 8
  name : Vector (BitVec 8) 32
  cardNumber : Vector (BitVec 8) 8
  pdol : Apdu
  afl : Apdu
deriving DecidableEq

/-- The bytes of a response, with their number in 16 bits. -/
structure Response where
  bytes : List (BitVec 8)
  short : bytes.length < 2 ^ 16

def tagAppTemplate : BitVec 8 := 0x61
def tagAid : BitVec 8 := 0x4F
def tagPriority : BitVec 8 := 0x87
def tagPdol : BitVec 16 := 0x9F38
def tagCardName : BitVec 8 := 0x50
def tagCardNum : BitVec 8 := 0x57
def tagPan : BitVec 8 := 0x5A
def tagAfl : BitVec 8 := 0x94

def next (i : ℕ) : ℕ := (i + 1) % 2 ^ 16

def store {n : ℕ} (dest : Vector (BitVec 8) n) (k : ℕ) (b : BitVec 8) :
    Option (Vector (BitVec 8) n) :=
  if h : k < n then some (dest.set k b) else none

/-- `memcpy` from a place in the response, byte by byte. -/
def memcpy {n : ℕ} (dest : Vector (BitVec 8) n) (src : List (BitVec 8)) (start : ℕ) :
    (count : ℕ) → Option (Vector (BitVec 8) n)
  | 0 => some dest
  | count + 1 => do
    let dest ← memcpy dest src start count
    let b ← src[start + count]?
    store dest count b

/-- What `emv_parse_TLV` returns and leaves in its arguments. -/
structure Tlv (n : ℕ) where
  dest : Vector (BitVec 8) n
  len : BitVec 8
  idx : ℕ

def emvParseTLV {n : ℕ} (dest : Vector (BitVec 8) n) (src : List (BitVec 8)) (idx : ℕ) :
    Option (Tlv n) := do
  let len ← src[idx + 1]?
  let dest ← memcpy dest src (idx + 2) len.toNat
  some ⟨dest, len, (idx + len.toNat + 1) % 2 ^ 16⟩

section Decoders

variable (buff : List (BitVec 8))

/-- The variables of `emv_decode_ppse_response`; in the inner loop, with its index and with the
length of the template. -/
structure PpseState where
  i : ℕ
  appAidFound : Bool
  app : EmvApplication
  template : Option (ℕ × BitVec 8)

/-- A round of the inner loop of `emv_decode_ppse_response`, or the end of it. -/
def templateRound (s : PpseState) (j : ℕ) (appLen : BitVec 8) :
    Option ((Bool × EmvApplication) ⊕ PpseState) :=
  if j < s.i + appLen.toNat then do
    let tag ← buff[j]?
    if tag = tagAid then
      let aidLen ← buff[j + 1]?
      let tlv ← emvParseTLV s.app.aid buff j
      some (.inr { s with
        appAidFound := true
        app := { s.app with aidLen, aid := tlv.dest }
        template := some (next tlv.idx, appLen) })
    else
      if tag = tagPriority then
        let tlv ← emvParseTLV s.app.priority buff j
        some (.inr { s with
          app := { s.app with priority := tlv.dest }
          template := some (next tlv.idx, appLen) })
      else some (.inr { s with template := some (next j, appLen) })
  else some (.inr { s with i := next ((s.i + appLen.toNat) % 2 ^ 16), template := none })

/-- A round of the outer loop of `emv_decode_ppse_response` up to the inner one. -/
def searchRound (s : PpseState) : Option ((Bool × EmvApplication) ⊕ PpseState) :=
  if s.i < buff.length then do
    let tag ← buff[s.i]?
    if tag = tagAppTemplate then
      let appLen ← buff[next s.i]?
      some (.inr { s with i := next s.i, template := some (next s.i, appLen) })
    else some (.inr { s with i := next s.i })
  else some (.inl (s.appAidFound, s.app))

/-- A round of the innermost loop of `emv_decode_ppse_response` that is running. -/
def ppseRound (s : PpseState) : Option ((Bool × EmvApplication) ⊕ PpseState) :=
  match s.template with
  | some (j, appLen) => templateRound buff s j appLen
  | none => searchRound buff s

structure SelectAppState where
  i : ℕ
  foundName : Bool
  app : EmvApplication

/-- A round of the loop of `emv_decode_select_app_response`. -/
def selectAppRound (s : SelectAppState) : Option ((Bool × EmvApplication) ⊕ SelectAppState) :=
  if s.i < buff.length then do
    let tag ← buff[s.i]?
    if tag = tagCardName then
      let nameLen ← buff[s.i + 1]?
      let tlv ← emvParseTLV s.app.name buff s.i
      let name ← store tlv.dest nameLen.toNat 0#8
      some (.inr ⟨next tlv.idx, true, { s.app with name }⟩)
    else
      let low ← buff[s.i + 1]?
      if tag ++ low = tagPdol then
        let tlv ← emvParseTLV s.app.pdol.data buff (next s.i)
        some (.inr ⟨next tlv.idx, s.foundName, { s.app with pdol := ⟨tlv.len, tlv.dest⟩ }⟩)
      else some (.inr { s with i := next s.i })
  else some (.inl (s.foundName, s.app))

structure CardState where
  i : ℕ
  app : EmvApplication

/-- A round of the loop of `emv_decode_get_proc_opt`. -/
def getProcOptRound (s : CardState) : Option ((Bool × EmvApplication) ⊕ CardState) :=
  if s.i < buff.length then do
    let tag ← buff[s.i]?
    if tag = tagCardNum then
      let cardNumber ← memcpy s.app.cardNumber buff (s.i + 2) 8
      some (.inl (true, { s.app with cardNumber }))
    else
      if tag = tagAfl then
        let tlv ← emvParseTLV s.app.afl.data buff s.i
        some (.inr ⟨next tlv.idx, { s.app with afl := ⟨tlv.len, tlv.dest⟩ }⟩)
      else some (.inr { s with i := next s.i })
  else some (.inl (false, s.app))

/-- A round of the loop of `emv_decode_read_sfi_record`. -/
def readSfiRound (s : CardState) : Option ((Bool × EmvApplication) ⊕ CardState) :=
  if s.i < buff.length then do
    let tag ← buff[s.i]?
    if tag = tagPan then
      let cardNumber ← memcpy s.app.cardNumber buff (s.i + 2) 8
      some (.inl (true, { s.app with cardNumber }))
    else some (.inr { s with i := next s.i })
  else some (.inl (false, s.app))

end Decoders

def emvDecodePpseResponse (r : Response) (app : EmvApplication) (n : ℕ) :
    Option (Option (Bool × EmvApplication)) :=
  loop (checked (ppseRound r.bytes)) n ⟨0, false, app, none⟩

def emvDecodeSelectAppResponse (r : Response) (app : EmvApplication) (n : ℕ) :
    Option (Option (Bool × EmvApplication)) :=
  loop (checked (selectAppRound r.bytes)) n ⟨0, false, app⟩

def emvDecodeGetProcOpt (r : Response) (app : EmvApplication) (n : ℕ) :
    Option (Option (Bool × EmvApplication)) :=
  loop (checked (getProcOptRound r.bytes)) n ⟨0, app⟩

def emvDecodeReadSfiRecord (r : Response) (app : EmvApplication) (n : ℕ) :
    Option (Option (Bool × EmvApplication)) :=
  loop (checked (readSfiRound r.bytes)) n ⟨0, app⟩

/-- A decoder makes no access out of bounds, however many rounds it is followed. -/
def StaysInBounds
    (decode : Response → EmvApplication → ℕ → Option (Option (Bool × EmvApplication)))
    (r : Response) (app : EmvApplication) : Prop :=
  ∀ n, decode r app n ≠ some none

/-- The bytes behind a length byte and a value of this length, of no more than `cap` bytes. -/
def afterValue (cap : ℕ) : List (BitVec 8) → Option (List (BitVec 8))
  | [] => none
  | len :: s => if len.toNat ≤ cap ∧ len.toNat ≤ s.length then some (s.drop len.toNat) else none

section Tlv

variable {n start count i : ℕ} {dest : Vector (BitVec 8) n} {buff s rest : List (BitVec 8)}
  {tag : BitVec 8}

theorem store_isSome {k : ℕ} {b : BitVec 8} : (store dest k b).isSome ↔ k < n := by
  unfold store
  split
  · next h => exact iff_of_true rfl h
  · next h => exact iff_of_false Bool.false_ne_true h

theorem memcpy_isSome : (memcpy dest buff start count).isSome ↔
    count ≤ n ∧ (0 < count → start + count ≤ buff.length) := by
  induction count with
  | zero => simp [memcpy]
  | succ count ih =>
    rw [memcpy]
    cases hcopied : memcpy dest buff start count with
    | none =>
      have hprev : ¬(count ≤ n ∧ (0 < count → start + count ≤ buff.length)) := by
        simpa [hcopied] using ih
      simp only [Option.bind_eq_bind, Option.bind_none, Option.isSome_none, Bool.false_eq_true,
        false_iff]
      omega
    | some d =>
      have hprev := ih.mp (by rw [hcopied]; rfl)
      cases hread : buff[start + count]? with
      | none =>
        have hend := List.getElem?_eq_none_iff.mp hread
        simp only [Option.bind_eq_bind, Option.bind_some, Option.bind_none, Option.isSome_none,
          Bool.false_eq_true, false_iff]
        omega
      | some b =>
        obtain ⟨hlt, _⟩ := List.getElem?_eq_some_iff.mp hread
        simp only [Option.bind_eq_bind, Option.bind_some, store_isSome]
        omega

/-- An index of the response, with the bytes behind it. -/
structure At (buff : List (BitVec 8)) (i : ℕ) (tag : BitVec 8) (s : List (BitVec 8)) : Prop where
  lt : i < buff.length
  length : buff.length = i + 1 + s.length
  read : buff[i]? = some tag
  readNext : buff[i + 1]? = s[0]?
  drop : ∀ k, buff.drop (i + 1 + k) = s.drop k

theorem at_of_drop (h : buff.drop i = tag :: s) : At buff i tag s := by
  have hlength := congrArg List.length h
  rw [List.length_drop, List.length_cons] at hlength
  constructor
  · omega
  · omega
  · rw [← List.head?_drop, h, List.head?_cons]
  · rw [← List.head?_drop, ← List.drop_drop, h, List.head?_eq_getElem?]
    rfl
  · intro k
    rw [Nat.add_assoc, ← List.drop_drop, h, Nat.add_comm, List.drop_succ_cons]

theorem not_lt_of_drop (h : buff.drop i = []) : ¬i < buff.length := by
  rw [not_lt]
  exact List.drop_eq_nil_iff.mp h

theorem next_eq (h : i + 1 < 2 ^ 16) : next i = i + 1 := Nat.mod_eq_of_lt h

theorem afterValue_eq_some_iff {cap : ℕ} :
    afterValue cap s = some rest ↔ ∃ len t, s = len :: t ∧ len.toNat ≤ cap ∧
      len.toNat ≤ t.length ∧ rest = t.drop len.toNat := by
  cases s with
  | nil => simp [afterValue]
  | cons len t =>
    simp only [afterValue, Option.ite_none_right_eq_some, Option.some.injEq, List.cons.injEq]
    constructor
    · rintro ⟨⟨hcap, hlen⟩, rfl⟩
      exact ⟨len, t, ⟨rfl, rfl⟩, hcap, hlen, rfl⟩
    · rintro ⟨_, _, ⟨rfl, rfl⟩, hcap, hlen, rfl⟩
      exact ⟨⟨hcap, hlen⟩, rfl⟩

/-- `emv_parse_TLV` takes the value behind its index where there is one that fits its field, and
leaves the index on the last byte of it. -/
theorem emvParseTLV_eq_some (dest : Vector (BitVec 8) n) (hshort : buff.length < 2 ^ 16) (h : At buff i tag s)
    (hvalue : afterValue n s = some rest) :
    ∃ tlv, emvParseTLV dest buff i = some tlv ∧ s[0]? = some tlv.len ∧
      next tlv.idx = i + 1 + (s.length - rest.length) ∧ buff.drop (next tlv.idx) = rest := by
  obtain ⟨len, t, rfl, hcap, hlen, rfl⟩ := afterValue_eq_some_iff.mp hvalue
  have hlength := h.length
  rw [List.length_cons] at hlength
  have hread : buff[i + 1]? = some len := h.readNext
  have hcopy : (memcpy dest buff (i + 2) len.toNat).isSome :=
    memcpy_isSome.mpr ⟨hcap, fun _ => by omega⟩
  obtain ⟨d, hd⟩ := Option.isSome_iff_exists.mp hcopy
  have hidx : (i + len.toNat + 1) % 2 ^ 16 = i + len.toNat + 1 := Nat.mod_eq_of_lt (by omega)
  have hnext : next (i + len.toNat + 1) = i + 1 + (len.toNat + 1) := by
    rw [next_eq (by omega)]
    omega
  refine ⟨⟨d, len, i + len.toNat + 1⟩, ?_, rfl, ?_, ?_⟩
  · have hparse : emvParseTLV dest buff i = some ⟨d, len, (i + len.toNat + 1) % 2 ^ 16⟩ := by
      simp [emvParseTLV, hread, hd]
    rw [hparse, hidx]
  · rw [hnext, List.length_cons, List.length_drop]
    omega
  · rw [hnext, h.drop, List.drop_succ_cons]

theorem emvParseTLV_eq_none (h : At buff i tag s) (hvalue : afterValue n s = none) :
    emvParseTLV dest buff i = none := by
  cases s with
  | nil =>
    have hread : buff[i + 1]? = none := h.readNext
    simp [emvParseTLV, hread]
  | cons len t =>
    have hlength := h.length
    rw [List.length_cons] at hlength
    have hread : buff[i + 1]? = some len := h.readNext
    have hcopy : memcpy dest buff (i + 2) len.toNat = none := by
      rw [← Option.not_isSome_iff_eq_none, memcpy_isSome]
      rintro ⟨hcap, hlen⟩
      rw [afterValue, if_pos ⟨hcap, by omega⟩] at hvalue
      cases hvalue
    simp [emvParseTLV, hread, hcopy]

theorem memcpy_cardNumber {dest : Vector (BitVec 8) 8} (h : At buff i tag s) :
    (memcpy dest buff (i + 2) 8).isSome ↔ 9 ≤ s.length := by
  have hlength := h.length
  rw [memcpy_isSome]
  omega

end Tlv

end FlipperZero.Nfc
