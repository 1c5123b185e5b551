import FlipperZero.Nfc.EmvDecoder
import Mathlib.Algebra.GroupWithZero.Nat
import Mathlib.Data.List.Find

/-! # Preparing the values of a Data Object List

The card lists the tags whose values it wants, each with a length. A round of the loop takes one
entry of the list and appends bytes to the command. The bytes behind the list in its array are left
from before.
-/

namespace FlipperZero.Nfc

open Lib

structure PdolValue where
  tag : BitVec 16
  data : List (BitVec 8)
deriving DecidableEq

def pdolTermInfo : PdolValue := ⟨0x9F59, [0xC8, 0x80, 0x00]⟩
def pdolTermType : PdolValue := ⟨0x9F5A, [0x00]⟩
def pdolMerchantType : PdolValue := ⟨0x9F58, [0x01]⟩
def pdolTermTransQualifies : PdolValue := ⟨0x9F66, [0x79, 0x00, 0x40, 0x80]⟩
def pdolAmountAuthorise : PdolValue := ⟨0x9F02, [0x00, 0x00, 0x00, 0x10, 0x00, 0x00]⟩
def pdolAmount : PdolValue := ⟨0x9F03, [0x00, 0x00, 0x00, 0x00, 0x00, 0x00]⟩
def pdolCountryCode : PdolValue := ⟨0x9F1A, [0x01, 0x24]⟩
def pdolCurrencyCode : PdolValue := ⟨0x5F2A, [0x01, 0x24]⟩
def pdolTermVerification : PdolValue := ⟨0x95, [0x00, 0x00, 0x00, 0x00, 0x00]⟩
def pdolTransactionDate : PdolValue := ⟨0x9A, [0x19, 0x01, 0x01]⟩
def pdolTransactionType : PdolValue := ⟨0x9C, [0x00]⟩
def pdolTransactionCert : PdolValue := ⟨0x98, List.replicate 20 0⟩
def pdolUnpredictNumber : PdolValue := ⟨0x9F37, [0x82, 0x3D, 0xDE, 0x7A]⟩

def pdolValues : List PdolValue :=
  [pdolTermInfo, pdolTermType, pdolMerchantType, pdolTermTransQualifies, pdolAmountAuthorise,
    pdolAmount, pdolCountryCode, pdolCurrencyCode, pdolTermVerification, pdolTransactionDate,
    pdolTransactionType, pdolTransactionCert, pdolUnpredictNumber]

namespace Apdu

def empty : Apdu := ⟨0, Vector.replicate 255 0⟩

def bytes (apdu : Apdu) : List (BitVec 8) := apdu.data.toList.take apdu.size.toNat

/-- Write bytes behind those that the size counts, and count them; `none` is a write outside. -/
def append (apdu : Apdu) (bytes : List (BitVec 8)) : Option Apdu :=
  if apdu.size.toNat + bytes.length ≤ 255 then
    some
      { size := apdu.size + BitVec.ofNat 8 bytes.length
        data := Vector.ofFn fun k =>
          if apdu.size.toNat ≤ k.val then (bytes[k.val - apdu.size.toNat]?).getD (apdu.data.get k)
          else apdu.data.get k }
  else none

end Apdu

/-- The variables of `emv_prepare_pdol`, with the bytes that each round has appended. The index
stays below 2 ^ 16, as the size is a byte. -/
structure PdolState where
  i : ℕ
  dest : Apdu
  emitted : List (List (BitVec 8))

namespace PdolState

def emit (s : PdolState) (i : ℕ) (bytes : List (BitVec 8)) : Option PdolState :=
  (s.dest.append bytes).map fun dest => ⟨i + 1, dest, s.emitted ++ [bytes]⟩

end PdolState

/-- The first value of the table with the tag of one byte or with that of two. -/
def pdolFind (first second : BitVec 8) : Option PdolValue :=
  pdolValues.find? fun value => first.setWidth 16 = value.tag ∨ first ++ second = value.tag

/-- The value in the table up to a length; `none` is a read behind it. -/
def PdolValue.copy (value : PdolValue) (len : BitVec 8) : Option (List (BitVec 8)) :=
  if len.toNat ≤ value.data.length then some (value.data.take len.toNat) else none

/-- A round of the loop of `emv_prepare_pdol`. -/
def pdolRound (src : Apdu) (s : PdolState) : Option (PdolState ⊕ PdolState) :=
  if s.i < src.size.toNat then do
    let first ← src.data[s.i]?
    let second ← src.data[s.i + 1]?
    match pdolFind first second with
    | some value =>
      let i := if first.setWidth 16 = value.tag then s.i + 1 else s.i + 2
      let len ← src.data[i]?
      let bytes ← value.copy len
      (s.emit i bytes).map .inr
    | none =>
      let i := s.i + 2
      let len ← src.data[i]?
      (s.emit i (List.replicate len.toNat 0)).map .inr
  else some (.inl s)

/-- The loop leaves what it returns in the size of `dest`. -/
def emvPreparePdol (dest src : Apdu) (n : ℕ) : Option (Option PdolState) :=
  loop (checked (pdolRound src)) n ⟨0, dest, []⟩

/-- The command that `emv_prepare_get_proc_opt` makes of the prepared values. -/
def emvPrepareGetProcOpt (src : Apdu) (n : ℕ) : Option (Option (List (BitVec 8))) :=
  (emvPreparePdol .empty src n).map fun out => out.map fun out =>
    [0x80, 0xA8, 0x00, 0x00, 0x02 + out.dest.size, 0x83, out.dest.size] ++ out.dest.bytes ++ [0]

/-- A tag of one or two bytes: a second byte follows where the low five bits of the first are ones,
and its highest bit ends the tag. -/
inductive PdolTag where
  | one (first : BitVec 8) (h : first &&& 0x1F ≠ 0x1F)
  | two (first second : BitVec 8) (h : first &&& 0x1F = 0x1F) (hlast : second < 0x80)

structure PdolEntry where
  tag : PdolTag
  len : BitVec 8

namespace PdolTag

def bytes : PdolTag → List (BitVec 8)
  | one first _ => [first]
  | two first second _ _ => [first, second]

def value : PdolTag → BitVec 16
  | one first _ => first.setWidth 16
  | two first second _ _ => first ++ second

def known (tag : PdolTag) : Option PdolValue := pdolValues.find? fun value => tag.value = value.tag

end PdolTag

namespace PdolEntry

def bytes (e : PdolEntry) : List (BitVec 8) := e.tag.bytes ++ [e.len]

/-- The bytes that an entry asks for: the known value, padded or cut, or zeros. -/
def requested (e : PdolEntry) : List (BitVec 8) :=
  match e.tag.known with
  | some value => (value.data ++ List.replicate e.len.toNat 0).take e.len.toNat
  | none => List.replicate e.len.toNat 0

/-- A known tag asks for no more than its value; an unknown one has two bytes. -/
def InStep (e : PdolEntry) : Prop :=
  match e.tag.known with
  | some value => e.len.toNat ≤ value.data.length
  | none => e.tag.bytes.length = 2

end PdolEntry

section Append

variable {apdu apdu' : Apdu} {bytes : List (BitVec 8)} {k : ℕ}

theorem Apdu.length_bytes (apdu : Apdu) : apdu.bytes.length = apdu.size.toNat := by
  rw [bytes, List.length_take, Vector.length_toList]
  omega

theorem Apdu.getElem?_bytes (hk : k < apdu.size.toNat) : apdu.bytes[k]? = apdu.data[k]? := by
  rw [bytes, List.getElem?_take_of_lt hk, Vector.getElem?_toList]

theorem Apdu.append_isSome :
    (apdu.append bytes).isSome ↔ apdu.size.toNat + bytes.length ≤ 255 := by
  unfold append
  split
  · next h => exact iff_of_true rfl h
  · next h => exact iff_of_false Bool.false_ne_true h

theorem Apdu.append_spec (h : apdu.append bytes = some apdu') :
    apdu'.size.toNat = apdu.size.toNat + bytes.length ∧ apdu'.bytes = apdu.bytes ++ bytes := by
  unfold append at h
  split at h
  · next hfits =>
    obtain rfl := Option.some.inj h
    have hsize : (apdu.size + BitVec.ofNat 8 bytes.length).toNat =
        apdu.size.toNat + bytes.length := by
      rw [BitVec.toNat_add, BitVec.toNat_ofNat]
      omega
    refine ⟨hsize, List.ext_getElem? fun k => ?_⟩
    by_cases hk : k < apdu.size.toNat + bytes.length
    · rw [Apdu.getElem?_bytes (by rw [hsize]; exact hk), Vector.getElem?_ofFn, dif_pos (by omega)]
      by_cases hold : k < apdu.size.toNat
      · rw [if_neg (Nat.not_le.mpr hold),
          List.getElem?_append_left (by rw [Apdu.length_bytes]; exact hold),
          Apdu.getElem?_bytes hold, Vector.getElem?_eq_getElem (by omega)]
        rfl
      · have hlt : k - apdu.size.toNat < bytes.length := by omega
        rw [if_pos (Nat.not_lt.mp hold),
          List.getElem?_append_right (by rw [Apdu.length_bytes]; omega),
          Apdu.length_bytes, List.getElem?_eq_getElem hlt, Option.getD_some]
    · rw [List.getElem?_eq_none (by rw [Apdu.length_bytes, hsize]; omega),
        List.getElem?_eq_none (by rw [List.length_append, Apdu.length_bytes]; omega)]
  · cases h

end Append

section Table

/-- The tags of one byte are those from 0x80 on whose low five bits are not ones; in the tags of two
bytes the low five bits of the first are ones. -/
theorem pdolValues_tag : ∀ value ∈ pdolValues,
    (value.tag.toNat < 256 ∧ 128 ≤ value.tag.toNat ∧ value.tag.toNat % 32 ≠ 31) ∨
      (256 ≤ value.tag.toNat ∧ value.tag.toNat / 256 % 32 = 31) := by
  decide

theorem and_low_iff : ∀ b : BitVec 8, b &&& 0x1F = 0x1F ↔ b.toNat % 32 = 31 := by
  decide

variable {first second : BitVec 8} {value : PdolValue} {e : PdolEntry}

theorem toNat_append (first second : BitVec 8) :
    (first ++ second).toNat = first.toNat * 256 + second.toNat := by
  rw [BitVec.toNat_append, ← Nat.shiftLeft_add_eq_or_of_lt second.isLt, Nat.shiftLeft_eq]

theorem toNat_setWidth_byte (first : BitVec 8) : (first.setWidth 16).toNat = first.toNat := by
  rw [BitVec.toNat_setWidth]
  omega

theorem le_of_setWidth_eq (hvalue : value ∈ pdolValues) (h : first.setWidth 16 = value.tag) :
    128 ≤ first.toNat := by
  have htag := pdolValues_tag value hvalue
  rw [← h, toNat_setWidth_byte] at htag
  omega

/-- The search finds what the tag of an entry stands for, if it is known or has two bytes. -/
theorem pdolFind_one {h : first &&& 0x1F ≠ 0x1F} (hknown : (PdolTag.one first h).known.isSome) :
    pdolFind first second = (PdolTag.one first h).known := by
  obtain ⟨value, hvalue, htag⟩ := List.find?_isSome.mp hknown
  have hfirst := le_of_setWidth_eq hvalue (of_decide_eq_true htag)
  refine List.find?_congr fun value' hvalue' => ?_
  rw [decide_eq_decide]
  refine or_iff_left fun htwo => ?_
  have htag' := pdolValues_tag value' hvalue'
  rw [ne_eq, and_low_iff] at h
  rw [← htwo, toNat_append] at htag'
  omega

theorem pdolFind_two {h : first &&& 0x1F = 0x1F} {hlast : second < 0x80} :
    pdolFind first second = (PdolTag.two first second h hlast).known := by
  refine List.find?_congr fun value hvalue => ?_
  rw [decide_eq_decide]
  refine or_iff_right fun hone => ?_
  have htag := pdolValues_tag value hvalue
  rw [and_low_iff] at h
  rw [← hone, toNat_setWidth_byte] at htag
  omega

/-- What the search finds for a known tag of one byte has this tag, and not for one of two. -/
theorem setWidth_of_pdolFind_one {h : first &&& 0x1F ≠ 0x1F}
    (hfind : (PdolTag.one first h).known = some value) : first.setWidth 16 = value.tag := by
  have htag := List.find?_some hfind
  exact of_decide_eq_true htag

theorem setWidth_ne_of_pdolFind_two {h : first &&& 0x1F = 0x1F} {hlast : second < 0x80}
    (hfind : (PdolTag.two first second h hlast).known = some value) :
    first.setWidth 16 ≠ value.tag := by
  intro hone
  have htag := pdolValues_tag value (List.mem_of_find?_eq_some hfind)
  rw [and_low_iff] at h
  rw [← hone, toNat_setWidth_byte] at htag
  omega

end Table

section Rounds

variable {src : Apdu} {s s' out : PdolState} {e : PdolEntry} {entries : List PdolEntry}
  {seg : List (BitVec 8)} {segs : List (List (BitVec 8))} {pre post : List (BitVec 8)}

/-- What a round does in general: it reads a length behind a tag of one byte of the table, or a byte
farther, and appends as many bytes. -/
structure Round (src : Apdu) (s s' : PdolState) (i : ℕ) (seg : List (BitVec 8)) : Prop where
  next : s'.i = i + 1
  emitted : s'.emitted = s.emitted ++ [seg]
  append : s.dest.append seg = some s'.dest
  len : ∃ len, src.data[i]? = some len ∧ seg.length = len.toNat
  index : i = s.i + 2 ∨ i = s.i + 1 ∧ ∃ first, src.data[s.i]? = some first ∧
    ∃ value ∈ pdolValues, first.setWidth 16 = value.tag

theorem PdolState.emit_eq_some {i : ℕ} (h : s.emit i seg = some s') :
    s'.i = i + 1 ∧ s'.emitted = s.emitted ++ [seg] ∧ s.dest.append seg = some s'.dest := by
  obtain ⟨dest, hdest, rfl⟩ := Option.map_eq_some_iff.mp h
  exact ⟨rfl, rfl, hdest⟩

theorem PdolValue.length_copy {value : PdolValue} {len : BitVec 8}
    (h : value.copy len = some seg) : seg.length = len.toNat := by
  unfold PdolValue.copy at h
  split at h
  · next hle =>
    obtain rfl := Option.some.inj h
    rw [List.length_take, Nat.min_eq_left hle]
  · cases h

theorem pdolRound_inr (h : pdolRound src s = some (.inr s')) :
    s.i < src.size.toNat ∧ ∃ i seg, Round src s s' i seg := by
  unfold pdolRound at h
  split at h
  · next hlt =>
    obtain ⟨first, hfirst, h⟩ := Option.bind_eq_some_iff.mp h
    obtain ⟨second, -, h⟩ := Option.bind_eq_some_iff.mp h
    refine ⟨hlt, ?_⟩
    split at h
    · next value hvalue =>
      obtain ⟨len, hlen, h⟩ := Option.bind_eq_some_iff.mp h
      obtain ⟨seg, hseg, h⟩ := Option.bind_eq_some_iff.mp h
      obtain ⟨s₁, hs, h⟩ := Option.map_eq_some_iff.mp h
      obtain rfl := Sum.inr.inj h
      obtain ⟨hnext, hemitted, happend⟩ := PdolState.emit_eq_some hs
      refine ⟨_, seg, hnext, hemitted, happend, ⟨len, hlen, PdolValue.length_copy hseg⟩, ?_⟩
      split
      · next htag =>
        exact .inr ⟨rfl, first, hfirst, value, List.mem_of_find?_eq_some hvalue, htag⟩
      · exact .inl rfl
    · obtain ⟨len, hlen, h⟩ := Option.bind_eq_some_iff.mp h
      obtain ⟨s₁, hs, h⟩ := Option.map_eq_some_iff.mp h
      obtain rfl := Sum.inr.inj h
      obtain ⟨hnext, hemitted, happend⟩ := PdolState.emit_eq_some hs
      exact ⟨_, _, hnext, hemitted, happend, ⟨len, hlen, List.length_replicate⟩, .inl rfl⟩
  · cases h

theorem pdolRound_inl (h : pdolRound src s = some (.inl out)) :
    out = s ∧ ¬s.i < src.size.toNat := by
  unfold pdolRound at h
  split at h
  · obtain ⟨first, -, h⟩ := Option.bind_eq_some_iff.mp h
    obtain ⟨second, -, h⟩ := Option.bind_eq_some_iff.mp h
    split at h
    · obtain ⟨len, -, h⟩ := Option.bind_eq_some_iff.mp h
      obtain ⟨seg, -, h⟩ := Option.bind_eq_some_iff.mp h
      obtain ⟨_, -, h⟩ := Option.map_eq_some_iff.mp h
      cases h
    · obtain ⟨len, -, h⟩ := Option.bind_eq_some_iff.mp h
      obtain ⟨_, -, h⟩ := Option.map_eq_some_iff.mp h
      cases h
  · next hlt => exact ⟨(Sum.inl.inj (Option.some.inj h)).symm, hlt⟩

/-- From a state the loop appends these bytes, round by round. -/
def Emits (src : Apdu) (s : PdolState) (segs : List (List (BitVec 8))) : Prop :=
  ∃ n out, loop (checked (pdolRound src)) n s = some (some out) ∧ out.emitted = s.emitted ++ segs

theorem emitted_append {n : ℕ} (h : loop (checked (pdolRound src)) n s = some (some out)) :
    ∃ segs, out.emitted = s.emitted ++ segs := by
  induction n generalizing s with
  | zero => cases h
  | succ n ih =>
    rcases loop_checked_cases h with hleave | ⟨m, s', hm, hround, hloop⟩
    · obtain ⟨rfl, -⟩ := pdolRound_inl hleave
      exact ⟨[], (List.append_nil _).symm⟩
    · obtain rfl := Nat.succ.inj hm
      obtain ⟨-, i, seg, hseg⟩ := pdolRound_inr hround
      obtain ⟨segs, hsegs⟩ := ih hloop
      refine ⟨seg :: segs, ?_⟩
      rw [hsegs, hseg.emitted, List.append_assoc]
      rfl

/-- What a loop appends is what its first round appends and what the loop then appends. -/
theorem Emits.exists_round (h : Emits src s (seg :: segs)) :
    ∃ s' i, pdolRound src s = some (.inr s') ∧ Round src s s' i seg ∧ Emits src s' segs := by
  obtain ⟨n, out, hloop, hout⟩ := h
  rcases loop_checked_cases hloop with hleave | ⟨m, s', -, hround, hloop'⟩
  · obtain ⟨rfl, -⟩ := pdolRound_inl hleave
    exact absurd (List.self_eq_append_right.mp hout) (List.cons_ne_nil _ _)
  · obtain ⟨-, i, seg', hseg⟩ := pdolRound_inr hround
    obtain ⟨segs', hsegs⟩ := emitted_append hloop'
    rw [hsegs, hseg.emitted, List.append_assoc, List.append_cancel_left_eq, List.singleton_append,
      List.cons.injEq] at hout
    obtain ⟨rfl, rfl⟩ := hout
    exact ⟨s', i, hround, hseg, m, out, hloop', hsegs⟩

theorem PdolEntry.length_requested (e : PdolEntry) : e.requested.length = e.len.toNat := by
  unfold PdolEntry.requested
  split
  · rw [List.length_take, List.length_append, List.length_replicate]
    omega
  · exact List.length_replicate

theorem getElem?_data {k : ℕ} {b : BitVec 8} (hbytes : src.bytes = pre ++ (e.bytes ++ post))
    (hk : e.bytes[k]? = some b) : src.data[pre.length + k]? = some b := by
  obtain ⟨hlt, -⟩ := List.getElem?_eq_some_iff.mp hk
  have hlength := congrArg List.length hbytes
  rw [Apdu.length_bytes, List.length_append, List.length_append] at hlength
  rw [← Apdu.getElem?_bytes (by omega), hbytes, List.getElem?_append_right (by omega),
    Nat.add_sub_cancel_left, List.getElem?_append_left hlt, hk]

section Ahead

/-- A round that starts behind the start of an entry, or at an unknown tag of one byte, reads its
length behind the entry. -/
theorem Round.behind {i d : ℕ} (h : Round src s s' i seg)
    (hbytes : src.bytes = pre ++ (e.bytes ++ post)) (hi : s.i = pre.length + d)
    (hahead : 0 < d ∨ e.tag.known = none ∧ e.tag.bytes.length = 1) :
    pre.length + e.bytes.length ≤ i := by
  obtain ⟨tag, len⟩ := e
  cases tag with
  | one first hone =>
    rw [show (PdolEntry.mk (.one first hone) len).bytes.length = 2 from rfl]
    rcases h.index with hindex | ⟨hindex, first', hfirst, value, hvalue, htag⟩
    · omega
    · rcases hahead with hpos | ⟨hunknown, -⟩
      · omega
      · rcases Nat.eq_zero_or_pos d with rfl | hpos
        · rw [hi, getElem?_data (k := 0) (b := first) hbytes rfl] at hfirst
          obtain rfl := Option.some.inj hfirst
          have hfound := List.find?_eq_none.mp hunknown value hvalue
          exact absurd (decide_eq_true htag) hfound
        · omega
  | two first second htwo hlast =>
    rw [show (PdolEntry.mk (.two first second htwo hlast) len).bytes.length = 3 from rfl]
    have hpos : 0 < d := by
      rcases hahead with hpos | ⟨-, hlength⟩
      · exact hpos
      · cases hlength
    rcases h.index with hindex | ⟨hindex, first', hfirst, value, hvalue, htag⟩
    · omega
    · by_cases hd : d = 1
      · rw [hi, hd, getElem?_data (k := 1) (b := second) hbytes rfl] at hfirst
        obtain rfl := Option.some.inj hfirst
        have hhigh := le_of_setWidth_eq hvalue htag
        have hlow : second.toNat < 128 := hlast
        omega
      · omega

theorem not_emits_of_ahead {b : BitVec 8} {d : ℕ}
    (hstale : ∀ k, src.size.toNat ≤ k → ∀ c, src.data[k]? = some c → c = b)
    (hlast : ∀ e' ∈ (e :: entries).getLast?, e'.len ≠ b)
    (hbytes : src.bytes = pre ++ (e :: entries).flatMap PdolEntry.bytes)
    (hi : s.i = pre.length + d) (hahead : 0 < d ∨ e.tag.known = none ∧ e.tag.bytes.length = 1) :
    ¬Emits src s ((e :: entries).map PdolEntry.requested) := by
  intro h
  induction entries generalizing e pre s d with
  | nil =>
    obtain ⟨s', i, -, hround, -⟩ := h.exists_round
    have hbehind := hround.behind hbytes hi hahead
    have hlength := congrArg List.length hbytes
    rw [Apdu.length_bytes, List.flatMap_cons, List.flatMap_nil, List.append_nil,
      List.length_append] at hlength
    obtain ⟨len, hread, hlen⟩ := hround.len
    obtain rfl := hstale i (by omega) len hread
    rw [PdolEntry.length_requested, ← BitVec.toNat_eq] at hlen
    exact hlast e rfl hlen
  | cons e' entries ih =>
    obtain ⟨s', i, -, hround, hrest⟩ := h.exists_round
    have hbehind := hround.behind hbytes hi hahead
    have hbytes' : src.bytes = (pre ++ e.bytes) ++ (e' :: entries).flatMap PdolEntry.bytes := by
      rw [hbytes, List.flatMap_cons, List.append_assoc]
    have hi' : s'.i = (pre ++ e.bytes).length + (i + 1 - (pre.length + e.bytes.length)) := by
      rw [hround.next, List.length_append]
      omega
    exact ih hlast hbytes' hi' (.inl (by omega)) hrest

end Ahead

section InStep

/-- What a round copies for an entry that is known or has a tag of two bytes. -/
def PdolEntry.copied (e : PdolEntry) : Option (List (BitVec 8)) :=
  match e.tag.known with
  | some value => value.copy e.len
  | none => some (List.replicate e.len.toNat 0)

theorem PdolEntry.copied_eq_some (hstep : e.tag.known.isSome ∨ e.tag.bytes.length = 2)
    (h : e.copied = some seg) : e.InStep ∧ seg = e.requested := by
  unfold PdolEntry.copied at h
  unfold PdolEntry.InStep PdolEntry.requested
  cases hknown : e.tag.known with
  | none =>
    rw [hknown] at h hstep
    exact ⟨hstep.resolve_left Bool.false_ne_true, (Option.some.inj h).symm⟩
  | some value =>
    rw [hknown] at h
    simp only [PdolValue.copy] at h
    split at h
    · next hle =>
      exact ⟨hle, (Option.some.inj h).symm.trans (List.take_append_of_le_length hle).symm⟩
    · cases h

theorem PdolEntry.InStep.copied_eq (h : e.InStep) : e.copied = some e.requested := by
  unfold PdolEntry.copied PdolEntry.requested
  unfold PdolEntry.InStep at h
  cases hknown : e.tag.known with
  | none => rfl
  | some value =>
    rw [hknown] at h
    simp only [PdolValue.copy]
    rw [if_pos h, List.take_append_of_le_length h]

theorem PdolEntry.InStep.known_or_two (h : e.InStep) :
    e.tag.known.isSome ∨ e.tag.bytes.length = 2 := by
  unfold PdolEntry.InStep at h
  cases hknown : e.tag.known with
  | none =>
    rw [hknown] at h
    exact .inr h
  | some value => exact .inl rfl

/-- A round at the start of an entry that is known or has a tag of two bytes takes this entry. -/
theorem pdolRound_entry (hbytes : src.bytes = pre ++ (e.bytes ++ post)) (hi : s.i = pre.length)
    (hstep : e.tag.known.isSome ∨ e.tag.bytes.length = 2) :
    pdolRound src s =
      (e.copied.bind (s.emit (pre.length + e.bytes.length - 1))).map Sum.inr := by
  have hlength := congrArg List.length hbytes
  rw [Apdu.length_bytes, List.length_append, List.length_append] at hlength
  obtain ⟨tag, len⟩ := e
  cases tag with
  | one first hone =>
    have hwidth : (PdolEntry.mk (.one first hone) len).bytes.length = 2 := rfl
    have hlt : pre.length < src.size.toNat := by omega
    have hfirst : src.data[pre.length]? = some first := getElem?_data (k := 0) hbytes rfl
    have hlen : src.data[pre.length + 1]? = some len := getElem?_data (k := 1) hbytes rfl
    have hknown := hstep.resolve_right (by decide : ¬1 = 2)
    obtain ⟨value, hvalue⟩ := Option.isSome_iff_exists.mp hknown
    have hfind : pdolFind first len = some value := (pdolFind_one hknown).trans hvalue
    have htag := setWidth_of_pdolFind_one hvalue
    have hcopied : (PdolEntry.mk (.one first hone) len).copied = value.copy len := by
      simp only [PdolEntry.copied, hvalue]
    simp only [pdolRound, hi, if_pos hlt, hfirst, hlen, hfind, if_pos htag, hcopied, hwidth,
      Option.bind_eq_bind, Option.bind_some, Option.map_bind]
    rfl
  | two first second htwo hlast =>
    have hwidth : (PdolEntry.mk (.two first second htwo hlast) len).bytes.length = 3 := rfl
    have hlt : pre.length < src.size.toNat := by omega
    have hfirst : src.data[pre.length]? = some first := getElem?_data (k := 0) hbytes rfl
    have hsecond : src.data[pre.length + 1]? = some second := getElem?_data (k := 1) hbytes rfl
    have hlen : src.data[pre.length + 2]? = some len := getElem?_data (k := 2) hbytes rfl
    have hfind : pdolFind first second = (PdolTag.two first second htwo hlast).known :=
      pdolFind_two
    cases hvalue : (PdolTag.two first second htwo hlast).known with
    | none =>
      rw [hvalue] at hfind
      have hcopied : (PdolEntry.mk (.two first second htwo hlast) len).copied =
          some (List.replicate len.toNat 0) := by
        simp only [PdolEntry.copied, hvalue]
      simp only [pdolRound, hi, if_pos hlt, hfirst, hsecond, hlen, hfind, hcopied, hwidth,
        Option.bind_eq_bind, Option.bind_some]
      rfl
    | some value =>
      rw [hvalue] at hfind
      have htag := setWidth_ne_of_pdolFind_two hvalue
      have hcopied : (PdolEntry.mk (.two first second htwo hlast) len).copied = value.copy len := by
        simp only [PdolEntry.copied, hvalue]
      simp only [pdolRound, hi, if_pos hlt, hfirst, hsecond, hlen, hfind, if_neg htag, hcopied,
        hwidth, Option.bind_eq_bind, Option.bind_some, Option.map_bind]
      rfl

theorem inStep_of_emits {b : BitVec 8}
    (hstale : ∀ k, src.size.toNat ≤ k → ∀ c, src.data[k]? = some c → c = b)
    (hlast : ∀ e' ∈ entries.getLast?, e'.len ≠ b)
    (hbytes : src.bytes = pre ++ entries.flatMap PdolEntry.bytes) (hi : s.i = pre.length)
    (h : Emits src s (entries.map PdolEntry.requested)) : ∀ e ∈ entries, e.InStep := by
  induction entries generalizing pre s with
  | nil =>
    intro e he
    cases he
  | cons e entries ih =>
    have hwidth : e.tag.bytes.length = 1 ∨ e.tag.bytes.length = 2 := by
      cases e.tag with
      | one first hone => exact .inl rfl
      | two first second htwo hlast => exact .inr rfl
    by_cases hstep : e.tag.known.isSome ∨ e.tag.bytes.length = 2
    · obtain ⟨s', i, hround, happend, hrest⟩ := h.exists_round
      rw [List.flatMap_cons] at hbytes
      rw [pdolRound_entry hbytes hi hstep, Option.map_eq_some_iff] at hround
      obtain ⟨s₁, hs, hs'⟩ := hround
      obtain rfl := Sum.inr.inj hs'
      obtain ⟨seg, hcopied, hemit⟩ := Option.bind_eq_some_iff.mp hs
      obtain ⟨hinstep, -⟩ := PdolEntry.copied_eq_some hstep hcopied
      have hpos : 0 < e.bytes.length := by
        rw [PdolEntry.bytes, List.length_append]
        exact Nat.succ_pos _
      have hi' : s₁.i = (pre ++ e.bytes).length := by
        rw [(PdolState.emit_eq_some hemit).1, List.length_append]
        omega
      have hlast' : ∀ e' ∈ entries.getLast?, e'.len ≠ b := by
        intro e' he'
        refine hlast e' ?_
        rw [List.getLast?_cons, he']
        rfl
      have hall := ih hlast' (by rw [hbytes, List.append_assoc]) hi' hrest
      exact List.forall_mem_cons.mpr ⟨hinstep, hall⟩
    · rw [not_or, Option.not_isSome_iff_eq_none] at hstep
      refine absurd h (not_emits_of_ahead (d := 0) hstale hlast hbytes hi (.inr ⟨hstep.1, ?_⟩))
      exact hwidth.resolve_right hstep.2

end InStep

section Prepared

theorem emits_of_inStep (hbytes : src.bytes = pre ++ entries.flatMap PdolEntry.bytes)
    (hi : s.i = pre.length)
    (hfits : s.dest.size.toNat + (entries.map fun e => e.len.toNat).sum ≤ 255)
    (hinstep : ∀ e ∈ entries, e.InStep) :
    ∃ n out, loop (checked (pdolRound src)) n s = some (some out) ∧
      out.emitted = s.emitted ++ entries.map PdolEntry.requested ∧
      out.dest.bytes = s.dest.bytes ++ entries.flatMap PdolEntry.requested := by
  induction entries generalizing pre s with
  | nil =>
    have hlength := congrArg List.length hbytes
    rw [Apdu.length_bytes, List.flatMap_nil, List.append_nil] at hlength
    have hleave : pdolRound src s = some (.inl s) := if_neg (by omega)
    refine ⟨1, s, loop_inl (checked_eq hleave), (List.append_nil _).symm, (List.append_nil _).symm⟩
  | cons e entries ih =>
    obtain ⟨he, hentries⟩ := List.forall_mem_cons.mp hinstep
    rw [List.flatMap_cons] at hbytes
    rw [List.map_cons, List.sum_cons] at hfits
    have hsome : (s.dest.append e.requested).isSome := by
      rw [Apdu.append_isSome, e.length_requested]
      omega
    obtain ⟨dest, hdest⟩ := Option.isSome_iff_exists.mp hsome
    obtain ⟨hsize, hdata⟩ := Apdu.append_spec hdest
    have hpos : 0 < e.bytes.length := by
      rw [PdolEntry.bytes, List.length_append]
      exact Nat.succ_pos _
    let s' : PdolState :=
      ⟨pre.length + e.bytes.length - 1 + 1, dest, s.emitted ++ [e.requested]⟩
    have hround : pdolRound src s = some (.inr s') := by
      rw [pdolRound_entry hbytes hi he.known_or_two, he.copied_eq, Option.bind_some, PdolState.emit,
        hdest]
      rfl
    have hi' : s'.i = (pre ++ e.bytes).length := by
      rw [List.length_append]
      exact Nat.sub_add_cancel (by omega)
    have hfits' : s'.dest.size.toNat + (entries.map fun e => e.len.toNat).sum ≤ 255 := by
      have hlen := e.length_requested
      simp only [s']
      omega
    obtain ⟨n, out, hloop, hemitted, hout⟩ :=
      ih (by rw [hbytes, List.append_assoc]) hi' hfits' hentries
    refine ⟨n + 1, out, (loop_inr (checked_eq hround)).trans hloop, ?_, ?_⟩
    · rw [hemitted, List.append_assoc]
      rfl
    · rw [hout, hdata, List.append_assoc, List.flatMap_cons]

/-- A list that a card can send, with as many bytes asked for as the command buffer takes. -/
structure DataObjectList where
  entries : List PdolEntry
  short : (entries.flatMap PdolEntry.bytes).length ≤ 255
  fits : (entries.map fun e => e.len.toNat).sum ≤ 255

namespace DataObjectList

def bytes (l : DataObjectList) : List (BitVec 8) := l.entries.flatMap PdolEntry.bytes

/-- The loop ends, each of its rounds appends what an entry asks for, one after another, and the
size is the sum of the lengths. -/
def Prepared (l : DataObjectList) (src : Apdu) : Prop :=
  ∃ n out, emvPreparePdol .empty src n = some (some out) ∧
    out.emitted = l.entries.map PdolEntry.requested ∧
    out.dest.bytes = l.entries.flatMap PdolEntry.requested ∧
    out.dest.size.toNat = (l.entries.map fun e => e.len.toNat).sum

/-- The list in its array, with one byte left everywhere behind it. -/
def filled (l : DataObjectList) (b : BitVec 8) : Apdu where
  size := BitVec.ofNat 8 l.bytes.length
  data := Vector.ofFn fun k => (l.bytes[k.val]?).getD b

theorem size_filled (l : DataObjectList) (b : BitVec 8) :
    (l.filled b).size.toNat = l.bytes.length :=
  Nat.mod_eq_of_lt (Nat.lt_succ_of_le l.short)

theorem data_filled (l : DataObjectList) (b : BitVec 8) {k : ℕ} (hk : k < 255) :
    (l.filled b).data[k]? = some ((l.bytes[k]?).getD b) := by
  rw [filled, Vector.getElem?_ofFn, dif_pos hk]

theorem bytes_filled (l : DataObjectList) (b : BitVec 8) : (l.filled b).bytes = l.bytes := by
  have hsize := l.size_filled b
  have hshort : l.bytes.length ≤ 255 := l.short
  refine List.ext_getElem? fun k => ?_
  by_cases hk : k < l.bytes.length
  · rw [Apdu.getElem?_bytes (by rw [hsize]; exact hk), data_filled l b (by omega),
      List.getElem?_eq_getElem hk, Option.getD_some]
  · rw [List.getElem?_eq_none (by rw [Apdu.length_bytes, hsize]; omega),
      List.getElem?_eq_none (by omega)]

theorem stale_filled (l : DataObjectList) (b : BitVec 8) (k : ℕ)
    (hk : (l.filled b).size.toNat ≤ k) (c : BitVec 8) (hc : (l.filled b).data[k]? = some c) :
    c = b := by
  rw [size_filled] at hk
  by_cases hlt : k < 255
  · rw [data_filled l b hlt, List.getElem?_eq_none hk, Option.getD_none] at hc
    exact (Option.some.inj hc).symm
  · rw [Vector.getElem?_eq_none (by omega)] at hc
    cases hc

theorem prepared_of_inStep (l : DataObjectList) (src : Apdu) (hsrc : src.bytes = l.bytes)
    (h : ∀ e ∈ l.entries, e.InStep) : l.Prepared src := by
  have hlist : src.bytes = [] ++ l.entries.flatMap PdolEntry.bytes := hsrc
  have hfits : Apdu.empty.size.toNat + (l.entries.map fun e => e.len.toNat).sum ≤ 255 := by
    have hzero : Apdu.empty.size.toNat = 0 := rfl
    rw [hzero, Nat.zero_add]
    exact l.fits
  obtain ⟨n, out, hloop, hemitted, hbytes⟩ :=
    emits_of_inStep (s := ⟨0, .empty, []⟩) hlist rfl hfits h
  refine ⟨n, out, hloop, hemitted, hbytes, ?_⟩
  have hlength : (l.entries.map PdolEntry.requested).map List.length =
      l.entries.map fun e => e.len.toNat := by
    rw [List.map_map]
    exact List.map_congr_left fun e _ => e.length_requested
  rw [← Apdu.length_bytes, hbytes, ← hlength, ← List.length_flatten, List.flatMap_def]
  rfl

theorem emvPrepareGetProcOpt_of_inStep (l : DataObjectList) (src : Apdu)
    (hsrc : src.bytes = l.bytes) (h : ∀ e ∈ l.entries, e.InStep) :
    ∃ n size, size.toNat = (l.entries.map fun e => e.len.toNat).sum ∧
      emvPrepareGetProcOpt src n = some (some ([0x80, 0xA8, 0x00, 0x00, 0x02 + size, 0x83, size] ++
        l.entries.flatMap PdolEntry.requested ++ [0])) := by
  obtain ⟨n, out, hloop, -, hbytes, hsize⟩ := l.prepared_of_inStep src hsrc h
  refine ⟨n, out.dest.size, hsize, ?_⟩
  rw [emvPrepareGetProcOpt, hloop, ← hbytes]
  rfl

end DataObjectList

end Prepared

end Rounds

/-- Every list with these bytes is prepared as it asks, whatever is left behind it in the array, if
and only if each of its tags is known and asks for no more than its value, or is unknown and has
two bytes. -/
theorem emv_prepare_pdol (l : DataObjectList) :
    (∀ src : Apdu, src.bytes = l.bytes → l.Prepared src) ↔ ∀ e ∈ l.entries, e.InStep := by
  constructor
  · intro h
    let b : BitVec 8 := ((l.entries.getLast?).elim 0 PdolEntry.len) + 1
    have hlast : ∀ e' ∈ l.entries.getLast?, e'.len ≠ b := by
      intro e' he' heq
      have hb : b = e'.len + 1 := by
        simp only [b]
        rw [Option.mem_def.mp he']
        rfl
      have hnat := congrArg BitVec.toNat (heq.trans hb)
      have hone : (1 : BitVec 8).toNat = 1 := rfl
      rw [BitVec.toNat_add, hone] at hnat
      omega
    have hlist : (l.filled b).bytes = [] ++ l.entries.flatMap PdolEntry.bytes := l.bytes_filled b
    obtain ⟨n, out, hloop, hemitted, -, -⟩ := h (l.filled b) (l.bytes_filled b)
    exact inStep_of_emits (l.stale_filled b) hlast hlist rfl ⟨n, out, hloop, hemitted⟩
  · exact fun h src hsrc => l.prepared_of_inStep src hsrc h

/-- A list with an unknown tag of one byte before a known one. -/
def unknownFirst : DataObjectList where
  entries := [⟨.one 0x8A (by decide), 1⟩, ⟨.two 0x9F 0x37 (by decide) (by decide), 4⟩]
  short := by decide
  fits := by decide

/-- The list asks for five bytes; the loop makes 159 zeros of the tag behind the unknown one. -/
theorem emv_prepare_pdol_unknown : ¬∀ (l : DataObjectList) (src : Apdu), src.bytes = l.bytes →
    l.Prepared src := by
  intro h
  obtain ⟨n, out, hloop, -, -, hsize⟩ := h unknownFirst _ (unknownFirst.bytes_filled 0)
  have hrun : (emvPreparePdol .empty (unknownFirst.filled 0) 3).map
      (fun out => out.map fun out => out.dest.size) = some (some 159) := by decide +kernel
  obtain ⟨out', hloop', hout'⟩ := Option.map_eq_some_iff.mp hrun
  obtain rfl := loop_unique hloop hloop'
  have hdest : out.dest.size = 159 := Option.some.inj hout'
  rw [hdest] at hsize
  exact absurd hsize (by decide)

end FlipperZero.Nfc
