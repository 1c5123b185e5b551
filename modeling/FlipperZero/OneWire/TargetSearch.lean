import FlipperZero.Firmware.KeyReader
import FlipperZero.OneWire.Enumeration

/-! # The search for a family

`target_search` pretends that the last code was the family code with zeros behind it, and that its
last discrepancy was at bit 64. A pass from there follows the family code as long as some device
does, and takes zeros below it. At bit 64 it would take a one, but the checksum leaves no branch
there.
-/

namespace FlipperZero.OneWire

open Lib OneWireMaster Firmware

namespace OneWireMaster

def targetSearch (m : OneWireMaster) (familyCode : BitVec 8) : OneWireMaster :=
  { m with
    savedRom := ⟨#v[familyCode, 0, 0, 0, 0, 0, 0, 0]⟩
    lastDiscrepancy := 64
    lastFamilyDiscrepancy := 0
    lastDeviceFlag := false }

/-- The calls of `search` one after another, from `target_search` on. -/
def targetSearches (m : OneWireMaster) (newAddr : Rom) (familyCode : BitVec 8) (bus : Bus) :
    ℕ → Option SearchCall
  | 0 => (m.targetSearch familyCode).search newAddr true bus
  | n + 1 =>
    (targetSearches m newAddr familyCode bus n).bind fun c =>
      c.master.search c.newAddr true c.bus

end OneWireMaster

/-- A code of a device: the search takes a family code of zero for no device, and the last byte is
the checksum of the others. -/
structure Rom.Valid (r : Rom) : Prop where
  family : r.byte 0 ≠ 0
  crc : maximCrc8 (r.bytes.toList.take 7) = r.byte 7

def family (S : Finset Rom) (familyCode : BitVec 8) : Finset Rom :=
  {r ∈ S | r.byte 0 = familyCode}

variable {r r' : Rom} {f : BitVec 8} {m : OneWireMaster} {k : Fin 64}

theorem mem_family {S : Finset Rom} : r ∈ family S f ↔ r ∈ S ∧ r.byte 0 = f :=
  Finset.mem_filter

theorem byte_eq_of_bits {i : ℕ} (hi : i < 8)
    (h : ∀ k : Fin 64, (k : ℕ) / 8 = i → r.bits k = r'.bits k) : r.byte i = r'.byte i := by
  refine BitVec.eq_of_getLsbD_eq fun j hj => ?_
  have hdiv : (8 * i + j) / 8 = i := by omega
  have hmod : (8 * i + j) % 8 = j := by omega
  simpa only [Rom.bits, hdiv, hmod] using h ⟨8 * i + j, by omega⟩ hdiv

theorem Rom.Valid.eq (h : r.Valid) (h' : r'.Valid)
    (hbits : ∀ k : Fin 64, (k : ℕ) < 63 → r.bits k = r'.bits k) : r = r' := by
  have hbyte {i : ℕ} (hi : i < 7) : r.byte i = r'.byte i :=
    byte_eq_of_bits (by omega) fun k hk => hbits k (by omega)
  have htake : r.bytes.toList.take 7 = r'.bytes.toList.take 7 := by
    refine List.ext_getElem (by simp) fun i hi hi' => ?_
    have hlt : i < 7 := by
      rw [List.length_take] at hi
      omega
    have heq := hbyte hlt
    rw [Rom.byte, Rom.byte, Vector.getElem?_eq_getElem (by omega),
      Vector.getElem?_eq_getElem (by omega), Option.getD_some, Option.getD_some] at heq
    rw [List.getElem_take, List.getElem_take, Vector.getElem_toList, Vector.getElem_toList, heq]
  have hlast : r.byte 7 = r'.byte 7 := by rw [← h.crc, ← h'.crc, htake]
  apply Rom.bits_injective
  ext k
  rcases Nat.lt_or_ge k 63 with hk | hk
  · exact hbits k hk
  · have hdiv : (k : ℕ) / 8 = 7 := by omega
    simp only [Rom.bits, hdiv, hlast]

theorem bits_targetSearch (hk : (k : ℕ) < 8) :
    (m.targetSearch f).savedRom.bits k = f.getLsbD k := by
  have hdiv : (k : ℕ) / 8 = 0 := Nat.div_eq_of_lt hk
  have hmod : (k : ℕ) % 8 = k := Nat.mod_eq_of_lt hk
  simp only [Rom.bits, hdiv, hmod]
  rfl

theorem bits_targetSearch_zero (hk : 8 ≤ (k : ℕ)) :
    (m.targetSearch f).savedRom.bits k = false := by
  have hbyte : ∀ i, (m.targetSearch f).savedRom.byte (i + 1) = 0 := by
    rintro (_ | _ | _ | _ | _ | _ | _ | i)
    all_goals rfl
  obtain ⟨i, hi⟩ : ∃ i, (k : ℕ) / 8 = i + 1 := Nat.exists_eq_add_of_le' (by omega)
  simp only [Rom.bits, hi, hbyte i]
  exact BitVec.getLsbD_zero

theorem byte_zero_eq_iff :
    r.byte 0 = f ↔ ∀ k : Fin 64, (k : ℕ) < 8 → r.bits k = (m.targetSearch f).savedRom.bits k := by
  rw [Rom.byte_zero_eq_iff]
  exact forall₂_congr fun k hk => by rw [bits_targetSearch hk]

section Responders

variable {rs : List Responder} {S : Finset Rom} {bus : Bus} {c : SearchCall} {newAddr : Rom} {i : ℕ}

theorem not_branches_last (hvalid : ∀ d ∈ rs, d.rom.Valid) (hk : (k : ℕ) + 1 = 64) (w : Word 64) :
    ¬(trie (rs.map .responder)).Branches k w := by
  rintro ⟨⟨p, hp, hchild⟩, q, hq, hchild'⟩
  obtain ⟨d, hd, rfl⟩ := List.mem_map.mp hp
  obtain ⟨d', hd', rfl⟩ := List.mem_map.mp hq
  obtain ⟨hpre, hbit⟩ := hchild
  obtain ⟨hpre', hbit'⟩ := hchild'
  have heq : d.rom = d'.rom := by
    apply (hvalid d hd).eq (hvalid d' hd')
    intro j hj
    have hjk : j < k := Fin.lt_def.mpr (by omega)
    rw [hpre j hjk, hpre' j hjk]
  rw [heq, hbit'] at hbit
  cases hbit

variable (hS : ∀ r, r ∈ S ↔ ∃ d ∈ rs, d.rom = r) (hvalid : ∀ r ∈ S, r.Valid)

include hS hvalid

theorem targetSearch_found (m : OneWireMaster) (newAddr : Rom) (h : Idle (rs.map .responder) bus)
    (hr : r ∈ family S f) :
    ∃ c, (m.targetSearch f).search newAddr true bus = some c ∧
      Found (rs.map .responder) (family S f) 0 c := by
  obtain ⟨hmem, hfamily⟩ := mem_family.mp hr
  obtain ⟨d, hd, rfl⟩ := (hS r).mp hmem
  have hspan := spans_responders hS
  have hprefix := byte_zero_eq_iff (m := m).mp hfamily
  obtain ⟨m', bus', hpass, hlast, hflag, hidle, hcall⟩ :=
    search_pass (m := m.targetSearch f) newAddr rfl h ⟨_, List.mem_map_of_mem hd, trivial⟩
  have hfollow : ∀ k : Fin 64, (k : ℕ) < 8 →
      m'.savedRom.bits k = (m.targetSearch f).savedRom.bits k := fun k hk =>
    hpass.follow ((hspan _).mp hmem) hprefix (by decide : 8 < 64) hk
  have hbyte : m'.savedRom.byte 0 = f := byte_zero_eq_iff.mpr hfollow
  have hmem' : m'.savedRom ∈ family S f := mem_family.mpr ⟨(hspan _).mpr hpass.leaf, hbyte⟩
  have hget : (family S f).sort[0]? = some m'.savedRom := by
    apply sort_getElem?_zero hmem'
    intro r' hr'
    obtain ⟨hr', hfamily'⟩ := mem_family.mp hr'
    apply hpass.least_of_prefix (m := 8) (fun j hj => bits_targetSearch_zero hj)
    · exact fun j hj => not_branches_last (fun d hd => hvalid _ ((hS _).mpr ⟨d, hd, rfl⟩)) hj _
    · exact (hspan _).mp hr'
    · intro j hj
      rw [hfollow j hj]
      exact byte_zero_eq_iff.mp hfamily' j hj
  refine ⟨_, hcall, finishSearch_found ?_ hget hlast hflag hidle⟩
  rw [hbyte, ← hfamily]
  exact (hvalid _ hmem).family

theorem Found.next_family (h : Found (rs.map .responder) (family S f) i c)
    (hi : i + 1 < (family S f).card) :
    ∃ c', c.master.search c.newAddr true c.bus = some c' ∧
      Found (rs.map .responder) (family S f) (i + 1) c' := by
  have hspan := spans_responders hS
  obtain ⟨hlen, hget⟩ := List.getElem?_eq_some_iff.mp h.newAddr
  have hmem : c.newAddr ∈ family S f :=
    (Finset.mem_sort (· ≤ ·)).mp (hget ▸ List.getElem_mem hlen)
  obtain ⟨hmem', hfamily⟩ := mem_family.mp hmem
  have hleaf := (hspan _).mp hmem'
  obtain ⟨d, hd, hrom⟩ := (hS _).mp hmem'
  obtain ⟨u, hu, hlt⟩ : ∃ u ∈ family S f, c.newAddr < u := by
    by_contra hnone
    have := sort_last h.newAddr fun r hr => not_lt.mp fun hlt => hnone ⟨r, hr, hlt⟩
    omega
  obtain ⟨hu', hfamilyu⟩ := mem_family.mp hu
  have hne : c.master.lastDiscrepancy ≠ 0 := by
    intro hz
    have hlast := h.lastZero
    rw [hz] at hlast
    exact absurd (hlast.greatest hleaf ((hspan u).mp hu')) (not_le.mpr hlt)
  obtain ⟨m', bus', hpass, hlast, hflag, hidle, hcall⟩ :=
    search_pass c.newAddr (h.deviceFlag.trans (decide_eq_false hne)) h.idle
      ⟨_, List.mem_map_of_mem hd, trivial⟩
  rw [h.savedRom] at hpass
  obtain ⟨hgt, hleast⟩ := hpass.next hleaf h.lastZero hne
  have hbyte : m'.savedRom.byte 0 = f := by
    rw [byte_zero_eq_iff (m := c.master)] at hfamily hfamilyu ⊢
    intro k hk
    rw [← hfamily k hk]
    apply agree_of_between hgt.le (hleast _ ((hspan u).mp hu') hlt) (fun j hj => ?_) hk
    rw [hfamily j hj, hfamilyu j hj]
  have hmemnext : m'.savedRom ∈ family S f := mem_family.mpr ⟨(hspan _).mpr hpass.leaf, hbyte⟩
  have hgetnext : (family S f).sort[i + 1]? = some m'.savedRom :=
    sort_getElem?_succ h.newAddr hmemnext hgt fun r hr hlt =>
      hleast _ ((hspan r).mp (mem_family.mp hr).1) hlt
  refine ⟨_, hcall, finishSearch_found ?_ hgetnext hlast hflag hidle⟩
  rw [hbyte, ← hfamily]
  exact (hvalid _ hmem').family

theorem targetSearches_found (m : OneWireMaster) (newAddr : Rom)
    (h : Idle (rs.map .responder) bus) {n : ℕ} (hn : n < (family S f).card) :
    ∃ c, m.targetSearches newAddr f bus n = some c ∧
      Found (rs.map .responder) (family S f) n c := by
  induction n with
  | zero =>
    obtain ⟨r, hr⟩ := Finset.card_pos.mp hn
    exact targetSearch_found hS hvalid m newAddr h hr
  | succ n ih =>
    obtain ⟨c, hc, hfound⟩ := ih (Nat.lt_of_succ_lt hn)
    obtain ⟨c', hc', hnext⟩ := hfound.next_family hS hvalid hn
    refine ⟨c', ?_, hnext⟩
    rw [targetSearches, hc]
    exact hc'

theorem targetSearch_sound (m : OneWireMaster) (newAddr : Rom)
    (h : Idle (rs.map .responder) bus) :
    ∃ c, (m.targetSearch f).search newAddr true bus = some c ∧
      (c.searchResult = true → c.newAddr ∈ S) ∧ (c.searchResult = false → c.newAddr = newAddr) := by
  rcases hrs : rs with _ | ⟨d, rs'⟩
  · subst hrs
    obtain rfl : bus = [] := List.map_eq_nil_iff.mp h.parties
    exact ⟨⟨false, newAddr, (m.targetSearch f).resetCounters, []⟩, rfl, nofun, fun _ => rfl⟩
  · obtain ⟨m', bus', hpass, -, -, -, hcall⟩ := search_pass (m := m.targetSearch f) newAddr rfl h
      ⟨.responder d, by rw [hrs]; exact List.mem_cons_self .., trivial⟩
    have hmem : m'.savedRom ∈ S := (spans_responders hS _).mpr hpass.leaf
    have hbyte : m'.savedRom.byte 0 ≠ 0 := (hvalid _ hmem).family
    have hfinish : m'.finishSearch newAddr true bus' = ⟨true, m'.savedRom, m', bus'⟩ :=
      if_neg (by rintro (h | h) <;> [cases h; exact hbyte h])
    rw [hfinish] at hcall
    exact ⟨_, hcall, fun _ => hmem, nofun⟩

end Responders

/-- After `target_search` the calls report the codes of the family first, in increasing order of
the bits as sent; without one, the first call reports none of the family. -/
theorem target_search_enumerates (rs : List Responder) (S : Finset Rom)
    (hS : ∀ r, r ∈ S ↔ ∃ d ∈ rs, d.rom = r) (hvalid : ∀ r ∈ S, r.Valid) (m : OneWireMaster)
    (newAddr : Rom) (bus : Bus) (hbus : bus.map Node.party = rs.map .responder) (f : BitVec 8) :
    ((∃ r ∈ S, r.byte 0 = f) → ∀ n < (family S f).card,
      ∃ c, m.targetSearches newAddr f bus n = some c ∧ c.searchResult = true ∧
        (family S f).sort[n]? = some c.newAddr) ∧
    ((∀ r ∈ S, r.byte 0 ≠ f) →
      ∃ c, m.targetSearches newAddr f bus 0 = some c ∧
        (c.searchResult = true → c.newAddr.byte 0 ≠ f) ∧
        (c.searchResult = false → c.newAddr = newAddr)) := by
  have hidle := idle_responders hbus
  constructor
  · intro _ n hn
    obtain ⟨c, hc, hfound⟩ := targetSearches_found hS hvalid m newAddr hidle hn
    exact ⟨c, hc, hfound.result, hfound.newAddr⟩
  · intro hnone
    obtain ⟨c, hc, hmem, hkeep⟩ := targetSearch_sound hS hvalid m newAddr hidle
    exact ⟨c, hc, fun h => hnone _ (hmem h), hkeep⟩

def sensorRom : Rom := ⟨#v[0x28, 0xFF, 0x64, 0x1E, 0x81, 0x16, 0x03, 0x06]⟩

def keyRom : Rom := ⟨#v[0x01, 0xA4, 0x5B, 0x00, 0x17, 0x00, 0x00, 0x68]⟩

theorem valid_sensorRom : sensorRom.Valid := ⟨by decide, by decide +kernel⟩

theorem valid_keyRom : keyRom.Valid := ⟨by decide, by decide +kernel⟩

theorem target_search_enumerates_sensor :
    ∃ c, (⟨keyRom, 0, 0, true⟩ : OneWireMaster).targetSearches keyRom 0x28
      [(Party.responder (.typical sensorRom)).idle, (Party.responder (.typical keyRom)).idle] 0 =
      some c ∧ c.searchResult = true := by
  have hvalid : ∀ r ∈ ({sensorRom, keyRom} : Finset Rom), r.Valid := by
    intro r hr
    rcases Finset.mem_insert.mp hr with rfl | hr
    · exact valid_sensorRom
    · exact Finset.mem_singleton.mp hr ▸ valid_keyRom
  obtain ⟨hfamily, -⟩ := target_search_enumerates [.typical sensorRom, .typical keyRom]
    {sensorRom, keyRom} (by simp [Responder.typical, eq_comm]) hvalid ⟨keyRom, 0, 0, true⟩ keyRom
    [(Party.responder (.typical sensorRom)).idle, (Party.responder (.typical keyRom)).idle] rfl 0x28
  obtain ⟨c, hc, hresult, -⟩ := hfamily ⟨sensorRom, by decide⟩ 0 (by decide)
  exact ⟨c, hc, hresult⟩

end FlipperZero.OneWire
