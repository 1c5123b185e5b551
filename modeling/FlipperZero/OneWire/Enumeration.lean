import FlipperZero.OneWire.Call

/-! # Enumeration of the ROM codes on a bus

From reset counters the calls of `search` report the leaves of the bus in increasing order,
then one call fails, and the enumeration starts again. With conforming responders alone on
the bus the leaves are their ROM codes.
-/

namespace FlipperZero.OneWire

open Lib OneWireMaster

def Spans (parties : List Party) (S : Finset Rom) : Prop :=
  ∀ r : Rom, r ∈ S ↔ r.bits ∈ (trie parties).leaves

/-- A bus of these parties between two calls. -/
structure Idle (parties : List Party) (bus : Bus) : Prop where
  parties : bus.map Node.party = parties
  resting : ∀ n ∈ bus, Resting n

/-- A call that has reported the code at an index. -/
structure Found (parties : List Party) (S : Finset Rom) (i : ℕ) (c : SearchCall) : Prop where
  result : c.searchResult = true
  newAddr : S.sort[i]? = some c.newAddr
  savedRom : c.master.savedRom = c.newAddr
  lastZero : (trie parties).LastZero c.newAddr.bits c.master.lastDiscrepancy
  deviceFlag : c.master.lastDeviceFlag = decide (c.master.lastDiscrepancy = 0)
  idle : Idle parties c.bus

structure Fresh (m : OneWireMaster) : Prop where
  discrepancy : m.lastDiscrepancy = 0
  deviceFlag : m.lastDeviceFlag = false

structure Exhausted (parties : List Party) (c : SearchCall) : Prop where
  result : c.searchResult = false
  fresh : Fresh c.master
  idle : Idle parties c.bus

variable {parties : List Party} {S : Finset Rom} {m : OneWireMaster} {bus : Bus} {i : ℕ}
  {c : SearchCall} {newAddr : Rom}

theorem fresh_resetSearch (m : OneWireMaster) : Fresh m.resetSearch := ⟨rfl, rfl⟩

theorem fresh_resetCounters (m : OneWireMaster) : Fresh m.resetCounters := ⟨rfl, rfl⟩

theorem Idle.present (h : Idle parties bus) (hpres : ∃ p ∈ parties, p.Present) :
    ∃ n ∈ bus, n.party.Present := by
  obtain ⟨p, hp, hpres⟩ := hpres
  rw [← h.parties] at hp
  obtain ⟨n, hn, rfl⟩ := List.mem_map.mp hp
  exact ⟨n, hn, hpres⟩

theorem search_pass (newAddr : Rom) (hflag : m.lastDeviceFlag = false) (h : Idle parties bus)
    (hpres : ∃ p ∈ parties, p.Present) :
    ∃ (m' : OneWireMaster) (bus' : Bus),
      (trie parties).Pass m.savedRom.bits m.lastDiscrepancy m'.savedRom.bits ∧
      (trie parties).LastZero m'.savedRom.bits m'.lastDiscrepancy ∧
      m'.lastDeviceFlag = decide (m'.lastDiscrepancy = 0) ∧ Idle parties bus' ∧
      m.search newAddr true bus = some (m'.finishSearch newAddr true bus') := by
  obtain ⟨m', bus', hpass, hlast, hflag', hparty, hrest, hcall⟩ :=
    search_eq newAddr hflag h.resting (h.present hpres)
  rw [h.parties] at hpass hlast
  exact ⟨m', bus', hpass, hlast, hflag', ⟨hparty.trans h.parties, hrest⟩, hcall⟩

theorem finishSearch_found {m' : OneWireMaster} (hbyte : m'.savedRom.byte 0 ≠ 0)
    (hget : S.sort[i]? = some m'.savedRom)
    (hlast : (trie parties).LastZero m'.savedRom.bits m'.lastDiscrepancy)
    (hflag : m'.lastDeviceFlag = decide (m'.lastDiscrepancy = 0)) (h : Idle parties bus) :
    Found parties S i (m'.finishSearch newAddr true bus) := by
  have hfinish : m'.finishSearch newAddr true bus = ⟨true, m'.savedRom, m', bus⟩ :=
    if_neg (by rintro (h | h) <;> [cases h; exact hbyte h])
  rw [hfinish]
  exact ⟨rfl, hget, rfl, hlast, hflag, h⟩

theorem Found.mem (hspan : Spans parties S) (h : Found parties S i c) :
    c.newAddr.bits ∈ (trie parties).leaves := by
  obtain ⟨hlen, hget⟩ := List.getElem?_eq_some_iff.mp h.newAddr
  exact (hspan _).mp ((Finset.mem_sort (· ≤ ·)).mp (hget ▸ List.getElem_mem hlen))

theorem Found.last (hspan : Spans parties S) (hpres : ∃ p ∈ parties, p.Present)
    (h : Found parties S i c) (hi : i + 1 = S.card) :
    ∃ c', c.master.search c.newAddr true c.bus = some c' ∧ Exhausted parties c' := by
  have hleaf := h.mem hspan
  have hzero : c.master.lastDiscrepancy = 0 := by
    by_contra hne
    obtain ⟨m', bus', hpass, -⟩ :=
      search_pass c.newAddr (h.deviceFlag.trans (decide_eq_false hne)) h.idle hpres
    rw [h.savedRom] at hpass
    obtain ⟨hlt, hleast⟩ := hpass.next hleaf h.lastZero hne
    have hget : S.sort[i + 1]? = some m'.savedRom :=
      sort_getElem?_succ h.newAddr ((hspan _).mpr hpass.leaf) hlt fun r hr hr' =>
        hleast _ ((hspan r).mp hr) hr'
    obtain ⟨hlen, -⟩ := List.getElem?_eq_some_iff.mp hget
    rw [Finset.length_sort] at hlen
    omega
  have hflag : c.master.lastDeviceFlag = true := h.deviceFlag.trans (decide_eq_true hzero)
  have hcall : c.master.search c.newAddr true c.bus =
      some (c.master.finishSearch c.newAddr false c.bus) := if_pos hflag
  exact ⟨_, hcall, rfl, fresh_resetCounters _, h.idle⟩

section Spans

variable (hspan : Spans parties S) (hpres : ∃ p ∈ parties, p.Present)
  (hbyte : ∀ r ∈ S, r.byte 0 ≠ 0)

include hspan hpres hbyte

theorem Fresh.found (hm : Fresh m) (h : Idle parties bus) :
    ∃ c, m.search newAddr true bus = some c ∧ Found parties S 0 c := by
  obtain ⟨m', bus', hpass, hlast, hflag, hidle, hcall⟩ := search_pass newAddr hm.deviceFlag h hpres
  rw [hm.discrepancy] at hpass
  have hmem : m'.savedRom ∈ S := (hspan _).mpr hpass.leaf
  have hget : S.sort[0]? = some m'.savedRom :=
    sort_getElem?_zero hmem fun r hr => hpass.least ((hspan r).mp hr)
  exact ⟨_, hcall, finishSearch_found (hbyte _ hmem) hget hlast hflag hidle⟩

theorem Found.next (h : Found parties S i c) (hi : i + 1 < S.card) :
    ∃ c', c.master.search c.newAddr true c.bus = some c' ∧ Found parties S (i + 1) c' := by
  have hleaf := h.mem hspan
  have hne : c.master.lastDiscrepancy ≠ 0 := fun hz => by
    have hlast := h.lastZero
    rw [hz] at hlast
    have := sort_last h.newAddr fun r hr => hlast.greatest hleaf ((hspan r).mp hr)
    omega
  obtain ⟨m', bus', hpass, hlast, hflag, hidle, hcall⟩ :=
    search_pass c.newAddr (h.deviceFlag.trans (decide_eq_false hne)) h.idle hpres
  rw [h.savedRom] at hpass
  obtain ⟨hlt, hleast⟩ := hpass.next hleaf h.lastZero hne
  have hmem : m'.savedRom ∈ S := (hspan _).mpr hpass.leaf
  have hget : S.sort[i + 1]? = some m'.savedRom :=
    sort_getElem?_succ h.newAddr hmem hlt fun r hr hr' => hleast _ ((hspan r).mp hr) hr'
  exact ⟨_, hcall, finishSearch_found (hbyte _ hmem) hget hlast hflag hidle⟩

/-- Call `n` reports the code at index `n` modulo one more than their number, or fails. -/
theorem searches_enumerate (hne : S.Nonempty) (h : Idle parties bus) (m : OneWireMaster)
    (newAddr : Rom) (n : ℕ) :
    ∃ c, m.searches newAddr bus n = some c ∧
      (n % (S.card + 1) < S.card ∧ Found parties S (n % (S.card + 1)) c ∨
        n % (S.card + 1) = S.card ∧ Exhausted parties c) := by
  have hcard : 0 < S.card := Finset.card_pos.mpr hne
  induction n with
  | zero =>
    obtain ⟨c, hc, hfound⟩ := (fresh_resetSearch m).found hspan hpres hbyte h
    exact ⟨c, hc, .inl ⟨hcard, hfound⟩⟩
  | succ n ih =>
    obtain ⟨c, hc, hlast⟩ := ih
    have hsearch : ∀ c', c.master.search c.newAddr true c.bus = some c' →
        m.searches newAddr bus (n + 1) = some c' := fun c' hc' => by
      rw [searches, hc]
      exact hc'
    have hmod : (n + 1) % (S.card + 1) = (n % (S.card + 1) + 1) % (S.card + 1) :=
      (Nat.mod_add_mod _ _ _).symm
    rw [hmod]
    rcases hlast with ⟨hlt, hfound⟩ | ⟨heq, hexh⟩
    · rw [Nat.mod_eq_of_lt (Nat.succ_lt_succ hlt)]
      rcases Nat.lt_or_eq_of_le (Nat.succ_le_of_lt hlt) with hlt' | heq
      · obtain ⟨c', hc', hnext⟩ := hfound.next hspan hpres hbyte hlt'
        exact ⟨c', hsearch c' hc', .inl ⟨hlt', hnext⟩⟩
      · obtain ⟨c', hc', hend⟩ := hfound.last hspan hpres heq
        exact ⟨c', hsearch c' hc', .inr ⟨heq, hend⟩⟩
    · rw [heq, Nat.mod_self]
      obtain ⟨c', hc', hfirst⟩ := hexh.fresh.found hspan hpres hbyte hexh.idle
      exact ⟨c', hsearch c' hc', .inl ⟨hcard, hfirst⟩⟩

end Spans

section Responders

variable (rs : List Responder)

/-- A path on which every bit belongs to a responder that agrees with it so far is the code of one. -/
theorem leaves_responders (w : Word 64) :
    w ∈ (trie (rs.map .responder)).leaves ↔ ∃ r ∈ rs, r.rom.bits = w := by
  constructor
  · intro hleaf
    obtain ⟨p, hp, hc⟩ := hleaf ⟨63, by decide⟩
    obtain ⟨r, hr, rfl⟩ := List.mem_map.mp hp
    refine ⟨r, hr, funext fun j => ?_⟩
    rcases Nat.lt_or_ge j 63 with hlt | hge
    · exact hc.1 j hlt
    · have hj : j = ⟨63, by decide⟩ := Fin.ext (by simp only; omega)
      exact hj ▸ hc.2
  · rintro ⟨r, hr, rfl⟩ k
    exact ⟨_, List.mem_map_of_mem hr, fun _ _ => rfl, rfl⟩

variable {rs} in
theorem spans_responders {S : Finset Rom} (hS : ∀ r, r ∈ S ↔ ∃ d ∈ rs, d.rom = r) :
    Spans (rs.map .responder) S := by
  intro r
  rw [hS, leaves_responders]
  exact exists_congr fun d => and_congr_right fun _ => Rom.bits_injective.eq_iff.symm

variable {rs} in
theorem idle_responders {bus : Bus} (hbus : bus.map Node.party = rs.map .responder) :
    Idle (rs.map .responder) bus := by
  refine ⟨hbus, fun n hn => ?_⟩
  have hparty : n.party ∈ rs.map Party.responder := hbus ▸ List.mem_map_of_mem hn
  obtain ⟨r, -, hr⟩ := List.mem_map.mp hparty
  rw [Resting, ← hr]
  trivial

/-- With responders alone on the bus the calls report exactly their codes, in increasing order of
the bits as sent; the next call fails and the one after it begins again. -/
theorem search_enumerates (S : Finset Rom) (hS : ∀ r, r ∈ S ↔ ∃ d ∈ rs, d.rom = r)
    (hne : S.Nonempty) (hbyte : ∀ r ∈ S, r.byte 0 ≠ 0) (m : OneWireMaster) (newAddr : Rom)
    (bus : Bus) (hbus : bus.map Node.party = rs.map .responder) (n : ℕ) :
    ∃ c, m.searches newAddr bus n = some c ∧
      (n % (S.card + 1) < S.card →
        c.searchResult = true ∧ S.sort[n % (S.card + 1)]? = some c.newAddr) ∧
      (n % (S.card + 1) = S.card → c.searchResult = false) := by
  obtain ⟨r, hr⟩ := hne
  obtain ⟨d, hd, rfl⟩ := (hS r).mp hr
  obtain ⟨c, hc, hcase⟩ := searches_enumerate (spans_responders hS)
    ⟨_, List.mem_map_of_mem hd, trivial⟩ hbyte ⟨_, hr⟩ (idle_responders hbus) m newAddr n
  refine ⟨c, hc, ?_⟩
  rcases hcase with ⟨hlt, hfound⟩ | ⟨heq, hexh⟩
  · exact ⟨fun _ => ⟨hfound.result, hfound.newAddr⟩, fun heq => absurd heq hlt.ne⟩
  · exact ⟨fun hlt => absurd heq hlt.ne, fun _ => hexh.result⟩

def Responder.typical (rom : Rom) : Responder where
  rom := rom
  pull := 30
  sample := 30
  presenceStart := 30
  presenceLength := 120
  pull_window := by decide
  sample_window := by decide
  presenceStart_window := by decide
  presenceLength_window := by decide

def thermometerRom : Rom := ⟨#v[0x28, 0xFF, 0x64, 0x1E, 0x81, 0x16, 0x03, 0x9C]⟩

def ibuttonRom : Rom := ⟨#v[0x01, 0xA4, 0x5B, 0x00, 0x17, 0x00, 0x00, 0x2D]⟩

theorem search_enumerates_pair :
    ∃ c, (⟨ibuttonRom, 64, 0, true⟩ : OneWireMaster).searches ibuttonRom
      [(Party.responder (.typical thermometerRom)).idle, (Party.responder (.typical ibuttonRom)).idle]
      2 = some c ∧ c.searchResult = false := by
  have hcard : ({thermometerRom, ibuttonRom} : Finset Rom).card = 2 := by decide
  obtain ⟨c, hc, -, hlast⟩ := search_enumerates [.typical thermometerRom, .typical ibuttonRom]
    {thermometerRom, ibuttonRom} (by simp [Responder.typical, eq_comm]) ⟨ibuttonRom, by decide⟩
    (by decide) ⟨ibuttonRom, 64, 0, true⟩ ibuttonRom
    [(Party.responder (.typical thermometerRom)).idle, (Party.responder (.typical ibuttonRom)).idle]
    rfl 2
  exact ⟨c, hc, hlast (by rw [hcard])⟩

end Responders

end FlipperZero.OneWire
