import FlipperZero.OneWire.Enumeration

/-! # Searching a bus with an emulated slave on it

`cmd_search_rom` receives the direction bit and goes on whatever it is, so the emulated
slave answers through the whole pass. The master then meets every code that follows some
code of the bus for a while and the slave's own from there on.
-/

namespace FlipperZero.OneWire

open Lib OneWireMaster

/-- The first `k` bits of one word, followed by another. -/
def splice (u s : Word 64) (k : ℕ) : Word 64 := fun j => if j < k then u j else s j

/-- Every code that starts like one of `S` and goes on like the slave's is in `S`. -/
def SpliceClosed (s : Rom) (S : Finset Rom) : Prop :=
  ∀ u ∈ S, ∀ k, ∀ t : Rom, t.bits = splice u.bits s.bits k → t ∈ S

/-- The calls report every code of `S` once, and then one fails. -/
def Enumerates (calls : ℕ → Option SearchCall) (S : Finset Rom) : Prop :=
  ∃ roms : List Rom, roms.Nodup ∧ (∀ r, r ∈ roms ↔ r ∈ S) ∧
    (∀ i r, roms[i]? = some r → ∃ c, calls i = some c ∧ c.searchResult = true ∧ c.newAddr = r) ∧
    ∃ c, calls roms.length = some c ∧ c.searchResult = false

/-- The bus in a pass after the master has written these directions. -/
def passBus (bus : Bus) (directions : List Bool) : Bus :=
  directions.foldl (fun bus direction => bus.readBit.2.readBit.2.writeBit direction)
    (bus.reset.2.write 0xF0)

/-- The bus before call `n`. -/
def busBefore (m : OneWireMaster) (newAddr : Rom) (bus : Bus) : ℕ → Option Bus
  | 0 => some bus
  | n + 1 => (m.searches newAddr bus n).map SearchCall.bus

/-- In the pass of every call that reports a code, the slave `s` never holds the line again once
the master has written a direction other than its bit. -/
def Withdraws (m : OneWireMaster) (newAddr : Rom) (bus : Bus) (s : Rom) : Prop :=
  ∀ n bus₀ c, busBefore m newAddr bus n = some bus₀ → m.searches newAddr bus n = some c →
    c.searchResult = true → ∀ k : Fin 64, c.newAddr.bits k ≠ s.bits k →
      ∀ node ∈ passBus bus₀ (c.newAddr.key.take (k + 1)), node.party = .slave ⟨some s⟩ →
        node.proc.Silent

instance : Finite Rom := Finite.of_injective Rom.bits Rom.bits_injective

noncomputable def leafRoms (parties : List Party) : Finset Rom :=
  (Set.toFinite {r : Rom | r.bits ∈ (trie parties).leaves}).toFinset

theorem spans_leafRoms (parties : List Party) : Spans parties (leafRoms parties) := fun _ =>
  Set.Finite.mem_toFinset _

section Calls

variable {parties : List Party} {S E : Finset Rom} {bus : Bus} (m : OneWireMaster) (newAddr : Rom)

variable (hspan : Spans parties E) (hpres : ∃ p ∈ parties, p.Present) (h : Idle parties bus)

include hspan hpres h

theorem searches_zero_fails {e : Rom} (he : e ∈ E) (hzero : e.byte 0 = 0) :
    ∃ c, m.searches newAddr bus 0 = some c ∧ c.searchResult = false := by
  obtain ⟨m', bus', hpass, -, -, -, hcall⟩ :=
    search_pass newAddr (fresh_resetSearch m).deviceFlag h hpres
  have hle : toLex m'.savedRom.bits ≤ toLex e.bits := Trie.Pass.least hpass ((hspan e).mp he)
  rw [Rom.byte_zero_eq_zero_iff] at hzero
  have hsaved : m'.savedRom.byte 0 = 0 := by
    rw [Rom.byte_zero_eq_zero_iff]
    intro k hk
    rcases hle.lt_or_eq with hlt | heq
    · obtain ⟨j, hpre, -, hej⟩ := toLex_lt_iff.mp hlt
      have hj : ¬(j : ℕ) < 8 := fun hj => by
        rw [hzero j hj] at hej
        cases hej
      have hkj : k < j := by
        have : (k : ℕ) < 8 := hk
        exact Fin.lt_def.mpr (by omega)
      exact (hpre k hkj).trans (hzero k hk)
    · rw [toLex.injective heq]
      exact hzero k hk
  exact ⟨_, hcall, by rw [finishSearch, if_pos (.inr hsaved)]⟩

theorem enumerates_iff_eq (hbyte : ∀ r ∈ E, r.byte 0 ≠ 0) (hne : E.Nonempty) :
    Enumerates (m.searches newAddr bus) S ↔ S = E := by
  have hcalls := searches_enumerate hspan hpres hbyte hne h m newAddr
  have hfound : ∀ i < E.card, ∃ c, m.searches newAddr bus i = some c ∧ Found parties E i c := by
    intro i hi
    obtain ⟨c, hc, hcase⟩ := hcalls i
    rw [Nat.mod_eq_of_lt (Nat.lt_succ_of_lt hi)] at hcase
    rcases hcase with ⟨-, hf⟩ | ⟨heq, -⟩
    · exact ⟨c, hc, hf⟩
    · exact absurd heq hi.ne
  have hend : ∃ c, m.searches newAddr bus E.card = some c ∧ c.searchResult = false := by
    obtain ⟨c, hc, hcase⟩ := hcalls E.card
    rw [Nat.mod_eq_of_lt (Nat.lt_succ_self _)] at hcase
    rcases hcase with ⟨hlt, -⟩ | ⟨-, hexh⟩
    · exact absurd hlt (lt_irrefl _)
    · exact ⟨c, hc, hexh.result⟩
  constructor
  · rintro ⟨roms, -, hmem, hget, cl, hcl, hfail⟩
    have hlen : roms.length = E.card := by
      rcases lt_trichotomy roms.length E.card with hlt | heq | hgt
      · obtain ⟨c, hc, hf⟩ := hfound _ hlt
        cases hc.symm.trans hcl
        rw [hf.result] at hfail
        cases hfail
      · exact heq
      · obtain ⟨c, hc, hres⟩ := hend
        obtain ⟨c', hc', hres', -⟩ := hget E.card _ (List.getElem?_eq_getElem hgt)
        cases hc.symm.trans hc'
        rw [hres] at hres'
        cases hres'
    have hroms : roms = E.sort := by
      refine List.ext_getElem? fun i => ?_
      rcases Nat.lt_or_ge i roms.length with hi | hi
      · obtain ⟨c, hc, hf⟩ := hfound i (hlen ▸ hi)
        obtain ⟨c', hc', -, haddr⟩ := hget i _ (List.getElem?_eq_getElem hi)
        cases hc.symm.trans hc'
        rw [hf.newAddr, haddr, List.getElem?_eq_getElem hi]
      · have hi' : E.sort.length ≤ i := by
          rw [Finset.length_sort]
          omega
        rw [List.getElem?_eq_none hi, List.getElem?_eq_none hi']
    ext r
    rw [← hmem, hroms, Finset.mem_sort]
  · rintro rfl
    refine ⟨S.sort, Finset.sort_nodup _ _, fun r => Finset.mem_sort _, fun i r hr => ?_, ?_⟩
    · obtain ⟨hlen, -⟩ := List.getElem?_eq_some_iff.mp hr
      rw [Finset.length_sort] at hlen
      obtain ⟨c, hc, hf⟩ := hfound i hlen
      exact ⟨c, hc, hf.result, Option.some.inj (hf.newAddr.symm.trans hr)⟩
    · rw [Finset.length_sort]
      exact hend

theorem enumerates_iff_leaves (hne : S.Nonempty) (hsub : S ⊆ E) :
    Enumerates (m.searches newAddr bus) S ↔ S = E ∧ ∀ r ∈ S, r.byte 0 ≠ 0 := by
  by_cases hbyte : ∀ r ∈ E, r.byte 0 ≠ 0
  · rw [enumerates_iff_eq m newAddr hspan hpres h hbyte (hne.mono hsub)]
    exact ⟨fun heq => ⟨heq, fun r hr => hbyte r (hsub hr)⟩, fun heq => heq.1⟩
  · push Not at hbyte
    obtain ⟨e, he, hzero⟩ := hbyte
    refine iff_of_false ?_ fun ⟨heq, hno⟩ => hno e (heq ▸ he) hzero
    rintro ⟨roms, -, hmem, hget, -⟩
    obtain ⟨r, hr⟩ := hne
    obtain ⟨i, hi, -⟩ := List.getElem_of_mem ((hmem r).mpr hr)
    have hpos : 0 < roms.length := by omega
    obtain ⟨c, hc, hres, -⟩ := hget 0 _ (List.getElem?_eq_getElem hpos)
    obtain ⟨c', hc', hfail⟩ := searches_zero_fails m newAddr hspan hpres h he hzero
    cases hc.symm.trans hc'
    rw [hres] at hfail
    cases hfail

end Calls

/-- An emulated slave that answers with `s`, among conforming responders. -/
def slaveBus (s : Rom) (rs : List Responder) : List Party :=
  .slave ⟨some s⟩ :: rs.map .responder

section Slave

variable {s : Rom} {rs : List Responder} {S : Finset Rom} {bus : Bus}

theorem present_slaveBus : ∃ p ∈ slaveBus s rs, p.Present := ⟨_, List.mem_cons_self, rfl⟩

theorem child_slaveBus {k : Fin 64} {w : Word 64} {b : Bool} :
    (trie (slaveBus s rs)).child k w b ↔
      s.bits k = b ∨ ∃ d ∈ rs, (∀ j < k, d.rom.bits j = w j) ∧ d.rom.bits k = b := by
  constructor
  · rintro ⟨p, hp, hc⟩
    rcases List.mem_cons.mp hp with rfl | hp
    · obtain ⟨id, hid, hb⟩ := hc
      exact .inl (Option.some.inj hid ▸ hb)
    · obtain ⟨d, hd, rfl⟩ := List.mem_map.mp hp
      exact .inr ⟨d, hd, hc⟩
  · rintro (hb | ⟨d, hd, hc⟩)
    · exact ⟨_, List.mem_cons_self, s, rfl, hb⟩
    · exact ⟨_, List.mem_cons_of_mem _ (List.mem_map_of_mem hd), hc⟩

variable (hS : ∀ r, r ∈ S ↔ r = s ∨ ∃ d ∈ rs, d.rom = r)

include hS

theorem leaf_of_splice {u : Rom} (hu : u ∈ S) (k : ℕ) :
    splice u.bits s.bits k ∈ (trie (slaveBus s rs)).leaves := by
  intro j
  rw [child_slaveBus]
  unfold splice
  split
  · next hj =>
    rcases (hS u).mp hu with rfl | ⟨d, hd, rfl⟩
    · exact .inl rfl
    · exact .inr ⟨d, hd, fun i hi => (if_pos (by omega)).symm, rfl⟩
  · exact .inl rfl

theorem splice_of_leaf {w : Word 64} (hw : w ∈ (trie (slaveBus s rs)).leaves) (k : ℕ) (hk : k ≤ 64) :
    ∃ u ∈ S, ∃ i ≤ k, ∀ j : Fin 64, j < k → w j = splice u.bits s.bits i j := by
  induction k with
  | zero => exact ⟨s, (hS s).mpr (.inl rfl), 0, le_rfl, fun j hj => absurd hj (Nat.not_lt_zero j)⟩
  | succ k ih =>
    obtain ⟨u, hu, i, hi, hpre⟩ := ih (by omega)
    rcases child_slaveBus.mp (hw ⟨k, hk⟩) with hs | ⟨d, hd, hagree, hbit⟩
    · refine ⟨u, hu, i, hi.trans (Nat.le_succ k), fun j hj => ?_⟩
      rcases Nat.lt_succ_iff_lt_or_eq.mp hj with hlt | heq
      · exact hpre j hlt
      · obtain rfl : j = ⟨k, hk⟩ := Fin.ext heq
        rw [splice, if_neg (by simpa using hi), hs]
    · refine ⟨d.rom, (hS _).mpr (.inr ⟨d, hd, rfl⟩), k + 1, le_rfl, fun j hj => ?_⟩
      rw [splice, if_pos hj]
      rcases Nat.lt_succ_iff_lt_or_eq.mp hj with hlt | heq
      · exact (hagree j hlt).symm
      · obtain rfl : j = ⟨k, hk⟩ := Fin.ext heq
        exact hbit.symm

theorem mem_leafRoms_iff {t : Rom} :
    t ∈ leafRoms (slaveBus s rs) ↔ ∃ u ∈ S, ∃ k, t.bits = splice u.bits s.bits k := by
  rw [spans_leafRoms]
  constructor
  · intro ht
    obtain ⟨u, hu, i, -, hpre⟩ := splice_of_leaf hS ht 64 le_rfl
    exact ⟨u, hu, i, funext fun j => hpre j j.isLt⟩
  · rintro ⟨u, hu, k, ht⟩
    rw [ht]
    exact leaf_of_splice hS hu k

theorem subset_leafRoms : S ⊆ leafRoms (slaveBus s rs) := fun r hr =>
  (mem_leafRoms_iff hS).mpr ⟨r, hr, 64, funext fun j => (if_pos j.isLt).symm⟩

/-- The enumeration is right when no code starts with a zero byte and the splices are codes. -/
theorem enumerates_slaveBus_iff (m : OneWireMaster) (newAddr : Rom)
    (h : Idle (slaveBus s rs) bus) :
    Enumerates (m.searches newAddr bus) S ↔ (∀ r ∈ S, r.byte 0 ≠ 0) ∧ SpliceClosed s S := by
  have hne : S.Nonempty := ⟨s, (hS s).mpr (.inl rfl)⟩
  rw [enumerates_iff_leaves m newAddr (spans_leafRoms _) present_slaveBus h hne
    (subset_leafRoms hS), and_comm]
  refine and_congr_right fun _ => ⟨?_, fun hclosed => ?_⟩
  · intro heq u hu k t ht
    rw [heq]
    exact (mem_leafRoms_iff hS).mpr ⟨u, hu, k, ht⟩
  · refine Finset.Subset.antisymm (subset_leafRoms hS) fun t ht => ?_
    obtain ⟨u, hu, k, htk⟩ := (mem_leafRoms_iff hS).mp ht
    exact hclosed u hu k t htk

end Slave

section Pass

variable {parties : List Party} {bus : Bus} {r : Rom} {k : ℕ}

/-- In a pass towards a code every party stands at the bit reached, on the path of that code. -/
theorem passBus_searching (h : Idle parties bus) (hpres : ∃ p ∈ parties, p.Present) (hk : k ≤ 64) :
    (passBus bus (r.key.take k)).map Node.party = parties ∧
      ∀ n ∈ passBus bus (r.key.take k), Searching k r.bits n := by
  induction k with
  | zero =>
    obtain ⟨bus', hreset, hparty, hsearch⟩ :=
      reset_searching (w := r.bits) h.resting (h.present hpres)
    rw [passBus, hreset]
    exact ⟨hparty.trans h.parties, hsearch⟩
  | succ k ih =>
    obtain ⟨hparty, hsearch⟩ := ih (by omega)
    have hlen : k < r.key.length := by
      rw [Rom.key, List.length_ofFn]
      exact hk
    have htake : r.key.take (k + 1) = r.key.take k ++ [r.bits ⟨k, hk⟩] := by
      rw [List.take_succ_eq_append_getElem hlen]
      exact congrArg (fun b => r.key.take k ++ [b]) (List.getElem_ofFn _)
    obtain ⟨_, _, bus₁, bus₂, hread, hread', -, -, hwrite⟩ := searching_bit (k := ⟨k, hk⟩) hsearch
    obtain ⟨hparty', hnext⟩ := hwrite (r.bits ⟨k, hk⟩)
    rw [Function.update_eq_self] at hnext
    have hpass : passBus bus (r.key.take (k + 1)) = bus₂.writeBit (r.bits ⟨k, hk⟩) := by
      rw [passBus, htake, List.foldl_append]
      change ((passBus bus (r.key.take k)).readBit.2.readBit.2).writeBit (r.bits ⟨k, hk⟩) = _
      rw [hread, hread']
    rw [hpass]
    exact ⟨hparty'.trans hparty, hnext⟩

/-- Before the last bit a slave still has a zero to send, for its bit or for the complement. -/
theorem slave_not_silent {w : Word 64} {n : Node} {s : Rom} (hparty : n.party = .slave ⟨some s⟩)
    (h : Searching k w n) (hk : k < 64) : ¬n.proc.Silent := by
  intro hsilent
  have hslots := Searching.bitSlots (k := ⟨k, hk⟩) h
  have hslot : Ordinary ⟨3, 67⟩ := ⟨by decide, by decide⟩
  have hbit : ¬n.party.Child ⟨k, hk⟩ w false := fun hc => by
    have hlt := hslots.bit.pulls.mpr hc
    rw [hsilent.hold_eq] at hlt
    exact absurd hlt (Nat.not_lt_zero _)
  have hcomplement : ¬n.party.Child ⟨k, hk⟩ w true := fun hc => by
    have hlt := (hslots.complement _ hslot).pulls.mpr hc
    rw [Node.step, (hsilent.step _).hold_eq] at hlt
    exact absurd hlt (Nat.not_lt_zero _)
  rw [hparty] at hbit hcomplement
  rcases hb : s.bits ⟨k, hk⟩ with _ | _
  · exact hbit ⟨s, rfl, hb⟩
  · exact hcomplement ⟨s, rfl, hb⟩

theorem slave_silent {w : Word 64} {n : Node} {s : Rom} (hparty : n.party = .slave ⟨some s⟩)
    (h : Searching 64 w n) : n.proc.Silent := by
  have hdone : n.proc = .done := by
    have hrest := h.resting
    rwa [Resting, hparty] at hrest
  rw [hdone]
  trivial

end Pass

section Withdrawal

variable {s : Rom} {rs : List Responder} {S : Finset Rom} {bus : Bus} {m : OneWireMaster}
  {newAddr : Rom}

theorem busBefore_idle {parties : List Party} {n : ℕ} {bus₀ : Bus} (hspan : Spans parties S)
    (hpres : ∃ p ∈ parties, p.Present) (hbyte : ∀ r ∈ S, r.byte 0 ≠ 0) (hne : S.Nonempty)
    (h : Idle parties bus) (hbus : busBefore m newAddr bus n = some bus₀) : Idle parties bus₀ := by
  cases n with
  | zero => exact Option.some.inj hbus ▸ h
  | succ n =>
    obtain ⟨c, hc, hcase⟩ := searches_enumerate hspan hpres hbyte hne h m newAddr n
    rw [busBefore, hc] at hbus
    obtain rfl := Option.some.inj hbus
    rcases hcase with ⟨-, hfound⟩ | ⟨-, hexh⟩
    · exact hfound.idle
    · exact hexh.idle

theorem exists_busBefore {n : ℕ} {c : SearchCall} (hc : m.searches newAddr bus n = some c) :
    ∃ bus₀, busBefore m newAddr bus n = some bus₀ := by
  cases n with
  | zero => exact ⟨bus, rfl⟩
  | succ n =>
    obtain ⟨c', hc', -⟩ := Option.bind_eq_some_iff.mp hc
    exact ⟨c'.bus, by rw [busBefore, hc', Option.map_some]⟩

theorem spliceClosed_of_agree (hs : s ∈ S)
    (hagree : ∀ r ∈ S, ∀ k : Fin 64, (k : ℕ) < 63 → r.bits k = s.bits k) : SpliceClosed s S := by
  intro u hu k t ht
  rcases Nat.lt_or_ge k 64 with hk | hk
  · have hts : t.bits = s.bits := by
      funext j
      rw [ht, splice]
      split
      · next hj => exact hagree u hu j (by omega)
      · rfl
    exact Rom.bits_injective hts ▸ hs
  · have htu : t.bits = u.bits := by
      funext j
      rw [ht, splice, if_pos (by omega)]
    exact Rom.bits_injective htu ▸ hu

theorem withdraws_slaveBus_iff (hspan : Spans (slaveBus s rs) S) (hne : S.Nonempty)
    (hbyte : ∀ r ∈ S, r.byte 0 ≠ 0) (h : Idle (slaveBus s rs) bus) :
    Withdraws m newAddr bus s ↔ ∀ r ∈ S, ∀ k : Fin 64, (k : ℕ) < 63 → r.bits k = s.bits k := by
  have hcalls := searches_enumerate hspan present_slaveBus hbyte hne h m newAddr
  constructor
  · intro hw r hr k hk
    by_contra hdiff
    obtain ⟨i, hi, hget⟩ := List.getElem_of_mem ((Finset.mem_sort (· ≤ ·)).mpr hr)
    have hcard : i < S.card := Finset.length_sort (α := Rom) (· ≤ ·) ▸ hi
    obtain ⟨c, hc, hcase⟩ := hcalls i
    rw [Nat.mod_eq_of_lt (Nat.lt_succ_of_lt hcard)] at hcase
    have hfound : Found (slaveBus s rs) S i c :=
      hcase.elim And.right fun hend => absurd hend.1 hcard.ne
    have haddr : c.newAddr = r := by
      have := hfound.newAddr
      rw [List.getElem?_eq_getElem hi, hget] at this
      exact (Option.some.inj this).symm
    obtain ⟨bus₀, hbus⟩ := exists_busBefore hc
    have hidle := busBefore_idle hspan present_slaveBus hbyte hne h hbus
    obtain ⟨hparty, hsearch⟩ := passBus_searching (r := r) hidle present_slaveBus (Nat.succ_le_of_lt k.isLt)
    have hslave : Party.slave ⟨some s⟩ ∈ (passBus bus₀ (r.key.take (k + 1))).map Node.party := by
      rw [hparty]
      exact List.mem_cons_self
    obtain ⟨n, hn, hslave⟩ := List.mem_map.mp hslave
    refine slave_not_silent hslave (hsearch n hn) (by omega) ?_
    exact hw i bus₀ c hbus hc hfound.result k (haddr ▸ hdiff) n (haddr ▸ hn) hslave
  · intro hagree n bus₀ c hbus hc hres k hdiff node hnode hslave
    obtain ⟨c', hc', hcase⟩ := hcalls n
    cases hc.symm.trans hc'
    rcases hcase with ⟨-, hfound⟩ | ⟨-, hexh⟩
    · obtain ⟨hlen, hget⟩ := List.getElem?_eq_some_iff.mp hfound.newAddr
      have hmem : c.newAddr ∈ S := (Finset.mem_sort (· ≤ ·)).mp (hget ▸ List.getElem_mem hlen)
      have hlast : (k : ℕ) + 1 = 64 := by
        by_contra hk
        exact hdiff (hagree _ hmem k (by omega))
      have hidle := busBefore_idle hspan present_slaveBus hbyte hne h hbus
      obtain ⟨-, hsearch⟩ := passBus_searching (r := c.newAddr) hidle present_slaveBus (le_refl 64)
      rw [hlast] at hnode
      exact slave_silent hslave (hsearch node hnode)
    · rw [hexh.result] at hres
      cases hres

/-- The search of a bus with an emulated slave reports exactly the codes on the bus, and the slave
leaves every pass that goes another way, just when all codes agree with the slave's up to the last
bit; the enumeration alone is right just when the codes are closed under splicing with it. -/
theorem slave_search_iff (hS : ∀ r, r ∈ S ↔ r = s ∨ ∃ d ∈ rs, d.rom = r) (m : OneWireMaster)
    (newAddr : Rom) (h : Idle (slaveBus s rs) bus) :
    (Enumerates (m.searches newAddr bus) S ∧ Withdraws m newAddr bus s ↔
      (∀ r ∈ S, r.byte 0 ≠ 0) ∧ ∀ r ∈ S, ∀ k : Fin 64, (k : ℕ) < 63 → r.bits k = s.bits k) ∧
    (Enumerates (m.searches newAddr bus) S ↔ (∀ r ∈ S, r.byte 0 ≠ 0) ∧ SpliceClosed s S) := by
  have henum := enumerates_slaveBus_iff hS m newAddr h
  have hs : s ∈ S := (hS s).mpr (.inl rfl)
  have hspan : SpliceClosed s S → Spans (slaveBus s rs) S := fun hclosed r => by
    rw [← spans_leafRoms, mem_leafRoms_iff hS]
    exact ⟨fun hr => ⟨r, hr, 64, funext fun j => (if_pos j.isLt).symm⟩,
      fun ⟨u, hu, k, hk⟩ => hclosed u hu k r hk⟩
  refine ⟨⟨?_, ?_⟩, henum⟩
  · rintro ⟨he, hw⟩
    obtain ⟨hbyte, hclosed⟩ := henum.mp he
    exact ⟨hbyte, (withdraws_slaveBus_iff (hspan hclosed) ⟨s, hs⟩ hbyte h).mp hw⟩
  · rintro ⟨hbyte, hagree⟩
    have hclosed := spliceClosed_of_agree hs hagree
    exact ⟨henum.mpr ⟨hbyte, hclosed⟩,
      (withdraws_slaveBus_iff (hspan hclosed) ⟨s, hs⟩ hbyte h).mpr hagree⟩

theorem slave_search_alone :
    Enumerates ((⟨ibuttonRom, 0, 0, false⟩ : OneWireMaster).searches ibuttonRom
        [(Party.slave ⟨some thermometerRom⟩).idle]) {thermometerRom} ∧
      Withdraws ⟨ibuttonRom, 0, 0, false⟩ ibuttonRom
        [(Party.slave ⟨some thermometerRom⟩).idle] thermometerRom := by
  have hidle : Idle (slaveBus thermometerRom []) [(Party.slave ⟨some thermometerRom⟩).idle] :=
    ⟨rfl, List.forall_mem_singleton.mpr rfl⟩
  refine (slave_search_iff (by simp) _ _ hidle).1.mpr ⟨by decide, ?_⟩
  rintro r hr k -
  rw [Finset.mem_singleton.mp hr]

/-- With one other device on the bus the master reports a code that nobody holds. -/
theorem slave_search_invents :
    ¬Enumerates ((⟨ibuttonRom, 0, 0, false⟩ : OneWireMaster).searches ibuttonRom
      [(Party.slave ⟨some thermometerRom⟩).idle, (Party.responder (.typical ibuttonRom)).idle])
      {thermometerRom, ibuttonRom} := by
  have hidle : Idle (slaveBus thermometerRom [.typical ibuttonRom])
      [(Party.slave ⟨some thermometerRom⟩).idle, (Party.responder (.typical ibuttonRom)).idle] :=
    ⟨rfl, List.forall_mem_cons.mpr ⟨rfl, List.forall_mem_singleton.mpr trivial⟩⟩
  have hS : ∀ r, r ∈ ({thermometerRom, ibuttonRom} : Finset Rom) ↔
      r = thermometerRom ∨ ∃ d ∈ [Responder.typical ibuttonRom], d.rom = r := by
    simp [Responder.typical, eq_comm]
  rw [enumerates_slaveBus_iff hS _ _ hidle]
  rintro ⟨-, hclosed⟩
  have hmem := hclosed ibuttonRom (by decide) 1 ⟨#v[0x29, 0xFF, 0x64, 0x1E, 0x81, 0x16, 0x03, 0x9C]⟩
    (funext (by decide))
  revert hmem
  decide

end Withdrawal

end FlipperZero.OneWire
