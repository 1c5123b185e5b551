import FlipperZero.OneWire.Pass

/-! # One call of the search

A reset and the search command bring every party to the first bit, the loop takes the
master and the parties through all 64 bits together, and the call ends with the leaf that
the pass has reached and with its last zero.
-/

namespace FlipperZero.OneWire

open Lib

/-- A party that a reset finds ready: a slave has left its interrupt. -/
def Resting (n : Node) : Prop :=
  match n.party with
  | .responder _ => True
  | .slave _ => n.proc = .done

section Reset

variable {others : List Pulse} {n : Node} {bus : Bus} {w : Word 64}

/-- A presence pulse inside the windows of a conforming device. -/
structure Pulse.Conforming (p : Pulse) : Prop where
  start_window : 15 ≤ p.start ∧ p.start ≤ 60
  stop_window : 75 ≤ p.stop ∧ p.stop ≤ 300

theorem Pulse.covers_iff {p : Pulse} {t : ℕ} : p.covers t = true ↔ p.start ≤ t ∧ t < p.stop := by
  rw [covers, Bool.and_eq_true, decide_eq_true_eq, decide_eq_true_eq]

theorem Responder.presence_conforming (r : Responder) : r.presence.Conforming := by
  obtain ⟨hslo, hshi⟩ := r.presenceStart_window
  obtain ⟨hllo, hlhi⟩ := r.presenceLength_window
  have hstop : r.presence.stop = r.presenceStart + r.presenceLength := rfl
  exact ⟨⟨hslo, hshi⟩, by omega, by omega⟩

theorem responderPulses_conforming : ∀ p ∈ bus.responderPulses, p.Conforming := by
  intro p hp
  obtain ⟨⟨party, proc⟩, hn, hp⟩ := List.mem_filterMap.mp hp
  cases party with
  | slave s => cases hp
  | responder r =>
    obtain rfl := Option.some.inj hp
    exact r.presence_conforming

theorem foldr_min_bounds {lo hi : ℕ} (hle : lo ≤ hi) {ts : List ℕ} (h : ∀ t ∈ ts, lo ≤ t) :
    lo ≤ ts.foldr min hi ∧ ts.foldr min hi ≤ hi := by
  induction ts with
  | nil => exact ⟨hle, le_rfl⟩
  | cons t ts ih =>
    obtain ⟨ht, hrest⟩ := List.forall_mem_cons.mp h
    obtain ⟨hlo, hhi⟩ := ih hrest
    exact ⟨le_min ht hlo, (min_le_right _ _).trans hhi⟩

theorem slavePresence_start (h : ∀ p ∈ others, p.Conforming) :
    15 ≤ (OneWireSlave.presence others).start ∧ (OneWireSlave.presence others).start ≤ 20 := by
  refine foldr_min_bounds (by decide) fun t ht => ?_
  obtain ⟨p, hp, rfl⟩ := List.mem_map.mp ht
  exact (h p hp).start_window.1

theorem highAfter_eq_some (h : ∀ p ∈ others, p.Conforming) (stop : ℕ) (hstop : 115 ≤ stop) :
    ∃ t, OneWireSlave.highAfter others stop = some t := by
  refine Option.isSome_iff_exists.mp (List.find?_isSome.mpr ⟨stop + 379, ?_, ?_⟩)
  · exact List.mem_map_of_mem (List.mem_range.mpr (by decide))
  · rw [Bool.not_eq_true', lowAt, List.any_eq_false]
    intro p hp
    have := (h p hp).stop_window.2
    have hpast : ¬stop + 379 < p.stop := by omega
    rw [Pulse.covers, decide_eq_false hpast, Bool.and_false]
    exact Bool.false_ne_true

def commandBits : List Bool := [false, false, false, false, true, true, true, true]

/-- The byte a listener has after these bits, with `left` bits to come at first. -/
def heard : (left : ℕ) → BitVec 8 → List Bool → BitVec 8
  | _, value, [] => value
  | left, value, b :: bs =>
    heard (left - 1) (if b then value ||| (1#8 <<< (7 - (left - 1))) else value) bs

theorem heard_commandBits : heard 8 0 commandBits = 0xF0#8 := by decide

theorem listen_hears (r : Responder) (bs : List Bool) (cmd : BitVec 8) :
    (r.listen bs.length cmd).Hears (bs.map writeSlot) (r.listen 0 (heard bs.length cmd bs)) := by
  induction bs generalizing cmd with
  | nil => rfl
  | cons b bs ih =>
    refine ⟨rfl, ?_⟩
    simp only [List.length_cons, Responder.listen, Proc.step_slot, r.samples_writeSlot, heard,
      Nat.add_sub_cancel]
    exact ih _

theorem receive_hears (bs : List Bool) (value : BitVec 8) {s : Session} (hs : s.Ready)
    (k : Session → BitVec 8 → Proc) :
    ∃ s' : Session, s'.Ready ∧ (receive bs.length value s k).Hears (bs.map writeSlot)
      (k s' (heard bs.length value bs)) := by
  induction bs generalizing value s with
  | nil => exact ⟨s, hs, rfl⟩
  | cons b bs ih =>
    have hstep := receiveBit_ready hs fun s bit =>
      receive bs.length (if bit then value ||| (1#8 <<< (7 - bs.length)) else value) s k
    obtain ⟨s', hs', hears⟩ := ih (if b then value ||| (1#8 <<< (7 - bs.length)) else value)
      (hs.resume (ordinary_writeSlot b))
    refine ⟨s', hs', ?_⟩
    rw [List.length_cons, receive, hstep]
    refine ⟨rfl, ?_⟩
    rw [Proc.step_slot, waitWhileGpioIs_writeSlot]
    exact hears

theorem foldl_writeBit {P : Node → Prop} (bs : List Bool)
    (h : ∀ n ∈ bus, ∃ q, n.proc.Hears (bs.map writeSlot) q ∧ P ⟨n.party, q⟩) :
    (bs.foldl Bus.writeBit bus).map Node.party = bus.map Node.party ∧
      ∀ n ∈ bs.foldl Bus.writeBit bus, P n := by
  induction bs generalizing bus with
  | nil =>
    refine ⟨rfl, fun n hn => ?_⟩
    obtain ⟨q, rfl, hp⟩ := h n hn
    exact hp
  | cons b bs ih =>
    have hquiet : ∀ n ∈ bus, n.proc.hold = 0 := fun n hn => by
      obtain ⟨q, ⟨hhold, -⟩, -⟩ := h n hn
      exact hhold
    rw [List.foldl_cons, writeBit_eq hquiet]
    have hnext : ∀ n ∈ bus.map fun n => n.step (writeSlot b),
        ∃ q, n.proc.Hears (bs.map writeSlot) q ∧ P ⟨n.party, q⟩ := by
      intro n' hn'
      obtain ⟨n, hn, rfl⟩ := List.mem_map.mp hn'
      obtain ⟨q, ⟨-, hears⟩, hp⟩ := h n hn
      exact ⟨q, hears, hp⟩
    obtain ⟨hparty, hall⟩ := ih hnext
    exact ⟨hparty.trans (map_step_party _), hall⟩

/-- What a reset makes of a party: its pulse is on the line at the sampling point, and through the
search command it comes to the first bit. -/
theorem restart_searching (h : ∀ p ∈ others, p.Conforming) (hn : Resting n) :
    (Node.restart others n).2.party = n.party ∧
      (n.party.Present → ∃ p, (Node.restart others n).1 = some p ∧
        p.covers OneWireTiming.resetRelease = true) ∧
      ∃ q, (Node.restart others n).2.proc.Hears (commandBits.map writeSlot) q ∧
        Searching 0 w ⟨n.party, q⟩ := by
  obtain ⟨party, proc⟩ := n
  cases party with
  | responder r =>
    have hp := r.presence_conforming
    refine ⟨rfl, fun _ => ⟨r.presence, rfl, ?_⟩, r.searchRom r.rom.key, ?_, ?_⟩
    · have hstart := hp.start_window.2
      have hstop := hp.stop_window.1
      exact Pulse.covers_iff.mpr ⟨hstart.trans (by decide), lt_of_lt_of_le (by decide) hstop⟩
    · have hears := listen_hears r commandBits 0
      have hlast : r.listen 0 (heard commandBits.length 0 commandBits) = r.searchRom r.rom.key :=
        if_pos heard_commandBits
      rwa [hlast] at hears
    · exact .active fun j hj => absurd hj (Nat.not_lt_zero j)
  | slave o =>
    obtain rfl : proc = .done := hn
    rcases hdev : o.device with _ | id
    · have hrestart : Node.restart others ⟨.slave o, .done⟩ = (none, ⟨.slave o, .done⟩) := by
        simp only [Node.restart, OneWireSlave.busStart, hdev, Option.map_none]
      rw [hrestart]
      refine ⟨rfl, fun hpres => ?_, .done, by simp [Proc.Hears, commandBits], .absent hdev⟩
      simp [Party.Present, hdev] at hpres
    · obtain ⟨hlo, hhi⟩ := slavePresence_start h
      have hstop : (OneWireSlave.presence others).stop =
        (OneWireSlave.presence others).start + 100 := rfl
      obtain ⟨t, ht⟩ := highAfter_eq_some h (OneWireSlave.presence others).stop (by omega)
      have hstart : o.busStart others = some (OneWireSlave.presence others,
          receiveAndProcessCmd id ⟨.noError, 0,
            OneWireTiming.resetRelease + OneWireTiming.resetDelayPost - t⟩ fun _ _ => .done) := by
        simp only [OneWireSlave.busStart, hdev, Option.map_some, ht]
      have hrestart : Node.restart others ⟨.slave o, .done⟩ = (some (OneWireSlave.presence others),
          ⟨.slave o, receiveAndProcessCmd id ⟨.noError, 0,
            OneWireTiming.resetRelease + OneWireTiming.resetDelayPost - t⟩ fun _ _ => .done⟩) := by
        simp only [Node.restart, hstart]
      have hready : Session.Ready ⟨.noError, 0,
          OneWireTiming.resetRelease + OneWireTiming.resetDelayPost - t⟩ :=
        ⟨rfl, (by decide : 0 < OneWireEmulateTiming.slotMax),
          lt_of_le_of_lt (Nat.sub_le _ _) (by decide)⟩
      rw [hrestart]
      refine ⟨rfl, fun _ => ⟨_, rfl, ?_⟩, ?_⟩
      · exact Pulse.covers_iff.mpr ⟨hhi.trans (by decide),
          lt_of_lt_of_le (by decide : OneWireTiming.resetRelease < 115) (by omega)⟩
      · obtain ⟨s', hs', hears⟩ := receive_hears commandBits 0 hready _
        refine ⟨_, hears, ?_⟩
        have hcmd : heard commandBits.length 0 commandBits = 0xF0#8 := heard_commandBits
        rw [hcmd, hs'.noError]
        exact .slave hdev hs'

theorem reset_searching (hrest : ∀ n ∈ bus, Resting n) (hpres : ∃ n ∈ bus, n.party.Present) :
    ∃ bus', bus.reset = (true, bus') ∧ (bus'.write 0xF0).map Node.party = bus.map Node.party ∧
      ∀ n ∈ bus'.write 0xF0, Searching 0 w n := by
  have hothers : ∀ p ∈ bus.responderPulses, p.Conforming := responderPulses_conforming
  have hlow : bus.reset.1 = true := by
    obtain ⟨n, hn, hp⟩ := hpres
    obtain ⟨p, hp, hcov⟩ := (restart_searching (w := w) hothers (hrest n hn)).2.1 hp
    refine List.any_eq_true.mpr ⟨p, List.mem_filterMap.mpr ⟨_, List.mem_map_of_mem hn, hp⟩, hcov⟩
  have hparty : bus.reset.2.map Node.party = bus.map Node.party := by
    simp only [Bus.reset, List.map_map]
    refine List.map_congr_left fun n hn => ?_
    exact (restart_searching (w := w) hothers (hrest n hn)).1
  have hhears : ∀ n ∈ bus.reset.2, ∃ q, n.proc.Hears (commandBits.map writeSlot) q ∧
      Searching 0 w ⟨n.party, q⟩ := by
    intro n' hn'
    simp only [Bus.reset, List.map_map] at hn'
    obtain ⟨n, hn, rfl⟩ := List.mem_map.mp hn'
    obtain ⟨hkeep, -, q, hears, hsearch⟩ := restart_searching (w := w) hothers (hrest n hn)
    exact ⟨q, hears, hkeep ▸ hsearch⟩
  obtain ⟨hmap, hall⟩ := foldl_writeBit commandBits hhears
  exact ⟨bus.reset.2, Prod.ext hlow rfl, hmap.trans hparty, hall⟩

end Reset

/-- The master and the parties before bit `k` of a pass. -/
structure AtBit (parties : List Party) (saved : Word 64) (d k : ℕ) (m : OneWireMaster)
    (l : SearchLoop) (bus : Bus) : Prop where
  walk : (trie parties).Walk saved d k m.savedRom.bits l.lastZero
  discrepancy : m.lastDiscrepancy = d
  deviceFlag : m.lastDeviceFlag = false
  bitNumber : l.idBitNumber = k + 1
  byteNumber : l.romByteNumber = k / 8
  byteMask : l.romByteMask = Rom.romByteMask (k % 8)
  parties : bus.map Node.party = parties
  searching : ∀ n ∈ bus, Searching k m.savedRom.bits n

section Loop

variable {parties : List Party} {saved : Word 64} {d : ℕ} {m : OneWireMaster} {l : SearchLoop}
  {bus : Bus}

theorem shiftLeft_romByteMask : ∀ j < 8, (Rom.romByteMask j <<< 1 = 0 ↔ j = 7) ∧
    (j ≠ 7 → Rom.romByteMask j <<< 1 = Rom.romByteMask (j + 1)) := by
  decide

theorem advance_eq {k : ℕ} (hnum : l.romByteNumber = k / 8)
    (hmask : l.romByteMask = Rom.romByteMask (k % 8)) :
    l.advance = { l with
      idBitNumber := l.idBitNumber + 1
      romByteNumber := (k + 1) / 8
      romByteMask := Rom.romByteMask ((k + 1) % 8) } := by
  obtain ⟨hzero, hnext⟩ := shiftLeft_romByteMask (k % 8) (Nat.mod_lt _ (by decide))
  unfold SearchLoop.advance
  rw [hmask]
  split
  · next h =>
    have hk : k % 8 = 7 := hzero.mp h
    have hdiv : (k + 1) / 8 = k / 8 + 1 := by omega
    have hmod : (k + 1) % 8 = 0 := by omega
    rw [hnum, hdiv, hmod]
    rfl
  · next h =>
    have hk : k % 8 ≠ 7 := fun hk => h (hzero.mpr hk)
    have hdiv : (k + 1) / 8 = k / 8 := by omega
    have hmod : (k + 1) % 8 = k % 8 + 1 := by omega
    rw [hdiv, hmod, hnext hk, ← hnum]

theorem bits_saveBit {k : Fin 64} (hnum : l.romByteNumber = k / 8)
    (hmask : l.romByteMask = Rom.romByteMask (k % 8)) (b : Bool) :
    (m.saveBit l b).savedRom.bits = Function.update m.savedRom.bits k b := by
  unfold OneWireMaster.saveBit
  rw [hnum, hmask]
  cases b
  · exact Rom.bits_setByte_and_not k.isLt
  · exact Rom.bits_setByte_or k.isLt

theorem recordZero_eq (m : OneWireMaster) (l : SearchLoop) (idBit cmpIdBit direction : Bool) :
    ∃ f, m.recordZero l idBit cmpIdBit direction = ({ m with lastFamilyDiscrepancy := f },
      { l with
        lastZero := if idBit = cmpIdBit ∧ direction = false then l.idBitNumber else l.lastZero }) := by
  unfold OneWireMaster.recordZero
  split
  · split
    · exact ⟨l.idBitNumber, rfl⟩
    · exact ⟨m.lastFamilyDiscrepancy, rfl⟩
  · exact ⟨m.lastFamilyDiscrepancy, rfl⟩

/-- A turn of the loop on its data: the bit is saved, a zero at a discrepancy is recorded. -/
theorem takeBit_eq {k : Fin 64} (hnum : l.romByteNumber = k / 8)
    (hmask : l.romByteMask = Rom.romByteMask (k % 8)) (idBit cmpIdBit : Bool) :
    ∃ (m' : OneWireMaster) (z : ℕ),
      m.takeBit l idBit cmpIdBit = (m.searchDirection l idBit cmpIdBit, m',
        ⟨l.idBitNumber + 1, z, (k + 1) / 8, Rom.romByteMask ((k + 1) % 8)⟩) ∧
      z = (if idBit = cmpIdBit ∧ m.searchDirection l idBit cmpIdBit = false then l.idBitNumber
        else l.lastZero) ∧
      m'.savedRom.bits =
        Function.update m.savedRom.bits k (m.searchDirection l idBit cmpIdBit) ∧
      m'.lastDiscrepancy = m.lastDiscrepancy ∧ m'.lastDeviceFlag = m.lastDeviceFlag := by
  obtain ⟨f, hrecord⟩ := recordZero_eq m l idBit cmpIdBit (m.searchDirection l idBit cmpIdBit)
  simp only [OneWireMaster.takeBit, hrecord]
  refine ⟨_, _, Prod.ext rfl (Prod.ext rfl (advance_eq hnum hmask)), rfl, ?_, rfl, rfl⟩
  exact bits_saveBit (m := { m with lastFamilyDiscrepancy := f }) hnum hmask _

theorem AtBit.direction {k : Fin 64} (h : AtBit parties saved d k m l bus) {idBit cmpIdBit : Bool}
    (hid : idBit = true ↔ ¬(trie parties).child k m.savedRom.bits false)
    (hcmp : cmpIdBit = true ↔ ¬(trie parties).child k m.savedRom.bits true)
    (hsome : ¬(idBit = true ∧ cmpIdBit = true)) :
    (trie parties).child k m.savedRom.bits (m.searchDirection l idBit cmpIdBit) ∧
      ((trie parties).Branches k m.savedRom.bits ↔ idBit = cmpIdBit) ∧
      ((trie parties).Branches k m.savedRom.bits → m.searchDirection l idBit cmpIdBit =
        if k + 1 < d then saved k else decide (k + 1 = d)) := by
  have hsaved : decide (m.savedRom.byte l.romByteNumber &&& l.romByteMask ≠ 0) = saved k := by
    rw [h.byteNumber, h.byteMask, ← h.walk.rest k le_rfl]
    exact Bool.decide_congr (Rom.byte_and_romByteMask k.isLt) ▸ Bool.decide_eq_true
  unfold Trie.Branches
  cases idBit <;> cases cmpIdBit
  · have h0 := not_not.mp (mt hid.mpr Bool.false_ne_true)
    have h1 := not_not.mp (mt hcmp.mpr Bool.false_ne_true)
    have hrule : m.searchDirection l false false =
        if k + 1 < d then saved k else decide (k + 1 = d) := by
      simp only [OneWireMaster.searchDirection, hsaved, h.bitNumber, h.discrepancy, ne_eq,
        not_true_eq_false, if_false]
    refine ⟨?_, iff_of_true ⟨h0, h1⟩ rfl, fun _ => hrule⟩
    cases m.searchDirection l false false <;> assumption
  · have h0 := not_not.mp (mt hid.mpr Bool.false_ne_true)
    have h1 := hcmp.mp rfl
    exact ⟨h0, iff_of_false (fun hb => h1 hb.2) Bool.false_ne_true, fun hb => absurd hb.2 h1⟩
  · have h0 := hid.mp rfl
    have h1 := not_not.mp (mt hcmp.mpr Bool.false_ne_true)
    exact ⟨h1, iff_of_false (fun hb => h0 hb.1) (Ne.symm Bool.false_ne_true),
      fun hb => absurd hb.1 h0⟩
  · exact absurd ⟨rfl, rfl⟩ hsome

theorem AtBit.turn {k : Fin 64} (h : AtBit parties saved d k m l bus)
    (hlive : (trie parties).Live) (fuel : ℕ) :
    ∃ m' l' bus', AtBit parties saved d (k + 1) m' l' bus' ∧
      OneWireMaster.searchLoop (fuel + 1) m l bus = if l'.romByteNumber < 8 then
        OneWireMaster.searchLoop fuel m' l' bus' else some (m', l', bus') := by
  obtain ⟨idBit, cmpIdBit, bus₁, bus₂, hread, hread', hid, hcmp, hwrite⟩ :=
    searching_bit h.searching
  rw [h.parties] at hid hcmp
  have hsome : ¬(idBit = true ∧ cmpIdBit = true) := by
    rintro ⟨h0, h1⟩
    obtain ⟨b, hb⟩ := hlive k m.savedRom.bits h.walk.path
    cases b
    · exact hid.mp h0 hb
    · exact hcmp.mp h1 hb
  obtain ⟨hchild, hbranch, hrule⟩ := h.direction hid hcmp hsome
  obtain ⟨m', z, htake, hz, hbits, hdisc, hflag⟩ :=
    takeBit_eq (m := m) h.byteNumber h.byteMask idBit cmpIdBit
  generalize m.searchDirection l idBit cmpIdBit = b at *
  refine ⟨m', ⟨l.idBitNumber + 1, z, (k + 1) / 8, Rom.romByteMask ((k + 1) % 8)⟩,
    bus₂.writeBit b, ?_, by
    rw [OneWireMaster.searchLoop, hread]
    simp only [hread', if_neg hsome, htake]⟩
  exact
    { walk := by
        rw [hbits]
        refine h.walk.step hchild hrule (fun hb hb0 => ?_) fun hno => ?_
        · rw [hz, ← h.bitNumber]
          exact if_pos ⟨hbranch.mp hb, hb0⟩
        · rw [hz]
          exact if_neg fun hc => hno ⟨hbranch.mpr hc.1, hc.2⟩
      discrepancy := hdisc.trans h.discrepancy
      deviceFlag := hflag.trans h.deviceFlag
      bitNumber := congrArg (· + 1) h.bitNumber
      byteNumber := rfl
      byteMask := rfl
      parties := (hwrite b).1.trans h.parties
      searching := by
        rw [hbits]
        exact (hwrite b).2 }

theorem AtBit.loop {fuel k : ℕ} (h : AtBit parties saved d k m l bus)
    (hlive : (trie parties).Live) (hk : k < 64) (hfuel : 64 ≤ k + fuel) :
    ∃ m' l' bus', AtBit parties saved d 64 m' l' bus' ∧
      OneWireMaster.searchLoop fuel m l bus = some (m', l', bus') := by
  induction fuel generalizing k m l bus with
  | zero => omega
  | succ fuel ih =>
    obtain ⟨m', l', bus', h', hloop⟩ := AtBit.turn (k := ⟨k, hk⟩) h hlive fuel
    have h' : AtBit parties saved d (k + 1) m' l' bus' := h'
    have hnum : l'.romByteNumber = (k + 1) / 8 := h'.byteNumber
    rw [hloop]
    split
    · exact ih h' (by omega) (by omega)
    · obtain rfl : k = 63 := by omega
      exact ⟨m', l', bus', h', rfl⟩

end Loop

section Search

variable {m : OneWireMaster} {bus : Bus}

theorem Searching.resting {n : Node} {w : Word 64} (h : Searching 64 w n) : Resting n := by
  cases h with
  | active => trivial
  | dropped => trivial
  | absent => rfl
  | @slave o id s hid hs =>
    change cmdSearchRom (id.key.drop 64) s (fun _ => .done) = .done
    rw [id.drop_key_eq_nil]
    rfl

theorem search_eq (newAddr : Rom) (hflag : m.lastDeviceFlag = false) (hrest : ∀ n ∈ bus, Resting n)
    (hpres : ∃ n ∈ bus, n.party.Present) :
    ∃ (m' : OneWireMaster) (bus' : Bus), (trie (bus.map Node.party)).Pass m.savedRom.bits m.lastDiscrepancy m'.savedRom.bits ∧
      (trie (bus.map Node.party)).LastZero m'.savedRom.bits m'.lastDiscrepancy ∧
      m'.lastDeviceFlag = decide (m'.lastDiscrepancy = 0) ∧
      bus'.map Node.party = bus.map Node.party ∧ (∀ n ∈ bus', Resting n) ∧
      m.search newAddr true bus = some (m'.finishSearch newAddr true bus') := by
  obtain ⟨bus₁, hreset, hparty, hsearch⟩ := reset_searching (w := m.savedRom.bits) hrest hpres
  have hlive : (trie (bus.map Node.party)).Live := by
    obtain ⟨n, hn, hp⟩ := hpres
    exact trie_live (List.mem_map_of_mem hn) hp
  have hstart : AtBit (bus.map Node.party) m.savedRom.bits m.lastDiscrepancy 0 m .start
      (bus₁.write 0xF0) :=
    ⟨.start, rfl, hflag, rfl, rfl, rfl, hparty, hsearch⟩
  obtain ⟨m', l', bus', hend, hloop⟩ := hstart.loop hlive (by decide) (by decide : 64 ≤ 0 + 64)
  obtain ⟨hpass, hlast⟩ := hend.walk.pass
  have hlen : ¬l'.idBitNumber < 65 := by
    have := hend.bitNumber
    omega
  let m₁ : OneWireMaster := { m' with
    lastDiscrepancy := l'.lastZero, lastDeviceFlag := decide (l'.lastZero = 0) }
  refine ⟨m₁, bus', hpass, hlast, rfl, hend.parties, fun n hn => (hend.searching n hn).resting, ?_⟩
  unfold OneWireMaster.search
  rw [hflag]
  simp only [hreset, if_true, hloop, if_neg hlen, Bool.false_eq_true, if_false]
  have hm : (if l'.lastZero = 0 then
      ({ m' with lastDiscrepancy := l'.lastZero, lastDeviceFlag := true } : OneWireMaster)
      else { m' with lastDiscrepancy := l'.lastZero }) = m₁ := by
    split
    · next hz => simp only [m₁, decide_eq_true hz]
    · next hz => simp only [m₁, decide_eq_false hz, hend.deviceFlag]
  rw [← hm]

end Search

end FlipperZero.OneWire
