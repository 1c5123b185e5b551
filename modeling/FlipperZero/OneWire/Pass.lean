import FlipperZero.OneWire.Search

/-! # One search pass over a bus

The parties on a bus span a trie: a responder allows its own next bit while the path agrees
with its code, an emulated slave allows its own next bit on every path. In a pass each party
stands at the bit the master has reached, and the pass is a walk in that trie.
-/

namespace FlipperZero.OneWire

open Lib

def Party.Child : Party → Fin 64 → Word 64 → Bool → Prop
  | .responder r, k, w, b => (∀ j < k, r.rom.bits j = w j) ∧ r.rom.bits k = b
  | .slave s, k, _, b => ∃ id, s.device = some id ∧ id.bits k = b

/-- The bits that some party puts on the bus after a path. -/
def trie (parties : List Party) : Trie 64 where
  child k w b := ∃ p ∈ parties, p.Child k w b
  prefix_only := by
    rintro k v w b hpre ⟨p, hp, hc⟩
    refine ⟨p, hp, ?_⟩
    cases p with
    | responder r => exact ⟨fun j hj => (hc.1 j hj).trans (hpre j hj), hc.2⟩
    | slave s => exact hc

def Party.Present : Party → Prop
  | .responder _ => True
  | .slave s => s.device.isSome

theorem trie_live {parties : List Party} {p : Party} (hp : p ∈ parties) (hpres : p.Present) :
    (trie parties).Live := by
  intro k w hpath
  cases p with
  | slave s =>
    obtain ⟨id, hid⟩ := Option.isSome_iff_exists.mp hpres
    exact ⟨id.bits k, _, hp, id, hid, rfl⟩
  | responder r =>
    rcases Nat.eq_zero_or_pos k with hk | hk
    · refine ⟨r.rom.bits k, _, hp, fun j hj => ?_, rfl⟩
      have : (j : ℕ) < k := hj
      omega
    · obtain ⟨q, hq, hc⟩ := hpath ⟨k - 1, by omega⟩ (Nat.sub_one_lt_of_lt hk)
      cases q with
      | slave s =>
        obtain ⟨id, hid, -⟩ := hc
        exact ⟨id.bits k, _, hq, id, hid, rfl⟩
      | responder r =>
        refine ⟨r.rom.bits k, _, hq, fun j hj => ?_, rfl⟩
        rcases Nat.lt_or_ge j (k - 1) with hlt | hge
        · exact hc.1 j hlt
        · have hj' : (j : ℕ) < k := hj
          have hlast : j = ⟨k - 1, by omega⟩ := Fin.ext (by simp only; omega)
          exact hlast ▸ hc.2

/-- No error so far, and neither wait for the next slot times out. -/
structure Session.Ready (s : Session) : Prop where
  noError : s.error = .noError
  low : s.lowLeft < OneWireEmulateTiming.slotMax
  high : s.highLeft < OneWireEmulateTiming.msgHighTimeout

/-- A slot short enough for the timeouts of the slave. -/
def Ordinary (slot : Slot) : Prop :=
  slot.low < OneWireEmulateTiming.slotMax ∧ slot.period < OneWireEmulateTiming.msgHighTimeout

section Slave

variable {s : Session} {slot : Slot} {t : ℕ}

theorem Session.Ready.resume (h : s.Ready) (hs : Ordinary slot) : (s.resume slot t).Ready where
  noError := h.noError
  low := lt_of_le_of_lt (Nat.sub_le _ _) hs.1
  high := lt_of_le_of_lt (Nat.sub_le _ _) hs.2

theorem awaitSlot_ready (h : s.Ready) (k : Session → Bool → Proc) (go : Proc) :
    awaitSlot s k go = go := by
  have hlow : waitWhileGpioIs OneWireEmulateTiming.slotMax s.lowLeft ≠ 0 :=
    Nat.sub_ne_zero_of_lt h.low
  have hhigh : waitWhileGpioIs OneWireEmulateTiming.msgHighTimeout s.highLeft ≠ 0 :=
    Nat.sub_ne_zero_of_lt h.high
  unfold awaitSlot
  rw [if_neg hlow, if_neg hhigh]

end Slave

/-- The slot in which the master writes a bit and nobody else pulls the line. -/
def writeSlot (b : Bool) : Slot :=
  if b then ⟨OneWireTiming.write1Drive, OneWireTiming.write1Drive + OneWireTiming.write1Release⟩
  else ⟨OneWireTiming.write0Drive, OneWireTiming.write0Drive + OneWireTiming.write0Release⟩

theorem ordinary_writeSlot (b : Bool) : Ordinary (writeSlot b) := by
  cases b <;> exact ⟨by decide, by decide⟩

theorem Responder.samples_writeSlot (r : Responder) (b : Bool) : r.samples (writeSlot b) = b := by
  obtain ⟨hlo, hhi⟩ := r.sample_window
  have h1 : OneWireTiming.write1Drive < r.sample := by
    unfold OneWireTiming.write1Drive
    omega
  have h0 : ¬OneWireTiming.write0Drive < r.sample := by
    unfold OneWireTiming.write0Drive
    omega
  cases b
  · exact decide_eq_false h0
  · exact decide_eq_true h1

theorem waitWhileGpioIs_writeSlot (b : Bool) :
    decide (waitWhileGpioIs OneWireEmulateTiming.readMin (writeSlot b).low > 0) = b := by
  cases b <;> rfl

/-- Where a party stands when the master has reached bit `k` on the path `w`. -/
inductive Searching (k : ℕ) (w : Word 64) : Node → Prop
  | active {r : Responder} : (∀ j : Fin 64, j < k → r.rom.bits j = w j) →
      Searching k w ⟨.responder r, r.searchRom (r.rom.key.drop k)⟩
  | dropped {r : Responder} {j : Fin 64} : j < k → r.rom.bits j ≠ w j →
      Searching k w ⟨.responder r, .done⟩
  | slave {o : OneWireSlave} {id : Rom} {s : Session} : o.device = some id → s.Ready →
      Searching k w ⟨.slave o, cmdSearchRom (id.key.drop k) s fun _ => .done⟩
  | absent {o : OneWireSlave} : o.device = none → Searching k w ⟨.slave o, .done⟩

/-- The sampling point of the master in a read slot. -/
def readPoint : ℕ := OneWireTiming.readDrive + OneWireTiming.readRelease

/-- What a process that holds the line for a zero does in a read slot. -/
structure Shows (p : Proc) (zero : Prop) : Prop where
  hold_le : p.hold ≤ OneWireEmulateTiming.readMax
  pulls : readPoint < p.hold ↔ zero

/-- What a party does in the three slots of a bit. -/
structure BitSlots (k : Fin 64) (w : Word 64) (n : Node) : Prop where
  bit : Shows n.proc (n.party.Child k w false)
  complement : ∀ slot, Ordinary slot → Shows (n.step slot).proc (n.party.Child k w true)
  listens : ∀ slot slot', Ordinary slot → Ordinary slot' →
    ((n.step slot).step slot').proc.hold = 0
  next : ∀ slot slot' b, Ordinary slot → Ordinary slot' →
    Searching (k + 1) (Function.update w k b) (((n.step slot).step slot').step (writeSlot b))

section Node

variable {k : Fin 64} {w : Word 64} {n : Node} {b : Bool}

theorem shows_done {p : Prop} (h : ¬p) : Shows .done p where
  hold_le := Nat.zero_le _
  pulls := iff_of_false (Nat.not_lt_zero _) h

theorem shows_of_hold {hold : ℕ} {p : Prop} (next : Slot → Proc) (hle : hold ≤ 60) (hlt : 12 < hold)
    (value : Bool) (h : value = false ↔ p) : Shows (.slot (if value then 0 else hold) next) p := by
  cases value with
  | false => exact ⟨hle, iff_of_true hlt (h.mp rfl)⟩
  | true => exact ⟨Nat.zero_le _, iff_of_false (Nat.not_lt_zero _) fun hp => by simpa using h.mpr hp⟩

theorem update_agrees {r : Rom} (h : ∀ j : Fin 64, j < k → r.bits j = w j) (hb : r.bits k = b) :
    ∀ j : Fin 64, (j : ℕ) < k + 1 → r.bits j = Function.update w k b j := by
  intro j hj
  rcases Nat.lt_succ_iff_lt_or_eq.mp hj with hlt | heq
  · have hne : j ≠ k := Fin.ne_of_lt hlt
    rw [Function.update_of_ne hne]
    exact h j hlt
  · obtain rfl := Fin.ext heq
    rw [Function.update_self, hb]

theorem bitSlots_responder {r : Responder} (h : ∀ j : Fin 64, j < k → r.rom.bits j = w j) :
    BitSlots k w ⟨.responder r, r.searchRom (r.rom.key.drop k)⟩ := by
  rw [r.rom.drop_key k.isLt, Responder.searchRom]
  obtain ⟨hlo, hhi⟩ := r.pull_window
  have hlt : 12 < r.pull := by omega
  refine ⟨shows_of_hold _ hhi hlt _ ⟨fun hb => ⟨h, hb⟩, fun hc => hc.2⟩,
    fun _ _ => shows_of_hold _ hhi hlt _
      ⟨fun hb => ⟨h, by simpa using hb⟩, fun hc => by simpa using hc.2⟩,
    fun _ _ _ _ => rfl, fun _ _ b _ _ => ?_⟩
  simp only [Node.step, Responder.sends, Proc.step_slot, r.samples_writeSlot]
  split
  · next hb => exact .active (update_agrees h hb.symm)
  · next hb =>
    refine .dropped (Nat.lt_succ_self k) ?_
    rw [Function.update_self]
    exact fun heq => hb heq.symm

theorem sendBit_ready {s : Session} (hs : s.Ready) (value : Bool) (next : Session → Bool → Proc) :
    sendBit value s next = .slot (if value then 0 else OneWireEmulateTiming.writeZero) fun slot =>
      next (s.resume slot
        (if value then OneWireEmulateTiming.readMax else OneWireEmulateTiming.writeZero)) true := by
  unfold sendBit
  rw [awaitSlot_ready hs]
  cases value <;> rfl

theorem receiveBit_ready {s : Session} (hs : s.Ready) (next : Session → Bool → Proc) :
    receiveBit s next = .slot 0 fun slot =>
      next (s.resume slot (min OneWireEmulateTiming.readMin slot.low))
        (decide (waitWhileGpioIs OneWireEmulateTiming.readMin slot.low > 0)) :=
  awaitSlot_ready hs _ _

theorem bitSlots_slave {o : OneWireSlave} {id : Rom} {s : Session} (hid : o.device = some id)
    (hs : s.Ready) :
    BitSlots k w ⟨.slave o, cmdSearchRom (id.key.drop k) s fun _ => .done⟩ := by
  have hchild : ∀ b, id.bits k = b ↔ (Party.slave o).Child k w b := fun b =>
    ⟨fun h => ⟨id, hid, h⟩, fun ⟨id', hid', h⟩ => by cases hid.symm.trans hid'; exact h⟩
  rw [id.drop_key k.isLt, cmdSearchRom, sendBit_ready hs]
  refine ⟨shows_of_hold _ (by decide) (by decide) _ (hchild false), fun slot hslot => ?_,
    fun slot slot' hslot hslot' => ?_, fun slot slot' b hslot hslot' => ?_⟩
  · simp only [Node.step, Proc.step_slot, if_true]
    rw [sendBit_ready (hs.resume hslot)]
    refine shows_of_hold _ (by decide) (by decide) _ ?_
    rw [← hchild true, Bool.not_eq_false']
  · simp only [Node.step, Proc.step_slot, if_true]
    rw [sendBit_ready (hs.resume hslot), Proc.step_slot, if_pos rfl,
      receiveBit_ready ((hs.resume hslot).resume hslot')]
    rfl
  · simp only [Node.step, Proc.step_slot, if_true]
    rw [sendBit_ready (hs.resume hslot), Proc.step_slot, if_pos rfl,
      receiveBit_ready ((hs.resume hslot).resume hslot'), Proc.step_slot, if_neg]
    · exact .slave hid (((hs.resume hslot).resume hslot').resume (ordinary_writeSlot b))
    · exact not_not_intro hs.noError

theorem Searching.bitSlots (h : Searching k w n) : BitSlots k w n := by
  cases h with
  | active h => exact bitSlots_responder h
  | slave hid hs => exact bitSlots_slave hid hs
  | @dropped r j hj hne =>
    have hno : ∀ b, ¬(Party.responder r).Child k w b := fun b hc => hne (hc.1 j hj)
    refine ⟨shows_done (hno false), fun _ _ => shows_done (hno true), fun _ _ _ _ => rfl,
      fun _ _ b _ _ => ?_⟩
    refine .dropped (Nat.lt_succ_of_lt hj) ?_
    rwa [Function.update_of_ne (Fin.ne_of_lt hj)]
  | @absent o hdev =>
    have hno : ∀ b, ¬(Party.slave o).Child k w b := fun b ⟨id, hid, _⟩ => by
      rw [hdev] at hid
      cases hid
    exact ⟨shows_done (hno false), fun _ _ => shows_done (hno true), fun _ _ _ _ => rfl,
      fun _ _ b _ _ => .absent hdev⟩

end Node

section Bus

variable {bus : Bus} {k : Fin 64} {w : Word 64}

@[simp] theorem Node.step_party (n : Node) (slot : Slot) : (n.step slot).party = n.party := rfl

theorem map_step_party (slot : Slot) :
    (bus.map fun n => n.step slot).map Node.party = bus.map Node.party := by
  rw [List.map_map]
  rfl

theorem readBit_eq {P : Node → Prop} (h : ∀ n ∈ bus, Shows n.proc (P n)) :
    ∃ b slot, Ordinary slot ∧ bus.readBit = (b, bus.map fun n => n.step slot) ∧
      (b = true ↔ ¬∃ n ∈ bus, P n) := by
  have hlow : lineLow OneWireTiming.readDrive (bus.map fun n => n.proc.hold) ≤
      OneWireEmulateTiming.readMax := by
    refine lineLow_le_iff.mpr ⟨by decide, fun t ht => ?_⟩
    obtain ⟨n, hn, rfl⟩ := List.mem_map.mp ht
    exact (h n hn).hold_le
  refine ⟨_, _, ⟨lt_of_le_of_lt hlow (by decide), ?_⟩, rfl, ?_⟩
  · exact (by decide : OneWireTiming.readDrive + (OneWireTiming.readRelease +
      OneWireTiming.readDelayPost) < OneWireEmulateTiming.msgHighTimeout)
  rw [decide_eq_true_eq]
  have hiff : lineLow OneWireTiming.readDrive (bus.map fun n => n.proc.hold) ≤ readPoint ↔
      ¬∃ n ∈ bus, P n := by
    rw [lineLow_le_iff]
    constructor
    · rintro ⟨-, hle⟩ ⟨n, hn, hz⟩
      exact absurd (hle _ (List.mem_map_of_mem hn)) (not_le.mpr ((h n hn).pulls.mpr hz))
    · intro hno
      refine ⟨by decide, fun t ht => ?_⟩
      obtain ⟨n, hn, rfl⟩ := List.mem_map.mp ht
      exact not_lt.mp fun hlt => hno ⟨n, hn, (h n hn).pulls.mp hlt⟩
  exact hiff

theorem writeBit_eq (h : ∀ n ∈ bus, n.proc.hold = 0) (b : Bool) :
    bus.writeBit b = bus.map fun n => n.step (writeSlot b) := by
  have hlow : ∀ drive, lineLow drive (bus.map fun n => n.proc.hold) = drive := fun drive => by
    refine lineLow_eq_drive fun t ht => ?_
    obtain ⟨n, hn, rfl⟩ := List.mem_map.mp ht
    exact h n hn
  cases b <;> simp only [Bus.writeBit, Bus.slot, hlow] <;> rfl

theorem child_trie_map {b : Bool} :
    (∃ n ∈ bus, n.party.Child k w b) ↔ (trie (bus.map Node.party)).child k w b :=
  ⟨fun ⟨n, hn, hc⟩ => ⟨_, List.mem_map_of_mem hn, hc⟩, fun ⟨_, hp, hc⟩ => by
    obtain ⟨n, hn, rfl⟩ := List.mem_map.mp hp
    exact ⟨n, hn, hc⟩⟩

theorem searching_bit (h : ∀ n ∈ bus, Searching k w n) :
    ∃ idBit cmpIdBit bus₁ bus₂, bus.readBit = (idBit, bus₁) ∧ bus₁.readBit = (cmpIdBit, bus₂) ∧
      (idBit = true ↔ ¬(trie (bus.map Node.party)).child k w false) ∧
      (cmpIdBit = true ↔ ¬(trie (bus.map Node.party)).child k w true) ∧
      ∀ b, (bus₂.writeBit b).map Node.party = bus.map Node.party ∧
        ∀ n ∈ bus₂.writeBit b, Searching (k + 1) (Function.update w k b) n := by
  obtain ⟨idBit, slot, hslot, hread, hid⟩ := readBit_eq fun n hn => (h n hn).bitSlots.bit
  have hcomplement : ∀ n ∈ bus.map fun n => n.step slot, Shows n.proc (n.party.Child k w true) := by
    intro n' hn'
    obtain ⟨n, hn, rfl⟩ := List.mem_map.mp hn'
    exact (h n hn).bitSlots.complement slot hslot
  obtain ⟨cmpIdBit, slot', hslot', hread', hcmp⟩ := readBit_eq hcomplement
  rw [child_trie_map] at hid hcmp
  rw [map_step_party] at hcmp
  have hlisten : ∀ n ∈ (bus.map fun n => n.step slot).map fun n => n.step slot', n.proc.hold = 0 := by
    intro n' hn'
    rw [List.map_map] at hn'
    obtain ⟨n, hn, rfl⟩ := List.mem_map.mp hn'
    exact (h n hn).bitSlots.listens slot slot' hslot hslot'
  refine ⟨idBit, cmpIdBit, _, _, hread, hread', hid, hcmp, fun b => ?_⟩
  rw [writeBit_eq hlisten b]
  constructor
  · rw [map_step_party, map_step_party, map_step_party]
  · intro n' hn'
    rw [List.map_map, List.map_map] at hn'
    obtain ⟨n, hn, rfl⟩ := List.mem_map.mp hn'
    exact (h n hn).bitSlots.next slot slot' b hslot hslot'

end Bus

end FlipperZero.OneWire
