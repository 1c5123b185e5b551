import FlipperZero.OneWire.Bus

/-! # The search of the OneWire master

`OneWireMaster::search` walks the ROM codes on the bus, one call for each. Its loop
over the 64 bits runs on fuel, one unit for each turn.
-/

namespace FlipperZero.OneWire

structure OneWireMaster where
  savedRom : Rom
  lastDiscrepancy : ℕ
  lastFamilyDiscrepancy : ℕ
  lastDeviceFlag : Bool

namespace OneWireMaster

def resetSearch (m : OneWireMaster) : OneWireMaster :=
  { m with
    lastDiscrepancy := 0
    lastDeviceFlag := false
    lastFamilyDiscrepancy := 0
    savedRom := ⟨Vector.replicate 8 0⟩ }

/-- The counters as the failing exits of `search` leave them. -/
def resetCounters (m : OneWireMaster) : OneWireMaster :=
  { m with lastDiscrepancy := 0, lastDeviceFlag := false, lastFamilyDiscrepancy := 0 }

end OneWireMaster

/-- The locals of `search`. -/
structure SearchLoop where
  idBitNumber : ℕ
  lastZero : ℕ
  romByteNumber : ℕ
  romByteMask : BitVec 8

def SearchLoop.start : SearchLoop := ⟨1, 0, 0, 1⟩

namespace OneWireMaster

variable (m : OneWireMaster) (l : SearchLoop)

def searchDirection (idBit cmpIdBit : Bool) : Bool :=
  if idBit ≠ cmpIdBit then
    idBit
  else if l.idBitNumber < m.lastDiscrepancy then
    decide (m.savedRom.byte l.romByteNumber &&& l.romByteMask ≠ 0)
  else
    decide (l.idBitNumber = m.lastDiscrepancy)

/-- A discrepancy at which zero was picked is recorded, and again if it is in the family code. -/
def recordZero (idBit cmpIdBit direction : Bool) : OneWireMaster × SearchLoop :=
  if idBit = cmpIdBit ∧ direction = false then
    (if l.idBitNumber < 9 then { m with lastFamilyDiscrepancy := l.idBitNumber } else m,
      { l with lastZero := l.idBitNumber })
  else
    (m, l)

def saveBit (direction : Bool) : OneWireMaster :=
  { m with
    savedRom := m.savedRom.setByte l.romByteNumber
      (if direction then m.savedRom.byte l.romByteNumber ||| l.romByteMask
        else m.savedRom.byte l.romByteNumber &&& ~~~l.romByteMask) }

end OneWireMaster

def SearchLoop.advance (l : SearchLoop) : SearchLoop :=
  if l.romByteMask <<< 1 = 0 then
    { l with
      idBitNumber := l.idBitNumber + 1
      romByteNumber := l.romByteNumber + 1
      romByteMask := 1 }
  else
    { l with idBitNumber := l.idBitNumber + 1, romByteMask := l.romByteMask <<< 1 }

namespace OneWireMaster

/-- The direction of a turn, and the master and the locals after it. -/
def takeBit (m : OneWireMaster) (l : SearchLoop) (idBit cmpIdBit : Bool) :
    Bool × OneWireMaster × SearchLoop :=
  let direction := m.searchDirection l idBit cmpIdBit
  let (m, l) := m.recordZero l idBit cmpIdBit direction
  (direction, m.saveBit l direction, l.advance)

def searchLoop : ℕ → OneWireMaster → SearchLoop → Bus → Option (OneWireMaster × SearchLoop × Bus)
  | 0, _, _, _ => none
  | fuel + 1, m, l, bus =>
    let (idBit, bus) := bus.readBit
    let (cmpIdBit, bus) := bus.readBit
    if idBit = true ∧ cmpIdBit = true then
      some (m, l, bus)
    else
      let (direction, m, l) := m.takeBit l idBit cmpIdBit
      let bus := bus.writeBit direction
      if l.romByteNumber < 8 then searchLoop fuel m l bus else some (m, l, bus)

/-- What a call of `search` returns and leaves behind. -/
structure SearchCall where
  searchResult : Bool
  newAddr : Rom
  master : OneWireMaster
  bus : Bus

/-- The end of `search`: no device found, or the ROM is copied out. -/
def finishSearch (m : OneWireMaster) (newAddr : Rom) (searchResult : Bool) (bus : Bus) :
    SearchCall :=
  if searchResult = false ∨ m.savedRom.byte 0 = 0 then
    ⟨false, newAddr, m.resetCounters, bus⟩
  else
    ⟨true, m.savedRom, m, bus⟩

def search (m : OneWireMaster) (newAddr : Rom) (searchMode : Bool) (bus : Bus) :
    Option SearchCall :=
  if m.lastDeviceFlag then
    some (m.finishSearch newAddr false bus)
  else
    match bus.reset with
    | (false, bus) => some ⟨false, newAddr, m.resetCounters, bus⟩
    | (true, bus) =>
      let bus := bus.write (if searchMode then 0xF0 else 0xEC)
      match searchLoop 64 m .start bus with
      | none => none
      | some (m, l, bus) =>
        if l.idBitNumber < 65 then
          some (m.finishSearch newAddr false bus)
        else
          let m := { m with lastDiscrepancy := l.lastZero }
          let m := if m.lastDiscrepancy = 0 then { m with lastDeviceFlag := true } else m
          some (m.finishSearch newAddr true bus)

/-- The calls of `search` one after another, from `reset_search` on. -/
def searches (m : OneWireMaster) (newAddr : Rom) (bus : Bus) : ℕ → Option SearchCall
  | 0 => m.resetSearch.search newAddr true bus
  | n + 1 => (searches m newAddr bus n).bind fun c => c.master.search c.newAddr true c.bus

end OneWireMaster

end FlipperZero.OneWire
