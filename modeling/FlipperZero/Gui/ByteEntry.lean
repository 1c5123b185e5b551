import FlipperZero.Gui.ByteInput

/-! # Entering bytes

Digits are entered by moving the cursor on the keyboard and pressing OK on their keys. Two digits
for each byte, entered from the start, leave the bytes that they spell in the array.
-/

namespace FlipperZero.Gui

open Input

def digitKey (digit : Fin 16) : Char :=
  .ofNat (if digit.val < 10 then '0'.toNat + digit.val else 'A'.toNat - 10 + digit.val)

def spell : List (Fin 16) → List UInt8
  | high :: low :: digits => .ofNat (16 * high + low) :: spell digits
  | _ => []

def highNibble (byte : UInt8) : Fin 16 := ⟨byte.toNat / 16, by have := byte.toNat_lt; omega⟩

theorem nibbleValue_digitKey (digit : Fin 16) : nibbleValue (digitKey digit) = .ofNat digit := by
  revert digit
  decide

theorem digitKey_ne (digit : Fin 16) :
    digitKey digit ≠ enterSymbol ∧ digitKey digit ≠ backspaceSymbol := by
  revert digit
  decide

theorem exists_low (byte : UInt8) : ∃ low : Fin 16, byte &&& 0x0F = .ofNat low := by
  have h : ∀ b : Fin 256, UInt8.ofFin b &&& 0x0F = .ofNat (b % 16) := by decide +kernel
  exact ⟨⟨_, Nat.mod_lt _ (by decide)⟩, h byte.toFin⟩

theorem and_high (byte : UInt8) : byte &&& 0xF0 = .ofNat (16 * highNibble byte) := by
  have h : ∀ b : Fin 256, UInt8.ofFin b &&& 0xF0 = .ofNat (16 * highNibble (.ofFin b)) := by
    decide +kernel
  exact h byte.toFin

theorem highNibble_replaceNibble (byte : UInt8) (digit : Fin 16) :
    highNibble (replaceNibble byte (.ofNat digit) true) = digit := by
  have h : ∀ low d : Fin 16,
      highNibble (UInt8.ofNat low ||| UInt8.ofNat d <<< (4 : UInt8)) = d := by decide +kernel
  obtain ⟨low, hlow⟩ := exists_low byte
  rw [replaceNibble, if_pos rfl, hlow, h]

theorem replaceNibble_low (byte : UInt8) (digit : Fin 16) :
    replaceNibble byte (.ofNat digit) false = .ofNat (16 * highNibble byte + digit) := by
  have h : ∀ high d : Fin 16, UInt8.ofNat (16 * high) ||| UInt8.ofNat d =
      .ofNat (16 * high + d) := by decide +kernel
  rw [replaceNibble, if_neg Bool.false_ne_true, and_high, h]

namespace ByteInputModel

def PressesOk (event : InputEvent) : Prop :=
  event.key = .ok ∧ (event.type = .short ∨ event.type = .repeated)

/-- The events move the cursor on the keyboard and press OK on the keys of the digits. -/
inductive Types : ByteInputModel → List InputEvent → List (Fin 16) → Prop
  | nil (model : ByteInputModel) : Types model [] []
  | move {model : ByteInputModel} {result : ByteInputModel × Option ByteInputCallback}
      {event : InputEvent} {events : List InputEvent} {digits : List (Fin 16)}
      (hmove : ¬PressesOk event) (hinput : model.inputCallback event = some result)
      (hkeyboard : result.1.keyboardSelected) (htypes : Types result.1 events digits) :
      Types model (event :: events) digits
  | press {model : ByteInputModel} {result : ByteInputModel × Option ByteInputCallback}
      {event : InputEvent} {events : List InputEvent} {digit : Fin 16} {digits : List (Fin 16)}
      (hpress : PressesOk event) (hkey : model.selectedKey = some (digitKey digit))
      (hinput : model.inputCallback event = some result)
      (htypes : Types result.1 events digits) : Types model (event :: events) (digit :: digits)

variable {model : ByteInputModel} {n : ℕ} {event : InputEvent} {events : List InputEvent}
  {digits : List (Fin 16)} {digit : Fin 16} {result : ByteInputModel × Option ByteInputCallback}

/-- Another model has the same array, selection and half. -/
structure SameEntry (model model' : ByteInputModel) : Prop where
  bytes : model'.bytes = model.bytes
  selectedByte : model'.selectedByte = model.selectedByte
  selectedHighNibble : model'.selectedHighNibble = model.selectedHighNibble

theorem sameEntry_of_move (hselected : model.keyboardSelected) (hmove : ¬PressesOk event)
    (hinput : model.inputCallback event = some result) : model.SameEntry result.1 := by
  unfold inputCallback at hinput
  split at hinput
  · next htype =>
    obtain ⟨key, type⟩ := event
    cases key with
    | ok => exact absurd ⟨rfl, htype⟩ hmove
    | back =>
      obtain rfl := Option.some.inj hinput
      exact ⟨rfl, rfl, rfl⟩
    | up =>
      obtain rfl := Option.some.inj hinput
      unfold handleUp
      split <;> exact ⟨rfl, rfl, rfl⟩
    | down =>
      obtain rfl := Option.some.inj hinput
      rw [handleDown, if_pos hselected]
      split <;> exact ⟨rfl, rfl, rfl⟩
    | left =>
      obtain rfl := Option.some.inj hinput
      rw [handleLeft, if_pos hselected]
      exact ⟨rfl, rfl, rfl⟩
    | right =>
      obtain rfl := Option.some.inj hinput
      rw [handleRight, if_pos hselected]
      exact ⟨rfl, rfl, rfl⟩
  · obtain rfl := Option.some.inj hinput
    exact ⟨rfl, rfl, rfl⟩

def entered (model : ByteInputModel) (digit : Fin 16) (byte : UInt8) : List UInt8 :=
  model.bytes.set model.selectedByte.toNat
    (replaceNibble byte (.ofNat digit) model.selectedHighNibble)

/-- The selection after the second digit of a byte. -/
def nextByte (model : ByteInputModel) (n : ℕ) : ℕ :=
  if model.selectedByte.toNat + 1 < n then model.selectedByte.toNat + 1
  else model.selectedByte.toNat

theorem selectedByte_inc (h : model.Placed n) :
    model.incSelectedByte.selectedByte.toNat = model.nextByte n := by
  have hcount := h.bytesCount
  have hselected := h.selectedByte
  have hbyte := model.bytesCount.toNat_lt
  unfold incSelectedByte nextByte
  split
  · next hlast =>
    rw [if_pos (by omega)]
    change (model.selectedByte + 1).toNat = _
    rw [UInt8.toNat_add, UInt8.toNat_one]
    omega
  · next hlast => rw [if_neg (by omega)]

theorem bytes_inc : model.incSelectedByte.bytes = model.bytes := by
  unfold incSelectedByte
  split <;> rfl

theorem selectedRow_inc : model.incSelectedByte.selectedRow = model.selectedRow := by
  unfold incSelectedByte
  split <;> rfl

theorem pressKey_digit (h : model.Placed n) (hselected : model.keyboardSelected) (digit : Fin 16) :
    ∃ byte result, model.bytes[model.selectedByte.toNat]? = some byte ∧
      model.pressKey (digitKey digit) = some result ∧
      result.1.bytes = model.entered digit byte ∧ result.1.keyboardSelected ∧
      result.1.selectedHighNibble = !model.selectedHighNibble ∧
      result.1.selectedByte.toNat =
        if model.selectedHighNibble then model.selectedByte.toNat else model.nextByte n := by
  have hinside : model.selectedByte.toNat < model.bytes.length := by
    rw [h.length]
    exact h.selectedByte
  have hkeyboard : 0 ≤ model.selectedRow := hselected
  obtain ⟨henter, hbackspace⟩ := digitKey_ne digit
  have hwritten (bytes : List UInt8) (hlength : bytes.length = model.bytes.length) :
      ByteInputModel.Placed { model with bytes } n := { h with length := hlength.trans h.length }
  cases hhigh : model.selectedHighNibble with
  | true =>
    refine ⟨_, ({ model with
      bytes := model.entered digit model.bytes[model.selectedByte.toNat]
      selectedHighNibble := false }, some .changed),
      List.getElem?_eq_getElem hinside, ?_, rfl, hkeyboard, rfl, rfl⟩
    rw [pressKey, if_neg henter, if_neg hbackspace, byteInputSetNibble,
      List.getElem?_eq_getElem hinside, Option.map_some, Option.map_some, nibbleValue_digitKey,
      entered, hhigh]
    rfl
  | false =>
    have hplaced := hwritten (model.entered digit model.bytes[model.selectedByte.toNat])
      List.length_set
    refine ⟨_, ({ (ByteInputModel.incSelectedByte { model with
      bytes := model.entered digit model.bytes[model.selectedByte.toNat] }) with
      selectedHighNibble := true }, some .changed),
      List.getElem?_eq_getElem hinside, ?_, bytes_inc, ?_, rfl, selectedByte_inc hplaced⟩
    · rw [pressKey, if_neg henter, if_neg hbackspace, byteInputSetNibble,
        List.getElem?_eq_getElem hinside, Option.map_some, Option.map_some, nibbleValue_digitKey,
        entered, hhigh]
      rfl
    · unfold keyboardSelected
      rw [selectedRow_inc]
      exact hkeyboard

theorem inputCallback_press (hselected : model.keyboardSelected) (hpress : PressesOk event)
    (hkey : model.selectedKey = some (digitKey digit)) :
    model.inputCallback event = model.pressKey (digitKey digit) := by
  obtain ⟨key, type⟩ := event
  obtain ⟨rfl, htype⟩ := hpress
  rw [inputCallback, if_pos htype, handleOk, if_pos hselected, hkey]
  rfl

theorem Types.spells (htypes : Types model events digits) (h : model.Placed n)
    (hselected : model.keyboardSelected) : ∃ model', model.inputs events = some model' ∧
      (digits = [] → model'.bytes = model.bytes) ∧
      (model.selectedHighNibble = true → digits.length = 2 * (n - model.selectedByte.toNat) →
        model'.bytes = model.bytes.take model.selectedByte.toNat ++ spell digits) ∧
      (model.selectedHighNibble = false → digits.length + 1 = 2 * (n - model.selectedByte.toNat) →
        ∀ byte, model.bytes[model.selectedByte.toNat]? = some byte →
        model'.bytes =
          model.bytes.take model.selectedByte.toNat ++ spell (highNibble byte :: digits)) := by
  induction htypes with
  | nil model =>
    have hlt := h.selectedByte
    refine ⟨model, rfl, fun _ => rfl, fun _ hlen => ?_, fun _ hlen => ?_⟩
    · rw [List.length_nil] at hlen
      omega
    · rw [List.length_nil] at hlen
      omega
  | @move model result event events digits hmove hinput hkeyboard htypes ih =>
    obtain ⟨result', hresult', hplaced⟩ := h.inputCallback event
    obtain rfl := Option.some.inj (hinput.symm.trans hresult')
    obtain ⟨hbytes, hbyte, hhigh⟩ := sameEntry_of_move hselected hmove hinput
    obtain ⟨model', hrun, hspells⟩ := ih hplaced hkeyboard
    rw [hbytes, hbyte, hhigh] at hspells
    exact ⟨model', (inputs_cons hinput).trans hrun, hspells⟩
  | @press model result event events digit digits hpress hkey hinput htypes ih =>
    have hlt := h.selectedByte
    obtain ⟨byte, result', hbyte, hresult', hbytes, hkeyboard, hhigh, hnext⟩ :=
      pressKey_digit h hselected digit
    have hcallback := inputCallback_press hselected hpress hkey
    obtain rfl := Option.some.inj (hinput.symm.trans (hcallback.trans hresult'))
    obtain ⟨result'', hresult'', hplaced⟩ := h.inputCallback event
    obtain rfl := Option.some.inj (hinput.symm.trans hresult'')
    obtain ⟨model', hrun, hnil, hupper, hlower⟩ := ih hplaced hkeyboard
    refine ⟨model', (inputs_cons hinput).trans hrun, fun h => absurd h (List.cons_ne_nil _ _),
      ?_, ?_⟩
    · intro hhalf hlen
      rw [List.length_cons] at hlen
      rw [hhalf, if_pos rfl] at hnext
      rw [hhalf] at hhigh
      have hset : result.1.bytes[model.selectedByte.toNat]? =
          some (replaceNibble byte (.ofNat digit) true) := by
        rw [hbytes, entered, hhalf, List.getElem?_set_self (by rw [h.length]; exact hlt)]
      rw [hnext] at hlower
      rw [hlower hhigh (by omega) _ hset, hbytes, entered, List.take_set_of_le (Nat.le_refl _),
        highNibble_replaceNibble]
    · intro hhalf hlen byte' hbyte'
      obtain rfl := Option.some.inj (hbyte.symm.trans hbyte')
      rw [List.length_cons] at hlen
      rw [hhalf, if_neg Bool.false_ne_true] at hnext
      rw [hhalf] at hhigh
      have hspell : result.1.bytes = model.bytes.set model.selectedByte.toNat
          (.ofNat (16 * highNibble byte + digit)) := by
        rw [hbytes, entered, hhalf, replaceNibble_low]
      cases digits with
      | nil =>
        rw [List.length_nil] at hlen
        rw [hnil rfl, hspell, List.set_eq_take_append_cons_drop,
          if_pos (by rw [h.length]; exact hlt), List.drop_eq_nil_of_le (by rw [h.length]; omega)]
        rfl
      | cons digit' digits =>
        rw [List.length_cons] at hlen
        rw [nextByte, if_pos (by omega)] at hnext
        rw [hnext] at hupper
        rw [hupper hhigh (by rw [List.length_cons]; omega), hspell, List.take_add_one,
          List.take_set_of_le (Nat.le_refl _),
          List.getElem?_set_self (by rw [h.length]; exact hlt), List.append_assoc]
        rfl

/-- The events move the cursor so that another model is reached. -/
def Leads (model : ByteInputModel) (events : List InputEvent) (model' : ByteInputModel) : Prop :=
  ∀ {later digits}, Types model' later digits → Types model (events ++ later) digits

theorem leads_right (h : model.Placed n) (hselected : model.keyboardSelected) : Leads model
    [⟨.right, .short⟩]
    { model with selectedColumn := .ofNat ((model.selectedColumn.toNat + 1) % 9) } := by
  intro later digits htypes
  have hcolumn := h.selectedColumn
  have hnine : (9 : UInt8).toNat = 9 := rfl
  have hright : model.handleRight =
      { model with selectedColumn := .ofNat ((model.selectedColumn.toNat + 1) % 9) } := by
    rw [handleRight, if_pos hselected, h.getRowSize hselected]
    congr 1
    split
    · next hlast =>
      rw [Nat.mod_eq_of_lt (by omega), ← UInt8.toNat_inj, UInt8.toNat_add, UInt8.toNat_one]
      exact rfl
    · next hlast =>
      have hend : model.selectedColumn.toNat = 8 := by omega
      rw [hend]
      rfl
  rw [← hright] at htypes
  have hkeyboard : model.handleRight.keyboardSelected := by
    rw [hright]
    exact hselected
  exact .move (fun hpress => (by cases hpress.1)) rfl hkeyboard htypes

theorem exists_leads_column (k : ℕ) (h : model.Placed n) (hselected : model.keyboardSelected) :
    ∃ events, Leads model events
      { model with selectedColumn := .ofNat ((model.selectedColumn.toNat + k) % 9) } := by
  induction k generalizing model with
  | zero =>
    have hsame : ({ model with
        selectedColumn := .ofNat ((model.selectedColumn.toNat + 0) % 9) } : ByteInputModel) =
          model := by
      rw [Nat.add_zero, Nat.mod_eq_of_lt h.selectedColumn, UInt8.ofNat_toNat]
    rw [hsame]
    exact ⟨[], fun htypes => htypes⟩
  | succ k ih =>
    have hmod : (model.selectedColumn.toNat + 1) % 9 < 9 := Nat.mod_lt _ (by decide)
    have hcolumn : (UInt8.ofNat ((model.selectedColumn.toNat + 1) % 9)).toNat =
        (model.selectedColumn.toNat + 1) % 9 :=
      UInt8.toNat_ofNat_of_lt' (Nat.lt_trans hmod (by decide))
    have hmoved : ByteInputModel.Placed
        { model with selectedColumn := .ofNat ((model.selectedColumn.toNat + 1) % 9) } n :=
      { h with selectedColumn := Nat.lt_of_le_of_lt (Nat.le_of_eq hcolumn) hmod }
    obtain ⟨events, hevents⟩ := ih hmoved hselected
    refine ⟨[⟨.right, .short⟩] ++ events, fun htypes => ?_⟩
    rw [List.append_assoc]
    apply leads_right h hselected
    apply hevents
    simp only [hcolumn, Nat.mod_add_mod, Nat.add_assoc, Nat.add_comm 1 k] 
    exact htypes

theorem exists_leads_row (h : model.Placed n) (hselected : model.keyboardSelected) {row : Int8}
    (hrow : row = 0 ∨ row = 1) :
    ∃ events, Leads model events { model with selectedRow := row } := by
  have hstay : Leads model [] { model with selectedRow := model.selectedRow } :=
    fun htypes => htypes
  have hup : model.selectedRow = 1 →
      Leads model [⟨.up, .short⟩] { model with selectedRow := 0 } := by
    intro hone later digits htypes
    have hmove : model.handleUp = { model with selectedRow := 0 } := by
      rw [handleUp, hone, if_pos (by decide)]
      rfl
    rw [← hmove] at htypes
    refine .move (fun hpress => (by cases hpress.1)) rfl ?_ htypes
    rw [hmove]
    exact Int8.le_refl 0
  have hdown : model.selectedRow = 0 →
      Leads model [⟨.down, .short⟩] { model with selectedRow := 1 } := by
    intro hzero later digits htypes
    have hmove : model.handleDown = { model with selectedRow := 1 } := by
      rw [handleDown, if_pos hselected, hzero, if_pos (by decide)]
      rfl
    rw [← hmove] at htypes
    refine .move (fun hpress => (by cases hpress.1)) rfl ?_ htypes
    rw [hmove]
    exact (by decide : (0 : Int8) ≤ 1)
  rcases h.keyboard hselected with hold | hold <;> rcases hrow with rfl | rfl
  · exact ⟨[], hold ▸ hstay⟩
  · exact ⟨_, hdown hold⟩
  · exact ⟨_, hup hold⟩
  · exact ⟨[], hold ▸ hstay⟩

def digitRow (digit : Fin 16) : Int8 := if digit.val < 8 then 0 else 1

theorem getRow_digitRow (digit : Fin 16) :
    ((byteInputGetRow (digitRow digit).toUInt8).bind fun row =>
      row[(UInt8.ofNat (digit.val % 8)).toNat]?) = some (digitKey digit) := by
  revert digit
  decide

theorem exists_leads_key (h : model.Placed n) (hselected : model.keyboardSelected)
    (digit : Fin 16) : ∃ events model', Leads model events model' ∧ model'.Placed n ∧
      model'.keyboardSelected ∧ model'.selectedKey = some (digitKey digit) := by
  have hrow : digitRow digit = 0 ∨ digitRow digit = 1 := by
    unfold digitRow
    split
    · exact .inl rfl
    · exact .inr rfl
  have hrowSelected : 0 ≤ digitRow digit := by
    rcases hrow with hrow | hrow <;> rw [hrow] <;> decide
  have hturned : ByteInputModel.Placed { model with selectedRow := digitRow digit } n :=
    { h with selectedRow := .inr hrow }
  have hcolumn := h.selectedColumn
  have hmod : (model.selectedColumn.toNat + (9 - model.selectedColumn.toNat + digit.val % 8)) % 9 =
      digit.val % 8 := by omega
  obtain ⟨rowEvents, hrowEvents⟩ := exists_leads_row h hselected hrow
  obtain ⟨columnEvents, hcolumnEvents⟩ :=
    exists_leads_column (9 - model.selectedColumn.toNat + digit.val % 8) hturned hrowSelected
  simp only [hmod] at hcolumnEvents
  refine ⟨rowEvents ++ columnEvents,
    { model with selectedRow := digitRow digit, selectedColumn := .ofNat (digit.val % 8) }, ?_,
    { hturned with selectedColumn := ?_ }, hrowSelected, getRow_digitRow digit⟩
  · intro later digits htypes
    rw [List.append_assoc]
    exact hrowEvents (hcolumnEvents htypes)
  · have hlt : digit.val % 8 < 9 := by omega
    rw [UInt8.toNat_ofNat_of_lt' (Nat.lt_trans hlt (by decide))]
    exact hlt

theorem exists_types (digits : List (Fin 16)) (h : model.Placed n)
    (hselected : model.keyboardSelected) : ∃ events, Types model events digits := by
  induction digits generalizing model with
  | nil => exact ⟨[], .nil model⟩
  | cons digit digits ih =>
    obtain ⟨moves, model', hmoves, hplaced, hkeyboard, hkey⟩ := exists_leads_key h hselected digit
    obtain ⟨byte, result, -, hresult, -, hstill, -⟩ := pressKey_digit hplaced hkeyboard digit
    have hpress : PressesOk ⟨.ok, .short⟩ := ⟨rfl, .inl rfl⟩
    have hinput := (inputCallback_press hkeyboard hpress hkey).trans hresult
    obtain ⟨result', hresult', hplaced'⟩ := hplaced.inputCallback ⟨.ok, .short⟩
    obtain rfl := Option.some.inj (hinput.symm.trans hresult')
    obtain ⟨events, hevents⟩ := ih hplaced' hstill
    exact ⟨_, hmoves (.press hpress hkey hinput hevents)⟩

end ByteInputModel

open ByteInputModel

/-- Every sequence of inputs keeps the selection in the array and in its window and the cursor on
the keyboard, without an access outside of either. Two digits for each byte can be entered, and
however they are, the array then holds the bytes that they spell. -/
theorem byte_input_edits (bytes : List UInt8) (bytesCount : UInt8)
    (hlength : bytes.length = bytesCount.toNat) (hcount : 0 < bytesCount) :
    (∀ events, ∃ model, (setResultCallback bytes bytesCount).inputs events = some model ∧
      model.Placed bytesCount.toNat) ∧
    ∀ digits : List (Fin 16), digits.length = 2 * bytes.length →
      (∃ events, Types (setResultCallback bytes bytesCount) events digits) ∧
      ∀ events, Types (setResultCallback bytes bytesCount) events digits →
        ∃ model, (setResultCallback bytes bytesCount).inputs events = some model ∧
          model.bytes = spell digits := by
  have hplaced := placed_setResultCallback hlength hcount
  have hselected : (setResultCallback bytes bytesCount).keyboardSelected := Int8.le_refl 0
  refine ⟨hplaced.inputs, fun digits hdigits => ⟨exists_types digits hplaced hselected, ?_⟩⟩
  intro events htypes
  obtain ⟨model, hrun, -, hspells, -⟩ := htypes.spells hplaced hselected
  exact ⟨model, hrun, hspells rfl (by rw [hdigits, hlength]; rfl)⟩

/-- An array of two bytes in which the digits 1, 2, A and F are entered. -/
theorem byte_input_edits_two : ∃ events model,
    (setResultCallback [0, 0] 2).inputs events = some model ∧ model.bytes = [0x12, 0xAF] := by
  obtain ⟨⟨events, hevents⟩, hspells⟩ :=
    (byte_input_edits [0, 0] 2 rfl (by decide)).2 [1, 2, 10, 15] rfl
  obtain ⟨model, hrun, hbytes⟩ := hspells events hevents
  exact ⟨events, model, hrun, hbytes⟩

end FlipperZero.Gui
