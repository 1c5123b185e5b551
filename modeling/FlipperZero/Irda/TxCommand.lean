import FlipperZero.Irda.CommonDecoder
import FlipperZero.Lib.MString

/-! # The ir_tx command

The arguments are a protocol, an address and a command. Both numbers are converted before
their text is looked at, and of the text only the length is tested: up to the next space for
the address, up to the end for the command.
-/

namespace FlipperZero.Irda.TxCommand

open Lib

/-- What is printed instead of a message being sent. -/
inductive TxError where
  | invalidInput
  | incorrectProtocol
  | invalidAddress
  | invalidCommand
  | busy
  deriving DecidableEq, Repr

def protocolText : IrdaProtocol → List Byte
  | .nec => ascii ['N', 'E', 'C']
  | .samsung32 => ascii ['S', 'A', 'M', 'S', 'U', 'N', 'G']

def readProtocol (protocolStr : List Byte) : Option IrdaProtocol :=
  if protocolStr = protocolText .nec then some .nec
  else if protocolStr = protocolText .samsung32 then some .samsung32
  else none

def sized (ws : ℕ) : Prop := ws = 4 ∨ ws = 6

instance (ws : ℕ) : Decidable (sized ws) := inferInstanceAs (Decidable (_ ∨ _))

/-- The end of `irda_cli_cmd_tx`; the mutex of the state is waited for and may be missed. -/
def readCommand (acquired : Bool) (protocol : IrdaProtocol) (address : BitVec 16)
    (args : List Byte) : Except TxError IrdaMessage :=
  let command := BitVec.ofNat 16 (strtoul args).1
  if sized args.length then
    if acquired then
      .ok {
        protocol
        address := address.zeroExtend 32
        command := command.zeroExtend 32
        «repeat» := false }
    else .error .busy
  else .error .invalidCommand

def readAddress (acquired : Bool) (protocol : IrdaProtocol) (args : List Byte) :
    Except TxError IrdaMessage :=
  let address := BitVec.ofNat 16 (strtoul args).1
  match stringSearchChar args spaceChar with
  | none => .error .invalidAddress
  | some ws =>
    if sized ws then readCommand acquired protocol address (stringStrim (stringRight args ws))
    else .error .invalidAddress

def irdaCliCmdTx (acquired : Bool) (args : List Byte) : Except TxError IrdaMessage :=
  match stringSearchChar args spaceChar with
  | none => .error .invalidInput
  | some ws =>
    match readProtocol (stringSetN args (some ws)) with
    | none => .error .incorrectProtocol
    | some protocol => readAddress acquired protocol (stringStrim (stringRight args ws))

section Grammar

/-- Four digits, with or without the prefix, and their value. -/
def HexWord (text : List Byte) (value : ℕ) : Prop :=
  ∃ digits, (text = digits ∨ text = 0x30#8 :: 0x78#8 :: digits) ∧ digits.length = 4 ∧
    IsHex digits ∧ value = magnitude digits

/-- The protocol, a space, and the two words with nothing but spaces before them. -/
def Laid (args : List Byte) (protocol : IrdaProtocol) (address command : List Byte) : Prop :=
  ∃ m n, args = protocolText protocol ++ spaceChar ::
    (List.replicate m spaceChar ++ (address ++ (List.replicate (n + 1) spaceChar ++ command)))

def AsksToSend (args : List Byte) (protocol : IrdaProtocol) (address command : ℕ) : Prop :=
  ∃ a c, Laid args protocol a c ∧ HexWord a address ∧ HexWord c command

def txMessage (protocol : IrdaProtocol) (address command : ℕ) : IrdaMessage :=
  ⟨protocol, BitVec.ofNat 32 address, BitVec.ofNat 32 command, false⟩

/-- A message is sent exactly for arguments of the grammar, with their numbers; otherwise an
error is printed. -/
structure SendsExactly (args : List Byte) (outcome : Except TxError IrdaMessage) : Prop where
  sends : (∃ message, outcome = .ok message) ↔
    ∃ protocol address command, AsksToSend args protocol address command
  takes : ∀ protocol address command, AsksToSend args protocol address command →
    outcome = .ok (txMessage protocol address command)

/-- The first word after the protocol and what follows it, each trimmed. -/
def Words (args : List Byte) (protocol : IrdaProtocol) (address command : List Byte) : Prop :=
  ∃ rest rest', args = protocolText protocol ++ spaceChar :: rest ∧
    stringStrim (spaceChar :: rest) = address ++ spaceChar :: rest' ∧ spaceChar ∉ address ∧
    stringStrim (spaceChar :: rest') = command

/-- The words have lengths that a number could have. -/
def Passes (args : List Byte) (protocol : IrdaProtocol) (address command : List Byte) : Prop :=
  Words args protocol address command ∧ sized address.length ∧ sized command.length

/-- The words are numbers, and the arguments have spaces only around them. -/
def WellFormed (args : List Byte) (protocol : IrdaProtocol) (address command : List Byte) : Prop :=
  Laid args protocol address command ∧ (∃ value, HexWord address value) ∧
    ∃ value, HexWord command value

end Grammar

variable {args text s : List Byte} {a c : List Byte} {protocol protocol' : IrdaProtocol}
  {address command value : ℕ} {acquired : Bool} {message : IrdaMessage}

theorem HexWord.length (h : HexWord text value) : sized text.length := by
  obtain ⟨digits, rfl | rfl, hlength, -⟩ := h
  · exact .inl hlength
  · exact .inr (congrArg (· + 2) hlength)

theorem HexWord.ne_nil (h : HexWord text value) : text ≠ [] := by
  rintro rfl
  rcases h.length with h | h
  · cases h
  · cases h

theorem HexWord.not_isTrimmed (h : HexWord text value) : ∀ b ∈ text, isTrimmed b = false := by
  obtain ⟨digits, htext, -, hdigits, -⟩ := h
  have hall : ∀ b ∈ digits, isTrimmed b = false := by
    intro b hb
    obtain ⟨m, hm⟩ := Option.isSome_iff_exists.mp (hdigits b hb)
    exact not_isTrimmed_of_hexValue hm
  rcases htext with rfl | rfl
  · exact hall
  · intro b hb
    rcases List.mem_cons.mp hb with rfl | hb
    · rfl
    · rcases List.mem_cons.mp hb with rfl | hb
      · rfl
      · exact hall b hb

theorem HexWord.space_not_mem (h : HexWord text value) : spaceChar ∉ text := by
  intro hmem
  exact absurd (h.not_isTrimmed _ hmem) (by decide)

theorem HexWord.strtoul (h : HexWord text value) (hs : ∀ d ∈ s.head?, hexValue d = none) :
    strtoul (text ++ s) = (value, s) := by
  obtain ⟨digits, htext, hlength, hdigits, rfl⟩ := h
  apply strtoul_of_convert _ (by omega)
  rcases htext with rfl | rfl
  · exact convert_digits (by omega) hdigits hs
  · exact convert_prefixed (by omega) hdigits hs

theorem HexWord.exists_digit (h : HexWord text value) : ∃ b ∈ text, (hexValue b).isSome := by
  obtain ⟨digits, htext, hlength, hdigits, -⟩ := h
  obtain ⟨b, hb⟩ := List.exists_mem_of_length_pos (l := digits) (by omega)
  refine ⟨b, ?_, hdigits b hb⟩
  rcases htext with rfl | rfl
  · exact hb
  · exact List.mem_cons_of_mem _ (List.mem_cons_of_mem _ hb)

theorem HexWord.value_lt (h : HexWord text value) : value < 2 ^ 16 := by
  obtain ⟨digits, -, hlength, -, rfl⟩ := h
  have hlt := @magnitude_lt digits
  rw [hlength] at hlt
  exact hlt

theorem space_not_mem_protocolText : spaceChar ∉ protocolText protocol := by
  cases protocol <;> decide

theorem protocolText_injective (h : protocolText protocol = protocolText protocol') :
    protocol = protocol' := by
  cases protocol <;> cases protocol' <;> first | rfl | exact absurd h (by decide)

theorem readProtocol_eq_some :
    readProtocol text = some protocol ↔ text = protocolText protocol := by
  unfold readProtocol
  constructor
  · intro h
    split at h
    · next htext => exact Option.some.inj h ▸ htext
    · split at h
      · next htext => exact Option.some.inj h ▸ htext
      · cases h
  · rintro rfl
    cases protocol <;> rfl

theorem Laid.words (h : Laid args protocol a c) (ha : HexWord a address) (hc : HexWord c command) :
    Words args protocol a c := by
  obtain ⟨m, n, rfl⟩ := h
  have hspaces : ∀ k, ∀ d ∈ spaceChar :: List.replicate k spaceChar, isTrimmed d = true := by
    intro k d hd
    rcases List.mem_cons.mp hd with rfl | hd
    · rfl
    · rw [List.eq_of_mem_replicate hd]
      rfl
  refine ⟨_, List.replicate n spaceChar ++ c, rfl, ?_, ha.space_not_mem, ?_⟩
  · have hcons : List.replicate (n + 1) spaceChar ++ c =
        spaceChar :: (List.replicate n spaceChar ++ c) := rfl
    rw [hcons, ← List.cons_append]
    apply stringStrim_of_ends (hspaces m)
    · simp
    · intro d hd
      rw [List.head?_append_of_ne_nil a ha.ne_nil] at hd
      exact ha.not_isTrimmed d (List.mem_of_mem_head? hd)
    · intro d hd
      rw [List.getLast?_append_of_ne_nil _ (List.cons_ne_nil _ _), ← List.cons_append,
        List.getLast?_append_of_ne_nil _ hc.ne_nil] at hd
      exact hc.not_isTrimmed d (List.mem_of_getLast? hd)
  · rw [← List.cons_append]
    apply stringStrim_of_ends (hspaces n) hc.ne_nil
    · exact fun d hd => hc.not_isTrimmed d (List.mem_of_mem_head? hd)
    · exact fun d hd => hc.not_isTrimmed d (List.mem_of_getLast? hd)

theorem Words.unique {protocol' : IrdaProtocol} {a' c' : List Byte}
    (h : Words args protocol a c) (h' : Words args protocol' a' c') :
    protocol = protocol' ∧ a = a' ∧ c = c' := by
  obtain ⟨rest, after, rfl, hstrim, ha, rfl⟩ := h
  obtain ⟨rest', after', heq, hstrim', ha', rfl⟩ := h'
  obtain ⟨htext, rfl⟩ :=
    split_injective space_not_mem_protocolText space_not_mem_protocolText heq
  obtain ⟨rfl, rfl⟩ := split_injective ha ha' (hstrim.symm.trans hstrim')
  exact ⟨protocolText_injective htext, rfl, rfl⟩

theorem irdaCliCmdTx_of_passes (h : Passes args protocol a c) :
    ∃ rest, irdaCliCmdTx acquired args = if acquired then
      .ok {
        protocol
        address := (BitVec.ofNat 16 (strtoul (a ++ spaceChar :: rest)).1).zeroExtend 32
        command := (BitVec.ofNat 16 (strtoul c).1).zeroExtend 32
        «repeat» := false }
      else .error .busy := by
  obtain ⟨⟨rest, rest', rfl, hstrim, ha, rfl⟩, hsized, hsized'⟩ := h
  refine ⟨rest', ?_⟩
  have hprotocol : readProtocol (protocolText protocol) = some protocol :=
    readProtocol_eq_some.mpr rfl
  have hset : stringSetN (protocolText protocol ++ spaceChar :: rest)
      (some (protocolText protocol).length) = protocolText protocol := List.take_left
  have hright : stringRight (protocolText protocol ++ spaceChar :: rest)
      (protocolText protocol).length = spaceChar :: rest := List.drop_left
  have hright' : stringRight (a ++ spaceChar :: rest') a.length = spaceChar :: rest' :=
    List.drop_left
  simp only [irdaCliCmdTx, stringSearchChar_append space_not_mem_protocolText, hset, hprotocol,
    hright, hstrim, readAddress, stringSearchChar_append ha, hsized, hright', readCommand, hsized',
    if_true]

theorem exists_passes (h : irdaCliCmdTx acquired args = .ok message) :
    ∃ protocol a c, Passes args protocol a c := by
  unfold irdaCliCmdTx at h
  cases hsearch : stringSearchChar args spaceChar with
  | none => simp [hsearch] at h
  | some ws =>
    obtain ⟨text, rest, rfl, rfl, -⟩ := of_stringSearchChar_some hsearch
    have hset : stringSetN (text ++ spaceChar :: rest) (some text.length) = text := List.take_left
    have hright : stringRight (text ++ spaceChar :: rest) text.length = spaceChar :: rest :=
      List.drop_left
    simp only [hsearch, hset, hright] at h
    cases hprotocol : readProtocol text with
    | none => simp [hprotocol] at h
    | some protocol =>
      simp only [hprotocol, readAddress] at h
      cases hsearch' : stringSearchChar (stringStrim (spaceChar :: rest)) spaceChar with
      | none => simp [hsearch'] at h
      | some ws =>
        obtain ⟨a, rest', hstrim, rfl, ha⟩ := of_stringSearchChar_some hsearch'
        have hright' : stringRight (a ++ spaceChar :: rest') a.length = spaceChar :: rest' :=
          List.drop_left
        simp only [hstrim, stringSearchChar_append ha, hright', readCommand] at h
        split at h
        · next hsized =>
          split at h
          · next hsized' =>
            have htext := readProtocol_eq_some.mp hprotocol
            exact ⟨protocol, a, _, ⟨rest, rest', by rw [htext], hstrim, ha, rfl⟩, hsized, hsized'⟩
          · cases h
        · cases h

theorem AsksToSend.sent (h : AsksToSend args protocol address command) :
    (∃ a c, Passes args protocol a c ∧ WellFormed args protocol a c) ∧
      irdaCliCmdTx true args = .ok (txMessage protocol address command) := by
  obtain ⟨a, c, hlaid, ha, hc⟩ := h
  have hpasses : Passes args protocol a c := ⟨hlaid.words ha hc, ha.length, hc.length⟩
  refine ⟨⟨a, c, hpasses, hlaid, ⟨_, ha⟩, ⟨_, hc⟩⟩, ?_⟩
  obtain ⟨rest, heq⟩ := @irdaCliCmdTx_of_passes args a c protocol true hpasses
  have haddress : strtoul (a ++ spaceChar :: rest) = (address, spaceChar :: rest) := by
    apply ha.strtoul
    rintro d ⟨⟩
    rfl
  have hcommand : strtoul (c ++ []) = (command, []) := by
    apply hc.strtoul
    rintro d ⟨⟩
  rw [List.append_nil] at hcommand
  have hvalue : ∀ value < 2 ^ 16,
      (BitVec.ofNat 16 value).zeroExtend 32 = BitVec.ofNat 32 value := by
    intro value hlt
    apply BitVec.eq_of_toNat_eq
    simp only [BitVec.toNat_setWidth, BitVec.toNat_ofNat]
    omega
  rw [heq, if_pos rfl, haddress, hcommand]
  simp only [hvalue address ha.value_lt, hvalue command hc.value_lt]
  rfl

theorem WellFormed.asks (h : WellFormed args protocol a c) :
    ∃ address command, AsksToSend args protocol address command := by
  obtain ⟨hlaid, ⟨address, ha⟩, command, hc⟩ := h
  exact ⟨address, command, a, c, hlaid, ha, hc⟩

/-- While the state can be had, the command accepts its grammar exactly where every text that
passes the tests of the lengths is well formed; otherwise it sends nothing at all. -/
theorem ir_tx_accepts_exactly (args : List Byte) :
    (SendsExactly args (irdaCliCmdTx true args) ↔
      ∀ protocol a c, Passes args protocol a c → WellFormed args protocol a c) ∧
    (SendsExactly args (irdaCliCmdTx false args) ↔
      ¬∃ protocol address command, AsksToSend args protocol address command) := by
  constructor
  · constructor
    · intro h protocol a c hpasses
      obtain ⟨rest, heq⟩ := @irdaCliCmdTx_of_passes args a c protocol true hpasses
      obtain ⟨protocol', address, command, hasks⟩ := h.sends.mp ⟨_, heq⟩
      obtain ⟨⟨a', c', hpasses', hformed⟩, -⟩ := hasks.sent
      obtain ⟨rfl, rfl, rfl⟩ := hpasses.1.unique hpasses'.1
      exact hformed
    · intro h
      refine ⟨⟨?_, ?_⟩, ?_⟩
      · rintro ⟨message, hmessage⟩
        obtain ⟨protocol, a, c, hpasses⟩ := exists_passes hmessage
        exact ⟨protocol, (h protocol a c hpasses).asks⟩
      · rintro ⟨protocol, address, command, hasks⟩
        exact ⟨_, hasks.sent.2⟩
      · exact fun protocol address command hasks => hasks.sent.2
  · have hnone : ¬∃ message, irdaCliCmdTx false args = .ok message := by
      rintro ⟨message, hmessage⟩
      obtain ⟨protocol, a, c, hpasses⟩ := exists_passes hmessage
      obtain ⟨rest, heq⟩ := @irdaCliCmdTx_of_passes args a c protocol false hpasses
      rw [heq] at hmessage
      cases hmessage
    constructor
    · exact fun h hasks => hnone (h.sends.mpr hasks)
    · intro h
      constructor
      · exact ⟨fun hsent => absurd hsent hnone, fun hasks => absurd hasks h⟩
      · exact fun protocol address command hasks => absurd ⟨_, _, _, hasks⟩ h

/-- Two words without a digit are sent as zeros. -/
theorem ir_tx_sends_no_digits : ¬∀ args, SendsExactly args (irdaCliCmdTx true args) := by
  intro h
  have hsends := h (ascii ['N', 'E', 'C', ' ', 'G', 'G', 'G', 'G', ' ', 'G', 'G', 'G', 'G'])
  obtain ⟨protocol, address, command, hasks⟩ := hsends.sends.mp ⟨_, rfl⟩
  obtain ⟨⟨a, c, hpasses, -, ⟨value, ha⟩, -⟩, -⟩ := hasks.sent
  have hwords : Words (ascii ['N', 'E', 'C', ' ', 'G', 'G', 'G', 'G', ' ', 'G', 'G', 'G', 'G']) .nec
      (ascii ['G', 'G', 'G', 'G']) (ascii ['G', 'G', 'G', 'G']) :=
    ⟨_, _, rfl, rfl, by decide, rfl⟩
  obtain ⟨-, rfl, -⟩ := hwords.unique hpasses.1
  obtain ⟨b, hb, hdigit⟩ := ha.exists_digit
  exact absurd hdigit (by revert b; decide)

end FlipperZero.Irda.TxCommand
