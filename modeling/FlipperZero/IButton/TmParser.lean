import FlipperZero.IButton.KeyLoad
import FlipperZero.IButton.TmCommand
import FlipperZero.Lib.MString

/-! # The arguments of the tm command

The type of the current key is set as soon as its code is read, and the bytes are converted one
by one: a conversion is only asked whether it ran to the end of the arguments, and all but the
last byte whether a space follows two characters.
-/

namespace FlipperZero.IButton

open Lib Firmware App

inductive CliMessage where
  | usage
  | usageWrite
  | keyType
  | keyData (digits : ℕ)
deriving DecidableEq, Repr

structure CliOutcome where
  scene : Option TmCommand
  key : IButtonKey
  message : Option CliMessage

/-- A byte, what is left of the arguments and whether to go on. -/
def readHexByte (args : List Byte) : Byte × List Byte × Bool :=
  let byte := BitVec.ofNat 8 (strtoul args).1
  if (strtoul args).2 = [] then (byte, args, false)
  else if stringSearchChar args spaceChar ≠ some 2 then (byte, args, false)
  else (byte, stringStrim (stringRight args 2), true)

/-- The loop over the bytes, which advances before it looks at the result. -/
def readHexBytes : (left : ℕ) → List Byte → List Byte
  | 0, _ => []
  | left + 1, args =>
    (readHexByte args).1 ::
      if (readHexByte args).2.2 then readHexBytes left (readHexByte args).2.1 else []

def readText : List Byte := ascii ['r', 'e', 'a', 'd']

def writeText : List Byte := ascii ['w', 'r', 'i', 't', 'e']

def emulateText : List Byte := ascii ['e', 'm', 'u', 'l', 'a', 't', 'e']

def parseCommand (cmd : List Byte) : Option TmCommand :=
  if cmd = writeText then some .write
  else if cmd = emulateText then some .emulate
  else none

def parseKeyType (keyType : List Byte) : Option IButtonKeyType :=
  if keyType = [0x30#8] then some .keyDallas
  else if keyType = [0x31#8] then some .keyCyfral
  else if keyType = [0x32#8] then some .keyMetakom
  else none

/-- The end of `cli_cmd_callback`, with the type of the key set. -/
def readKeyData (command : TmCommand) (key : IButtonKey) (args : List Byte) : CliOutcome :=
  let data := readHexBytes key.type.dataSize args
  if data.length ≠ key.type.dataSize then ⟨none, key, some (.keyData key.type.dataSize)⟩
  else ⟨some command, { key with data := keyData data }, none⟩

/-- `cli_cmd_callback` up to its switch to a scene. -/
def cliCmdCallback (args : List Byte) (key : IButtonKey) : CliOutcome :=
  if args = readText then ⟨some .read, key, none⟩
  else
    match stringSearchChar args spaceChar with
    | none => ⟨none, key, some .usage⟩
    | some ws =>
      match parseCommand (stringSetN args (some ws)) with
      | none => ⟨none, key, some .usageWrite⟩
      | some command =>
        let args := stringStrim (stringRight args ws)
        match parseKeyType (stringSetN args (stringSearchChar args spaceChar)) with
        | none => ⟨none, key, some .keyType⟩
        | some type =>
          readKeyData command { key with type := type } (stringStrim (stringRight args 1))

section Grammar

def commandText : TmCommand → List Byte
  | .read => readText
  | .write => writeText
  | .emulate => emulateText

def typeCode : IButtonKeyType → Byte
  | .keyDallas => 0x30#8
  | .keyCyfral => 0x31#8
  | .keyMetakom => 0x32#8

/-- Tokens of two digits with gaps between them, and the bytes that they stand for. -/
inductive HexTokens (gap : List Byte → Prop) : List Byte → List Byte → Prop
  | one {b c : Byte} {m n : ℕ} (hb : hexValue b = some m) (hc : hexValue c = some n) :
      HexTokens gap [b, c] [BitVec.ofNat 8 (16 * m + n)]
  | cons {b c : Byte} {m n : ℕ} {between text bytes : List Byte} (hb : hexValue b = some m)
      (hc : hexValue c = some n) (hgap : gap between) (h : HexTokens gap text bytes) :
      HexTokens gap (b :: c :: (between ++ text)) (BitVec.ofNat 8 (16 * m + n) :: bytes)

def AsksFor (gap : List Byte → Prop) (args : List Byte) (command : TmCommand)
    (type : IButtonKeyType) (bytes : List Byte) : Prop :=
  ∃ text, args = commandText command ++
      ([spaceChar, typeCode type, spaceChar] ++ text) ∧ command ≠ .read ∧
    HexTokens gap text bytes ∧ bytes.length = type.dataSize

/-- The command is started exactly for arguments that ask for it, with their key, and arguments
that are rejected leave the key as it is. -/
structure ParsesExactly (gap : List Byte → Prop) (args : List Byte) (key : IButtonKey)
    (outcome : CliOutcome) : Prop where
  starts : (∃ command, command ≠ .read ∧ outcome.scene = some command) ↔
    ∃ command type bytes, AsksFor gap args command type bytes
  takes : ∀ command type bytes, AsksFor gap args command type bytes →
    outcome.scene = some command ∧ outcome.key.type = type ∧ outcome.key.typeData = bytes
  keeps : (¬ ∃ command, command ≠ .read ∧ outcome.scene = some command) → outcome.key = key

/-- A command and the code of a type are recognised, with something after the code. -/
def Recognised (args : List Byte) (command : TmCommand) (type : IButtonKeyType)
    (after : List Byte) : Prop :=
  ∃ rest, args = commandText command ++ spaceChar :: rest ∧ command ≠ .read ∧
    stringStrim (spaceChar :: rest) = typeCode type :: after ∧
    (after = [] ∨ after.head? = some spaceChar)

/-- The next characters are two and a space, and the conversion does not run to the end; so again
after them. -/
def PassesTokens : ℕ → List Byte → Prop
  | 0, _ => True
  | n + 1, args => stringSearchChar args spaceChar = some 2 ∧ (strtoul args).2 ≠ [] ∧
      PassesTokens n (stringStrim (args.drop 2))

end Grammar

variable {args rest text bytes between after : List Byte} {key : IButtonKey} {command : TmCommand}
  {type : IButtonKeyType} {gap : List Byte → Prop} {b c : Byte} {m n : ℕ}

theorem length_readHexBytes :
    (readHexBytes (n + 1) args).length = n + 1 ↔ PassesTokens n args := by
  induction n generalizing args with
  | zero =>
    rw [readHexBytes, PassesTokens]
    split <;> simp [readHexBytes]
  | succ n ih =>
    rw [readHexBytes, PassesTokens, List.length_cons, Nat.add_right_cancel_iff]
    unfold readHexByte
    by_cases hend : (strtoul args).2 = []
    · simp [hend]
    · by_cases hspace : stringSearchChar args spaceChar = some 2
      · simp only [hspace, ne_eq, not_true_eq_false, if_false, if_true, hend,
          not_false_eq_true, true_and]
        exact ih
      · simp [hend, hspace]

theorem parseCommand_eq (text : List Byte) :
    parseCommand text = some command ↔ text = commandText command ∧ command ≠ .read := by
  unfold parseCommand
  constructor
  · intro h
    split at h
    · cases h
      exact ⟨‹_›, by decide⟩
    · split at h <;> cases h
      exact ⟨‹_›, by decide⟩
  · rintro ⟨rfl, hread⟩
    cases command <;> first | exact absurd rfl hread | decide

theorem parseKeyType_eq (text : List Byte) :
    parseKeyType text = some type ↔ text = [typeCode type] := by
  unfold parseKeyType
  constructor
  · intro h
    repeat' split at h
    all_goals cases h <;> assumption
  · rintro rfl
    cases type <;> decide

theorem after_of_stringSetN (h : stringSetN args (stringSearchChar args spaceChar) = [c]) :
    ∃ after, args = c :: after ∧ (after = [] ∨ after.head? = some spaceChar) := by
  cases hsearch : stringSearchChar args spaceChar with
  | none =>
    rw [hsearch] at h
    have hargs : args = [c] := by simpa [stringSetN] using h
    exact ⟨[], hargs, .inl rfl⟩
  | some n =>
    obtain ⟨text, rest, rfl, rfl, -⟩ := of_stringSearchChar_some hsearch
    rw [hsearch] at h
    have htext : text = [c] := by simpa [stringSetN] using h
    exact ⟨spaceChar :: rest, by rw [htext]; rfl, .inr rfl⟩

theorem cliCmdCallback_of_recognised (h : Recognised args command type after) :
    cliCmdCallback args key =
      readKeyData command { key with type := type } (stringStrim after) := by
  obtain ⟨rest, rfl, hread, hstrim, hafter⟩ := h
  have hne : commandText command ++ spaceChar :: rest ≠ readText := by
    intro heq
    have hmem : spaceChar ∈ readText := heq ▸ by simp
    exact absurd hmem (by decide)
  have hsearch : stringSearchChar (commandText command ++ spaceChar :: rest) spaceChar =
      some (commandText command).length :=
    stringSearchChar_append (by cases command <;> decide)
  have htype : stringSetN (typeCode type :: after)
      (stringSearchChar (typeCode type :: after) spaceChar) = [typeCode type] := by
    have hcode : spaceChar ∉ [typeCode type] := by cases type <;> decide
    rcases hafter with rfl | hspace
    · have hnone : stringSearchChar [typeCode type] spaceChar = none := by
        cases type <;> decide
      rw [hnone]
      rfl
    · cases after with
      | nil => cases hspace
      | cons d after =>
        cases hspace
        have hsome : stringSearchChar (typeCode type :: spaceChar :: after) spaceChar = some 1 :=
          stringSearchChar_append hcode
        rw [hsome]
        rfl
  have hcommand := (parseCommand_eq (commandText command)).mpr ⟨rfl, hread⟩
  have hkeyType := (parseKeyType_eq [typeCode type]).mpr rfl
  have hset : stringSetN (commandText command ++ spaceChar :: rest)
      (some (commandText command).length) = commandText command := by
    simp [stringSetN]
  have hright : stringRight (commandText command ++ spaceChar :: rest)
      (commandText command).length = spaceChar :: rest := by
    simp [stringRight]
  have hafter' : stringRight (typeCode type :: after) 1 = after := rfl
  simp only [cliCmdCallback, if_neg hne, hsearch, hset, hcommand, hright, hstrim, htype,
    hkeyType, hafter']

theorem cliCmdCallback_of_not_recognised
    (h : ∀ command type after, ¬ Recognised args command type after) :
    (cliCmdCallback args key).key = key ∧
      ¬ ∃ command, command ≠ .read ∧ (cliCmdCallback args key).scene = some command := by
  by_cases hread : args = readText
  · rw [cliCmdCallback, if_pos hread]
    refine ⟨rfl, ?_⟩
    rintro ⟨command, hne, heq⟩
    cases heq
    exact hne rfl
  · rw [cliCmdCallback, if_neg hread]
    cases hsearch : stringSearchChar args spaceChar with
    | none => exact ⟨rfl, by simp⟩
    | some ws =>
      cases hcommand : parseCommand (stringSetN args (some ws)) with
      | none => simp [hcommand]
      | some command =>
        cases hkeyType : parseKeyType (stringSetN (stringStrim (stringRight args ws))
            (stringSearchChar (stringStrim (stringRight args ws)) spaceChar)) with
        | none => simp [hcommand, hkeyType]
        | some type =>
          obtain ⟨text, rest, rfl, rfl, -⟩ := of_stringSearchChar_some hsearch
          obtain ⟨hset, hne⟩ := (parseCommand_eq _).mp hcommand
          have htext : text = commandText command := by simpa [stringSetN] using hset
          obtain ⟨after, hstrim, hafter⟩ :=
            after_of_stringSetN ((parseKeyType_eq _).mp hkeyType)
          have hright : stringRight (text ++ spaceChar :: rest) text.length =
              spaceChar :: rest := by
            simp [stringRight]
          rw [hright] at hstrim
          exact absurd ⟨rest, htext ▸ rfl, hne, hstrim, hafter⟩ (h command type after)

theorem readKeyData_of_passes (h : PassesTokens (key.type.dataSize - 1) args) :
    readKeyData command key args =
      ⟨some command, { key with data := keyData (readHexBytes key.type.dataSize args) }, none⟩ := by
  have hsize : key.type.dataSize = key.type.dataSize - 1 + 1 := by cases key.type <;> rfl
  have hlength : (readHexBytes key.type.dataSize args).length = key.type.dataSize := by
    rw [hsize]
    exact length_readHexBytes.mpr h
  rw [readKeyData, if_neg (not_not_intro hlength)]

theorem readKeyData_of_not_passes (h : ¬ PassesTokens (key.type.dataSize - 1) args) :
    readKeyData command key args = ⟨none, key, some (.keyData key.type.dataSize)⟩ := by
  have hsize : key.type.dataSize = key.type.dataSize - 1 + 1 := by cases key.type <;> rfl
  have hlength : (readHexBytes key.type.dataSize args).length ≠ key.type.dataSize := by
    intro heq
    apply h
    rw [hsize] at heq
    exact length_readHexBytes.mp heq
  rw [readKeyData, if_pos hlength]

theorem HexTokens.ends (h : HexTokens gap text bytes) :
    (∃ b rest, text = b :: rest ∧ isTrimmed b = false) ∧
      ∃ rest c, text = rest ++ [c] ∧ isTrimmed c = false := by
  induction h with
  | one hb hc =>
    exact ⟨⟨_, _, rfl, not_isTrimmed_of_hexValue hb⟩, [_], _, rfl, not_isTrimmed_of_hexValue hc⟩
  | @cons b c m n between text bytes hb hc _ _ ih =>
    obtain ⟨-, rest, d, rfl, hd⟩ := ih
    exact ⟨⟨b, _, rfl, not_isTrimmed_of_hexValue hb⟩, b :: c :: (between ++ rest), d, by simp, hd⟩

theorem HexTokens.stringStrim_append (h : HexTokens gap text bytes)
    (hbetween : ∀ d ∈ between, isTrimmed d) : stringStrim (between ++ text) = text := by
  obtain ⟨⟨b, rest, rfl, hb⟩, rest', c, hlast, hc⟩ := h.ends
  exact Lib.stringStrim_append hbetween hb hc hlast

theorem HexTokens.bytes_ne_nil (h : HexTokens gap text bytes) : bytes ≠ [] := by
  cases h <;> exact List.cons_ne_nil _ _

section Gaps

variable (hgap : ∀ between, gap between → ∃ n, between = List.replicate (n + 1) spaceChar)

include hgap

theorem HexTokens.passes (h : HexTokens gap text bytes) (hn : bytes.length = n + 1) :
    PassesTokens n text ∧ readHexBytes (n + 1) text = bytes := by
  induction h generalizing n with
  | @one b c p q hb hc =>
    obtain rfl : n = 0 := by simpa using hn.symm
    have hstrtoul : strtoul [b, c] = (16 * p + q, []) := strtoul_two hb hc (by simp)
    have hbyte : readHexByte [b, c] = (BitVec.ofNat 8 (16 * p + q), [b, c], false) := by
      simp [readHexByte, hstrtoul]
    exact ⟨trivial, by simp [readHexBytes, hbyte]⟩
  | @cons b c p q between text bytes hb hc hg htext ih =>
    obtain ⟨k, rfl⟩ : ∃ k, n = k + 1 :=
      Nat.exists_eq_add_one_of_ne_zero (by
        rintro rfl
        exact htext.bytes_ne_nil (by simpa using hn))
    obtain ⟨spaces, rfl⟩ := hgap between hg
    obtain ⟨hpasses, hread⟩ := ih (by simpa using hn)
    have hstrtoul : strtoul (b :: c :: (List.replicate (spaces + 1) spaceChar ++ text)) =
        (16 * p + q, List.replicate (spaces + 1) spaceChar ++ text) :=
      strtoul_two hb hc fun d hd => (by cases hd; decide)
    have hsearch : stringSearchChar (b :: c :: (List.replicate (spaces + 1) spaceChar ++ text))
        spaceChar = some 2 := by
      have hspace : spaceChar ∉ [b, c] := by
        simp only [List.mem_cons, List.not_mem_nil, or_false, not_or]
        constructor
        · rintro rfl
          cases hb
        · rintro rfl
          cases hc
      exact stringSearchChar_append hspace
    have hstrim : stringStrim (List.replicate (spaces + 1) spaceChar ++ text) = text := by
      apply htext.stringStrim_append
      intro d hd
      rw [List.eq_of_mem_replicate hd]
      rfl
    have hright : stringRight (b :: c :: (List.replicate (spaces + 1) spaceChar ++ text)) 2 =
        List.replicate (spaces + 1) spaceChar ++ text := rfl
    constructor
    · refine ⟨hsearch, by rw [hstrtoul]; simp [List.replicate_succ], ?_⟩
      exact hstrim.symm ▸ hpasses
    · have hbyte : readHexByte (b :: c :: (List.replicate (spaces + 1) spaceChar ++ text)) =
          (BitVec.ofNat 8 (16 * p + q), text, true) := by
        rw [readHexByte, hstrtoul, hsearch, hright, hstrim]
        simp [List.replicate_succ]
      rw [readHexBytes, hbyte]
      simp [hread]

theorem AsksFor.recognised (h : AsksFor gap args command type bytes) :
    ∃ after, Recognised args command type after ∧
      PassesTokens (type.dataSize - 1) (stringStrim after) ∧
      readHexBytes type.dataSize (stringStrim after) = bytes := by
  obtain ⟨text, rfl, hread, htext, hlength⟩ := h
  have hsize : type.dataSize = type.dataSize - 1 + 1 := by cases type <;> rfl
  have htrim : stringStrim ([spaceChar] ++ text) = text :=
    htext.stringStrim_append (by simp [isTrimmed, spaceChar])
  refine ⟨spaceChar :: text, ⟨typeCode type :: spaceChar :: text, rfl, hread, ?_, .inr rfl⟩, ?_⟩
  · obtain ⟨-, rest, c, rfl, hc⟩ := htext.ends
    have hcode : isTrimmed (typeCode type) = false := by cases type <;> decide
    have hspace : ∀ d ∈ [spaceChar], isTrimmed d := by simp [isTrimmed, spaceChar]
    have hlast : typeCode type :: spaceChar :: (rest ++ [c]) =
        typeCode type :: spaceChar :: rest ++ [c] := rfl
    exact stringStrim_append hspace hcode hc hlast
  · rw [List.singleton_append] at htrim
    rw [htrim, hsize]
    exact htext.passes hgap (hlength.trans hsize)

theorem parsesExactly_iff : ParsesExactly gap args key (cliCmdCallback args key) ↔
    (∃ command type bytes, AsksFor gap args command type bytes) ∨
      ∀ command type after, Recognised args command type after →
        type = key.type ∧ ¬ PassesTokens (type.dataSize - 1) (stringStrim after) := by
  constructor
  · intro h
    refine or_iff_not_imp_left.mpr fun hasks command type after hrecognised => ?_
    have hrejects := fun hstarts => hasks (h.starts.mp hstarts)
    have hkey := h.keeps hrejects
    rw [cliCmdCallback_of_recognised hrecognised] at hkey hrejects
    have hpasses : ¬ PassesTokens (type.dataSize - 1) (stringStrim after) := by
      intro hpasses
      obtain ⟨-, -, hread, -⟩ := hrecognised
      refine hrejects ⟨command, hread, ?_⟩
      rw [readKeyData_of_passes hpasses]
    rw [readKeyData_of_not_passes hpasses] at hkey
    exact ⟨congrArg IButtonKey.type hkey, hpasses⟩
  · rintro (⟨command, type, bytes, hasks⟩ | hnone)
    · have htakes : ∀ command type bytes, AsksFor gap args command type bytes →
          (cliCmdCallback args key).scene = some command ∧
            (cliCmdCallback args key).key.type = type ∧
            (cliCmdCallback args key).key.typeData = bytes := by
        intro command type bytes hasks
        have hlength : bytes.length = type.dataSize := by
          obtain ⟨-, -, -, -, hlength⟩ := hasks
          exact hlength
        obtain ⟨after, hrecognised, hpasses, hbytes⟩ := hasks.recognised hgap
        rw [cliCmdCallback_of_recognised hrecognised, readKeyData_of_passes hpasses]
        refine ⟨rfl, rfl, ?_⟩
        have hle : bytes.length ≤ 8 := by
          rw [hlength]
          cases type <;> decide
        have htake := take_keyData hle
        rw [hlength] at htake
        exact hbytes.symm ▸ htake
      have hstarts : ∃ command, command ≠ .read ∧
          (cliCmdCallback args key).scene = some command := by
        refine ⟨command, ?_, (htakes command type bytes hasks).1⟩
        obtain ⟨-, -, hread, -⟩ := hasks
        exact hread
      exact ⟨iff_of_true hstarts ⟨command, type, bytes, hasks⟩, htakes,
        fun hrejects => absurd hstarts hrejects⟩
    · have hasks : ¬ ∃ command type bytes, AsksFor gap args command type bytes := by
        rintro ⟨command, type, bytes, hasks⟩
        obtain ⟨after, hrecognised, hpasses, -⟩ := hasks.recognised hgap
        exact (hnone command type after hrecognised).2 hpasses
      have hkept : (cliCmdCallback args key).key = key ∧
          ¬ ∃ command, command ≠ .read ∧ (cliCmdCallback args key).scene = some command := by
        by_cases h : ∀ command type after, ¬ Recognised args command type after
        · exact cliCmdCallback_of_not_recognised h
        · push Not at h
          obtain ⟨command, type, after, hrecognised⟩ := h
          obtain ⟨rfl, hpasses⟩ := hnone command type after hrecognised
          rw [cliCmdCallback_of_recognised hrecognised, readKeyData_of_not_passes hpasses]
          exact ⟨rfl, by simp⟩
      exact ⟨iff_of_false hkept.2 hasks, fun command type bytes h => absurd ⟨_, _, _, h⟩ hasks,
        fun _ => hkept.1⟩

end Gaps

def SingleSpace (between : List Byte) : Prop := between = [spaceChar]

def Spaces (between : List Byte) : Prop := ∃ n, between = List.replicate (n + 1) spaceChar

theorem tm_parses_exactly (args : List Byte) (key : IButtonKey) :
    (ParsesExactly SingleSpace args key (cliCmdCallback args key) ↔
      (∃ command type bytes, AsksFor SingleSpace args command type bytes) ∨
        ∀ command type after, Recognised args command type after →
          type = key.type ∧ ¬ PassesTokens (type.dataSize - 1) (stringStrim after)) ∧
    (ParsesExactly Spaces args key (cliCmdCallback args key) ↔
      (∃ command type bytes, AsksFor Spaces args command type bytes) ∨
        ∀ command type after, Recognised args command type after →
          type = key.type ∧ ¬ PassesTokens (type.dataSize - 1) (stringStrim after)) :=
  ⟨parsesExactly_iff fun _ hsingle => ⟨0, hsingle⟩, parsesExactly_iff fun _ hspaces => hspaces⟩

/-- `write 1 GG 11` writes a key. -/
theorem tm_parses_no_digits : ¬ ∀ args key,
    ParsesExactly Spaces args key (cliCmdCallback args key) := by
  intro h
  have hparses := h (ascii ['w', 'r', 'i', 't', 'e', ' ', '1', ' ', 'G', 'G', ' ', '1', '1'])
    ⟨.keyDallas, keyData []⟩
  obtain ⟨command, type, bytes, text, hargs, hread, htext, -⟩ :=
    hparses.starts.mp ⟨.write, by decide, by decide +kernel⟩
  cases command with
  | read => exact hread rfl
  | emulate => simp [ascii, commandText, emulateText] at hargs
  | write =>
    obtain ⟨-, htext'⟩ : _ ∧ ascii ['G', 'G', ' ', '1', '1'] = text := by
      simpa [ascii, commandText, writeText, spaceChar] using hargs
    cases htext with
    | one hb hc => simp [ascii] at htext'
    | cons hb hc hgap htext =>
      obtain ⟨rfl, -⟩ := List.cons.inj htext'
      cases hb

end FlipperZero.IButton
