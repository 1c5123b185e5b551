import FlipperZero.Firmware.KeyWriter

/-! # What the key writer does on the bus

The calls of the key writer to the OneWire master are recorded with their answers. The record
does not change the writer, and it shows what the last READ ROM returned when the writer says
that the key was written.
-/

namespace FlipperZero.Firmware

open Lib

/-- A call to the OneWire master with its answer. -/
inductive BusCall where
  | reset (presence : Bool)
  | write (value : BitVec 8)
  | writeBit (value : Bool)
  | read (answer : BitVec 8)
deriving DecidableEq, Repr

abbrev Session := Program IrqUser (List BusCall × Pins)

def unrecorded (c : Cpu IrqUser (List BusCall × Pins)) : Cpu IrqUser Pins :=
  ⟨c.irqDisabled, c.irqs, c.env.2⟩

/-- A program of the firmware with what it adds to the record. -/
def recorded {α : Type} (f : Hal α) (calls : α → List BusCall) : Session α := fun c =>
  ((f (unrecorded c)).1, ⟨(f (unrecorded c)).2.irqDisabled, (f (unrecorded c)).2.irqs,
    (c.env.1 ++ calls (f (unrecorded c)).1, (f (unrecorded c)).2.env)⟩)

instance : WriterBus (List BusCall × Pins) where
  quiet f := recorded f fun _ => []
  reset := recorded reset fun presence => [.reset presence]
  write value := recorded (write value) fun _ => [.write value]
  writeBit value := recorded (writeBit value) fun _ => [.writeBit value]
  read := recorded read fun answer => [.read answer]

/-- `KeyWriter::write` with its calls recorded. -/
def Session.writeKey (key : IButtonKey) : Session WriteError := KeyWriter.write key

def answers : List BusCall → List (BitVec 8)
  | .read answer :: calls => answer :: answers calls
  | _ => []

/-- What the READ ROM commands returned; a command is the first byte written after a reset. -/
def readRoms : (selected : Bool) → List BusCall → List (List (BitVec 8))
  | _, [] => []
  | _, .reset _ :: calls => readRoms true calls
  | selected, .write value :: calls =>
    if selected = true ∧ value = DS1990.cmdReadRom then answers calls :: readRoms false calls
    else readRoms false calls
  | _, .writeBit _ :: calls | _, .read _ :: calls => readRoms false calls

/-- A call that gives a device anything but the READ ROM command. -/
def BusCall.Programs : BusCall → Prop
  | .write value => value ≠ DS1990.cmdReadRom
  | .writeBit _ => True
  | .reset _ | .read _ => False

/-- What a result says of the key and of the calls. -/
def Truthful (key : IButtonKey) (calls : List BusCall) : WriteError → Prop
  | .ok => key.type = .keyDallas ∧ (readRoms false calls).getLast? = some key.data.toList
  | .sameKey => key.type = .keyDallas ∧ (readRoms false calls).head? = some key.data.toList ∧
      ∀ call ∈ calls, ¬ call.Programs
  | .noDetect | .cannotWrite => True

section Rules

variable {α β : Type} {p : Session α} {f : Hal α} {q : α → Session β} {g : α → Hal β}
  {P P' : α → List BusCall → Prop} {Q : α → β → List BusCall → Prop} {R : β → List BusCall → Prop}

/-- A program does what a program of the firmware does and adds calls to the record, which are as
the predicate says for its result. -/
def Records (p : Session α) (f : Hal α) (P : α → List BusCall → Prop) : Prop :=
  ∀ c, (p c).1 = (f (unrecorded c)).1 ∧ unrecorded (p c).2 = (f (unrecorded c)).2 ∧
    ∃ calls, (p c).2.env.1 = c.env.1 ++ calls ∧ P (p c).1 calls

theorem records_recorded (calls : α → List BusCall) :
    Records (recorded f calls) f fun a l => l = calls a :=
  fun _ => ⟨rfl, rfl, _, rfl, rfl⟩

theorem records_pure (a : α) (h : P a []) : Records (pure a) (pure a) P :=
  fun _ => ⟨rfl, rfl, [], (List.append_nil _).symm, h⟩

theorem Records.bind (hp : Records p f P) (hq : ∀ a, Records (q a) (g a) (Q a))
    (h : ∀ a b l l', P a l → Q a b l' → R b (l ++ l')) : Records (p >>= q) (f >>= g) R := by
  intro c
  obtain ⟨ha, hc, l, hl, hP⟩ := hp c
  obtain ⟨hb, hc', l', hl', hQ⟩ := hq (p c).1 (p c).2
  have hg : g (p c).1 (unrecorded (p c).2) = (f >>= g) (unrecorded c) := by
    rw [ha, hc]
    rfl
  rw [hg] at hb hc'
  refine ⟨hb, hc', l ++ l', ?_, h _ _ _ _ hP hQ⟩
  rw [bind_apply, hl', hl, List.append_assoc]

theorem Records.mono (hp : Records p f P) (h : ∀ a l, P a l → P' a l) : Records p f P' := by
  intro c
  obtain ⟨ha, hc, l, hl, hP⟩ := hp c
  exact ⟨ha, hc, l, hl, h _ _ hP⟩

/-- What was recorded before does not matter to a predicate that allows any calls before. -/
theorem Records.before (hp : Records p f P) (hq : ∀ a, Records (q a) (g a) R)
    (h : ∀ b l l', R b l' → R b (l ++ l')) : Records (p >>= q) (f >>= g) R :=
  hp.bind hq fun _ b l l' _ => h b l l'

theorem Records.ite {t : Prop} [Decidable t] {p' : Session α} {f' : Hal α}
    (h : t → Records p f P) (h' : ¬t → Records p' f' P) :
    Records (if t then p else p') (if t then f else f') P := by
  split
  · next ht => exact h ht
  · next ht => exact h' ht

end Rules

section Writer

variable {key : IButtonKey} {user : IrqUser} {flag rom : BitVec 8} {unlock : Bool}
  {data : List (BitVec 8)}

def Any {α : Type} (_ : α) (_ : List BusCall) : Prop := True

def romCalls (key : IButtonKey) : List BusCall :=
  [BusCall.reset true, .write DS1990.cmdReadRom] ++ key.data.toList.map .read

/-- The key was read back, with no READ ROM after that. -/
def ReadBack (key : IButtonKey) (result : Bool) (calls : List BusCall) : Prop :=
  result = true → key.type = .keyDallas ∧ ∃ before after, calls = before ++ (romCalls key ++ after) ∧
    ∀ call ∈ after, ∃ presence, call = .reset presence

theorem readBack_false {calls : List BusCall} : ReadBack key false calls := by
  rintro ⟨⟩

theorem ReadBack.append {result : Bool} {calls : List BusCall} (before : List BusCall)
    (h : ReadBack key result calls) : ReadBack key result (before ++ calls) := by
  intro hresult
  obtain ⟨htype, before', after, rfl, hafter⟩ := h hresult
  exact ⟨htype, before ++ before', after, by simp, hafter⟩

theorem records_quiet {α : Type} {f : Hal α} : Records (WriterBus.quiet f) f fun _ l => l = [] :=
  records_recorded _

theorem records_any {α : Type} {f : Hal α} {calls : α → List BusCall} :
    Records (recorded f calls) f Any :=
  (records_recorded _).mono fun _ _ _ => trivial

theorem records_end {α : Type} {f : Hal Unit} (a : α) :
    Records (do WriterBus.quiet f; pure a) (do WriterBus.quiet f; pure a) fun b l => b = a ∧ l = [] := by
  apply records_quiet.bind (Q := fun _ b l => b = a ∧ l = [])
  · exact fun _ => records_pure _ ⟨rfl, rfl⟩
  · rintro _ _ _ _ rfl ⟨rfl, rfl⟩
    exact ⟨rfl, rfl⟩

theorem records_onewireWriteOneBit {value : Bool} {delay : ℕ} :
    Records (onewireWriteOneBit value delay) (onewireWriteOneBit value delay) Any :=
  records_any.before (fun _ => records_any) fun _ _ _ _ => trivial

theorem records_writeBitsDs1990 {left : ℕ} {byte : BitVec 8} :
    Records (writeBitsDs1990 left byte) (writeBitsDs1990 left byte) Any := by
  induction left generalizing byte with
  | zero => exact records_pure _ trivial
  | succ left ih =>
    apply records_any.before
    · exact fun _ => records_any.before (fun _ => ih) fun _ _ _ _ => trivial
    · exact fun _ _ _ _ => trivial

theorem records_writeBytes1990 :
    Records (writeBytes1990 data) (writeBytes1990 data) Any := by
  induction data with
  | nil => exact records_pure _ trivial
  | cons byte data ih =>
    apply records_writeBitsDs1990.before
    · exact fun _ => records_any.before (fun _ => ih) fun _ _ _ _ => trivial
    · exact fun _ _ _ _ => trivial

theorem records_writeBytesTM2004 :
    Records (writeBytesTM2004 data) (writeBytesTM2004 data) Any := by
  have hany : ∀ (b : Bool) (l l' : List BusCall), Any b l' → Any b (l ++ l') :=
    fun _ _ _ _ => trivial
  induction data with
  | nil => exact records_pure _ trivial
  | cons byte data ih =>
    refine records_any.before (fun _ => records_any.before (fun _ => ?_) hany) hany
    refine records_any.before (fun _ => records_onewireWriteOneBit.before (fun _ => ?_) hany) hany
    refine records_any.before (fun answer => ?_) hany
    exact Records.ite (fun _ => records_pure _ trivial) fun _ => ih

theorem records_compareBytes : Records (compareBytes data) (compareBytes data)
    fun result l => (∀ call ∈ l, ¬ call.Programs) ∧ (result = true → l = data.map .read) := by
  induction data with
  | nil => exact records_pure _ ⟨by simp, fun _ => rfl⟩
  | cons byte data ih =>
    apply (records_recorded (fun answer => [BusCall.read answer])).bind
      (Q := fun answer result l => (∀ call ∈ l, ¬ call.Programs) ∧
        (result = true → answer = byte ∧ l = data.map .read))
    · intro answer
      apply Records.ite
      · exact fun _ => records_pure _ ⟨by simp, by rintro ⟨⟩⟩
      · intro heq
        obtain rfl := not_not.mp heq
        exact ih.mono fun result l h => ⟨h.1, fun hresult => ⟨rfl, h.2 hresult⟩⟩
    · rintro answer result _ l rfl ⟨hsilent, hread⟩
      constructor
      · rintro call (_ | ⟨_, hcall⟩)
        · exact id
        · exact hsilent call hcall
      · intro hresult
        obtain ⟨rfl, rfl⟩ := hread hresult
        rfl

theorem typeData_of_dallas (h : key.type = .keyDallas) : key.typeData = key.data.toList := by
  rw [IButtonKey.typeData, h]
  exact List.take_of_length_le (by simp [IButtonKeyType.dataSize])

theorem records_compareRom {presence : Bool} :
    Records (compareRom presence data) (compareRom presence data)
      fun result l => (∀ call ∈ l, ¬ call.Programs) ∧ (result = true →
        presence = true ∧ l = BusCall.write DS1990.cmdReadRom :: data.map .read) := by
  apply Records.ite
  · intro hpresence
    apply (records_recorded (fun _ => [BusCall.write DS1990.cmdReadRom])).bind
      fun _ => records_compareBytes
    rintro _ result _ l rfl ⟨hsilent, hread⟩
    constructor
    · rintro call (_ | ⟨_, hcall⟩)
      · exact fun h => h rfl
      · exact hsilent call hcall
    · intro hresult
      obtain rfl := hread hresult
      exact ⟨hpresence, rfl⟩
  · exact fun _ => records_pure _ ⟨by simp, by rintro ⟨⟩⟩

theorem records_compareKeyDs1990 : Records (compareKeyDs1990 key) (compareKeyDs1990 key)
    fun result l => (∀ call ∈ l, ¬ call.Programs) ∧
      (result = true → key.type = .keyDallas ∧ l = romCalls key) := by
  apply Records.ite
  · intro htype
    apply records_quiet.bind (Q := fun _ result l => (∀ call ∈ l, ¬ call.Programs) ∧
      (result = true → key.type = .keyDallas ∧ l = romCalls key))
    · intro _
      apply (records_recorded (fun presence => [BusCall.reset presence])).bind
        (Q := fun presence result l => (∀ call ∈ l, ¬ call.Programs) ∧ (result = true →
          presence = true ∧ l = BusCall.write DS1990.cmdReadRom :: key.typeData.map .read))
      · intro presence
        apply records_compareRom.bind (Q := fun result result' l => result' = result ∧ l = [])
        · exact records_end
        · rintro result _ l _ h ⟨rfl, rfl⟩
          rwa [List.append_nil]
      · rintro presence result _ l rfl ⟨hsilent, hread⟩
        constructor
        · rintro call (_ | ⟨_, hcall⟩)
          · exact id
          · exact hsilent call hcall
        · intro hresult
          obtain ⟨rfl, rfl⟩ := hread hresult
          exact ⟨htype, by rw [typeData_of_dallas htype]; rfl⟩
    · rintro _ result _ l rfl h
      exact h
  · exact fun _ => records_pure _ ⟨by simp, by rintro ⟨⟩⟩

theorem readBack_compareKeyDs1990 :
    Records (compareKeyDs1990 key) (compareKeyDs1990 key) (ReadBack key) := by
  apply records_compareKeyDs1990.mono
  rintro result l ⟨-, hread⟩ hresult
  obtain ⟨htype, rfl⟩ := hread hresult
  exact ⟨htype, [], [], by simp, by simp⟩

theorem Records.beforeReadBack {α : Type} {p : Session α} {f : Hal α} {q : α → Session Bool}
    {g : α → Hal Bool} {P : α → List BusCall → Prop} (hp : Records p f P)
    (hq : ∀ a, Records (q a) (g a) (ReadBack key)) : Records (p >>= q) (f >>= g) (ReadBack key) :=
  hp.before hq fun _ l _ => ReadBack.append l

theorem records_write1990 :
    Records (write1990 user flag rom unlock data key) (write1990 user flag rom unlock data key)
      (ReadBack key) := by
  apply Records.ite
  · intro _
    refine records_any.beforeReadBack fun _ => records_any.beforeReadBack fun _ => ?_
    refine records_any.beforeReadBack fun _ => records_any.beforeReadBack fun _ => ?_
    refine records_onewireWriteOneBit.beforeReadBack fun _ => records_any.beforeReadBack fun _ => ?_
    refine records_any.beforeReadBack fun _ => records_writeBytes1990.beforeReadBack fun _ => ?_
    refine records_any.beforeReadBack fun _ => records_onewireWriteOneBit.beforeReadBack fun _ => ?_
    exact records_any.beforeReadBack fun _ => readBack_compareKeyDs1990
  · exact fun _ => records_pure _ readBack_false

theorem records_writeTM2004 :
    Records (writeTM2004 key) (writeTM2004 key) (ReadBack key) := by
  apply Records.ite
  · intro _
    refine records_any.beforeReadBack fun _ => records_any.beforeReadBack fun _ => ?_
    refine records_any.beforeReadBack fun _ => records_any.beforeReadBack fun _ => ?_
    refine records_any.beforeReadBack fun _ => records_writeBytesTM2004.beforeReadBack fun written => ?_
    apply readBack_compareKeyDs1990.bind (Q := fun same result l => result = (written && same) ∧
      ∀ call ∈ l, ∃ presence, call = .reset presence)
    · intro same
      apply (records_recorded (fun presence => [BusCall.reset presence])).bind
        fun _ => records_end (written && same)
      rintro presence result _ _ rfl ⟨hresult, rfl⟩
      refine ⟨hresult, ?_⟩
      rintro call (_ | ⟨_, ⟨⟩⟩)
      exact ⟨presence, rfl⟩
    · rintro same result l after hread ⟨rfl, hafter⟩ hresult
      obtain ⟨htype, before, after', rfl, hafter'⟩ := hread (Bool.and_eq_true_iff.mp hresult).2
      refine ⟨htype, before, after' ++ after, by simp, ?_⟩
      intro call hcall
      rcases List.mem_append.mp hcall with hcall | hcall
      · exact hafter' call hcall
      · exact hafter call hcall
  · exact fun _ => records_pure _ readBack_false

theorem Records.orElse {p q : Session Bool} {f g : Hal Bool} (hp : Records p f (ReadBack key))
    (hq : Records q g (ReadBack key)) :
    Records (do if ← p then pure true else q) (do if ← f then pure true else g) (ReadBack key) := by
  apply hp.bind (Q := fun a b l => if a = true then l = [] else ReadBack key b l)
  · intro a
    cases a with
    | true => exact records_pure _ rfl
    | false => exact hq
  · intro a b l l' hl hl'
    cases a with
    | true =>
      obtain rfl : l' = [] := hl'
      rw [List.append_nil]
      exact fun _ => hl rfl
    | false => exact ReadBack.append l hl'

theorem records_tryWrites : Records (tryWrites key) (tryWrites key) (ReadBack key) :=
  records_write1990.orElse (records_write1990.orElse records_writeTM2004)

/-- What `write_internal` has recorded since its own reset. -/
def Outcome (key : IButtonKey) (calls : List BusCall) : WriteError → Prop
  | .ok => ReadBack key true calls
  | .sameKey => key.type = .keyDallas ∧ calls = romCalls key
  | .noDetect | .cannotWrite => True

theorem records_writePresent :
    Records (writePresent key) (writePresent key) fun result l => Outcome key l result := by
  unfold writePresent
  cases key.type with
  | keyDallas =>
    apply records_compareKeyDs1990.bind (Q := fun same result l =>
      if same = true then result = .sameKey ∧ l = [] else Outcome key l result ∧ result ≠ .sameKey)
    · intro same
      cases same with
      | true => exact records_pure _ ⟨rfl, rfl⟩
      | false =>
        apply records_tryWrites.bind (Q := fun written result l =>
          result = (if written then .ok else .cannotWrite) ∧ l = [])
        · exact fun written => records_pure _ ⟨rfl, rfl⟩
        · rintro written result l _ hread ⟨rfl, rfl⟩
          rw [List.append_nil]
          cases written with
          | true => exact ⟨hread, by simp⟩
          | false => exact ⟨trivial, by simp⟩
    · rintro same result l l' ⟨-, hread⟩ h
      cases same with
      | true =>
        obtain ⟨rfl, rfl⟩ := h
        rw [List.append_nil]
        exact hread rfl
      | false =>
        obtain ⟨houtcome, hne⟩ := h
        cases result with
        | ok => exact houtcome.append l
        | sameKey => exact absurd rfl hne
        | _ => trivial
  | _ => exact records_pure _ trivial

theorem records_writeKey : Records (Session.writeKey key) (KeyWriter.write key)
    fun result l => ∃ presence calls, l = BusCall.reset presence :: calls ∧ Outcome key calls result := by
  apply records_quiet.bind
    (Q := fun _ result l => ∃ presence calls, l = BusCall.reset presence :: calls ∧
      Outcome key calls result)
  · intro _
    apply (records_recorded (fun presence => [BusCall.reset presence])).bind
      (Q := fun _ result l => Outcome key l result)
    · intro presence
      apply records_quiet.bind (Q := fun _ result l => Outcome key l result)
      · exact fun _ => Records.ite (fun _ => records_writePresent) fun _ => records_pure _ trivial
      · rintro _ result _ l rfl h
        exact h
    · rintro presence result _ l rfl h
      exact ⟨presence, l, rfl, h⟩
  · rintro _ result _ l rfl h
    exact h

end Writer

section ReadRoms

variable {key : IButtonKey} {calls after : List BusCall} {data : List (BitVec 8)}
  {presence selected : Bool}

theorem answers_append_reset : answers (calls ++ .reset presence :: after) = answers calls := by
  induction calls with
  | nil => rfl
  | cons call calls ih =>
    cases call with
    | read answer => exact congrArg (answer :: ·) ih
    | _ => rfl

theorem readRoms_append_reset : readRoms selected (calls ++ .reset presence :: after) =
    readRoms selected calls ++ readRoms true after := by
  induction calls generalizing selected with
  | nil => rfl
  | cons call calls ih =>
    cases call with
    | write value =>
      simp only [List.cons_append, readRoms, answers_append_reset, ih]
      split
      · rfl
      · rfl
    | _ => exact ih

theorem answers_reads (hafter : ∀ call ∈ after, ∃ presence, call = .reset presence) :
    answers (data.map .read ++ after) = data := by
  induction data with
  | nil =>
    cases after with
    | nil => rfl
    | cons call after =>
      obtain ⟨presence, rfl⟩ := hafter call List.mem_cons_self
      rfl
  | cons byte data ih => exact congrArg (byte :: ·) ih

theorem readRoms_reads (hafter : ∀ call ∈ after, ∃ presence, call = .reset presence) :
    readRoms selected (data.map .read ++ after) = [] := by
  induction data generalizing selected with
  | nil =>
    induction after generalizing selected with
    | nil => rfl
    | cons call after ih =>
      obtain ⟨presence, rfl⟩ := hafter call List.mem_cons_self
      exact ih fun call hcall => hafter call (List.mem_cons_of_mem _ hcall)
  | cons byte data ih => exact ih

theorem readRoms_romCalls (hafter : ∀ call ∈ after, ∃ presence, call = .reset presence) :
    readRoms selected (romCalls key ++ after) = [key.data.toList] := by
  simp only [romCalls, List.cons_append, List.nil_append, readRoms, readRoms_reads hafter,
    answers_reads hafter, and_self, if_true]

theorem Outcome.truthful {result : WriteError} (h : Outcome key calls result) :
    Truthful key (.reset presence :: calls) result := by
  cases result with
  | ok =>
    obtain ⟨htype, before, after, rfl, hafter⟩ := h rfl
    refine ⟨htype, ?_⟩
    have hroms : readRoms false (.reset presence :: (before ++ (romCalls key ++ after))) =
        readRoms true before ++ [key.data.toList] := by
      rw [readRoms, ← @readRoms_romCalls key after true hafter]
      exact readRoms_append_reset
    rw [hroms, List.getLast?_concat]
  | sameKey =>
    obtain ⟨htype, rfl⟩ := h
    have hroms := @readRoms_romCalls key [] true (by simp)
    rw [List.append_nil] at hroms
    refine ⟨htype, by rw [readRoms, hroms]; rfl, ?_⟩
    rintro call (_ | ⟨_, _ | ⟨_, _ | ⟨_, hcall⟩⟩⟩)
    · exact id
    · exact id
    · exact fun h => h rfl
    · obtain ⟨answer, -, rfl⟩ := List.mem_map.mp hcall
      exact id
  | _ => trivial

end ReadRoms

/-- The recorded writer is the writer, and its result is true of what it recorded. -/
theorem key_writer_truthful (key : IButtonKey) (c : Cpu IrqUser (List BusCall × Pins)) :
    (Session.writeKey key c).1 = (KeyWriter.write key (unrecorded c)).1 ∧
    unrecorded (Session.writeKey key c).2 = (KeyWriter.write key (unrecorded c)).2 ∧
    ∃ calls, (Session.writeKey key c).2.env.1 = c.env.1 ++ calls ∧
      Truthful key calls (Session.writeKey key c).1 := by
  obtain ⟨hresult, hcpu, calls, hcalls, presence, since, rfl, houtcome⟩ := @records_writeKey key c
  exact ⟨hresult, hcpu, _, hcalls, houtcome.truthful⟩

end FlipperZero.Firmware
