import FlipperZero.Cli.LineEditing
import FlipperZero.Firmware.VcpReceive

/-! # The console from the host to the entered lines

The CLI thread reads its bytes from the stream that the USB interrupts fill, and a command that
asks whether it was interrupted takes a byte from there as well. As long as the stream did not
overflow and no command took a byte, the lines that are entered are those typed in each session.
-/

namespace FlipperZero.Cli

open Lib Mlib Firmware.Vcp

def charOf (byte : UInt8) : Char := Char.ofNat byte.toNat

def chars (bytes : List UInt8) : List Char := bytes.map charOf

inductive Reader where
  /-- `cli_getc` and the nested reads of `cli_process_input`. -/
  | line
  /-- `cli_cmd_interrupt_received`. -/
  | command
deriving DecidableEq, Repr

/-- The command line at the port, with what the host has offered: the parts that ended as RTS was
dropped on a port that was alive, and the part since. -/
structure Console (T Ref Thread Callback Context : Type) where
  port : RxPort
  session : Session T Ref Thread Callback Context
  ended : List (List UInt8)
  current : List UInt8
  taken : List (UInt8 × Reader)
  lost : ℕ

namespace Console

inductive Label (Thread Callback Context : Type) where
  | interrupt (i : RxInterrupt)
  | getc
  | interruptReceived
  | cli (l : Cli.Label Thread Callback Context)

variable {T Ref Thread Callback Context : Type}

/-- Everything that the host has offered, with the marks. -/
def offered (c : Console T Ref Thread Callback Context) : List UInt8 :=
  (c.ended.map fun bytes => bytes ++ [asciiEot]).flatten ++ c.current

def takenBy (r : Reader) (taken : List (UInt8 × Reader)) : List UInt8 :=
  (taken.filter fun x => x.2 = r).map Prod.fst

/-- The interrupt drops RTS on a port that is alive. -/
def drops (p : RxPort) : RxInterrupt → Bool
  | .controlLine state => decide (state &&& 0b10#8 = 0) && p.alive
  | _ => false

def interrupt (c : Console T Ref Thread Callback Context) (i : RxInterrupt) :
    Console T Ref Thread Callback Context :=
  let offers := c.port.offers i
  { c with
    port := c.port.interrupt i
    ended := if drops c.port i then c.ended ++ [c.current] else c.ended
    current := if drops c.port i then [] else c.current ++ offers
    lost := c.lost + (offers.length - c.port.rxStream.sent offers) }

section Delivery

variable {c : Console T Ref Thread Callback Context}

theorem offered_interrupt (i : RxInterrupt) :
    (c.interrupt i).offered = c.offered ++ c.port.offers i := by
  cases hdrops : drops c.port i with
  | false => simp [interrupt, offered, hdrops]
  | true =>
    have hoffers : c.port.offers i = [asciiEot] := by
      cases i with
      | controlLine state =>
        obtain ⟨hlow, halive⟩ := Bool.and_eq_true_iff.mp hdrops
        have hnot : ¬state &&& 0b10#8 ≠ 0 := not_not.mpr (of_decide_eq_true hlow)
        exact (if_neg hnot).trans (if_pos halive)
      | init | deInit | receive => cases hdrops
    simp [interrupt, offered, hdrops, hoffers]

theorem takenBy_append (r : Reader) (xs ys : List (UInt8 × Reader)) :
    takenBy r (xs ++ ys) = takenBy r xs ++ takenBy r ys := by
  simp [takenBy]

theorem takenBy_line (h : ∀ x ∈ c.taken, x.2 = Reader.line) :
    takenBy .line c.taken = c.taken.map Prod.fst := by
  rw [takenBy, List.filter_eq_self.mpr fun x hx => decide_eq_true (h x hx)]

/-- The bytes taken from the stream, those that still wait in it and those lost make up what the
host has offered. -/
structure Delivered (c : Console T Ref Thread Callback Context) : Prop where
  delivers : c.port.rxStream.Delivers c.offered (c.taken.map Prod.fst) c.lost
  underrun : c.port.underrun = decide (c.lost ≠ 0)
  received : c.session.received = chars (takenBy .line c.taken)

theorem Delivered.interrupt (h : c.Delivered) (i : RxInterrupt) : (c.interrupt i).Delivered where
  delivers := by
    rw [offered_interrupt]
    show (c.port.interrupt i).rxStream.Delivers _ _ _
    rw [RxPort.interrupt_rxStream]
    exact h.delivers.send _
  underrun := by
    show (c.port.interrupt i).underrun = decide (c.lost + _ ≠ 0)
    have hsent : c.port.rxStream.sent (c.port.offers i) ≤ (c.port.offers i).length :=
      BoundedStream.sent_le
    rw [RxPort.interrupt_underrun, h.underrun, ← Bool.decide_or]
    exact decide_eq_decide.mpr (by omega)
  received := h.received

theorem Delivered.take {port : RxPort} {byte : UInt8} {r : Reader} (h : c.Delivered)
    (hrx : c.port.rx 1 = some ([byte], port)) :
    port.rxStream.Delivers c.offered ((c.taken ++ [(byte, r)]).map Prod.fst) c.lost ∧
      port.underrun = c.port.underrun := by
  obtain ⟨⟨bytes, stream⟩, hreceive, heq⟩ := Option.map_eq_some_iff.mp hrx
  obtain ⟨rfl, rfl⟩ := Prod.mk.inj heq
  refine ⟨?_, rfl⟩
  rw [List.map_append]
  exact h.delivers.receive hreceive

theorem texts_offered (ended : List (List UInt8)) (current : List UInt8) :
    Editor.empty.texts (chars ((ended.map fun bytes => bytes ++ [asciiEot]).flatten ++ current)) =
      (ended.map fun bytes => Editor.empty.texts (chars bytes)).flatten ++
        Editor.empty.texts (chars current) := by
  induction ended with
  | nil => rfl
  | cons bytes ended ih =>
    have hmark : charOf asciiEot = symbolAsciiEOT := rfl
    have hsplit : chars (bytes ++ [asciiEot] ++
        ((ended.map fun bytes => bytes ++ [asciiEot]).flatten ++ current)) = chars bytes ++
          symbolAsciiEOT :: chars ((ended.map fun bytes => bytes ++ [asciiEot]).flatten ++ current) := by
      simp [chars, hmark]
    rw [List.map_cons, List.flatten_cons, List.append_assoc, hsplit, Editor.texts_eot, ih,
      List.map_cons, List.flatten_cons, List.append_assoc]

/-- What the console has entered and what waits in the stream are the lines that were typed in each
session, those of the last one so far included. -/
theorem entered_sessions (hsound : c.session.Sound) (h : c.Delivered)
    (hunderrun : c.port.underrun = false) (htaken : ∀ x ∈ c.taken, x.2 = Reader.line) :
    c.session.entered ++ c.session.cli.editor.texts (chars c.port.rxStream.content) =
      (c.ended.map fun bytes => Editor.empty.texts (chars bytes)).flatten ++
        Editor.empty.texts (chars c.current) := by
  have hlost : c.lost = 0 := by
    rw [h.underrun] at hunderrun
    exact not_not.mp (of_decide_eq_false hunderrun)
  have hentered : c.session.entered = Editor.empty.texts (chars (takenBy .line c.taken)) := by
    rw [← h.received]
    exact hsound.exact
  rw [hentered, hsound.editor, h.received, ← Editor.texts_append, takenBy_line htaken, chars, chars,
    ← List.map_append, h.delivers.eq_iff.mpr hlost, ← chars, offered, texts_offered]

end Delivery

variable [DecidableEq Thread] [DecidableEq Callback] [DecidableEq Context]
variable [BPTree T (List Char) (CliCommand Callback Context) Ref]

def next (c : Console T Ref Thread Callback Context) :
    Label Thread Callback Context → Option (Console T Ref Thread Callback Context)
  | .interrupt i => some (c.interrupt i)
  | .getc =>
    match c.port.rx 1 with
    | some ([byte], port) => (c.session.next (.char (charOf byte))).map fun session =>
      { c with port, session, taken := c.taken ++ [(byte, .line)] }
    | _ => none
  | .interruptReceived =>
    match c.session.cli.phase with
    | .running _ _ =>
      let bytes := c.port.rxWithTimeout 1
      some { c with port := bytes.2, taken := c.taken ++ bytes.1.map fun byte => (byte, .command) }
    | _ => none
  | .cli (.char _) => none
  | .cli l => (c.session.next l).map fun session => { c with session }

variable (T Ref Thread Callback Context) in
def machine : Machine (Console T Ref Thread Callback Context) (Label Thread Callback Context) where
  init := ⟨.init, (Session.machine T Ref Thread Callback Context).init, [], [], [], 0⟩
  next := next

/-- What the line takes from the stream goes on as the reference editor expects. -/
def Keeps (c : Console T Ref Thread Callback Context) : Label Thread Callback Context → Prop
  | .getc => ∀ byte ∈ c.port.rxStream.content.head?, c.session.Keeps (.char (charOf byte))
  | _ => True

variable {c c' : Console T Ref Thread Callback Context} {l : Label Thread Callback Context}

theorem Delivered.next (h : c.Delivered)
    (hs : (machine T Ref Thread Callback Context).next c l = some c') : c'.Delivered := by
  cases l with
  | interrupt i =>
    obtain rfl := Option.some.inj hs
    exact h.interrupt i
  | getc =>
    simp only [machine, Console.next] at hs
    split at hs
    · next byte port hrx =>
      obtain ⟨session, hsession, rfl⟩ := Option.map_eq_some_iff.mp hs
      obtain ⟨cli, _, rfl⟩ := Option.map_eq_some_iff.mp hsession
      obtain ⟨hdelivers, hunderrun⟩ := h.take (r := .line) hrx
      refine ⟨hdelivers, hunderrun.trans h.underrun, ?_⟩
      have hbyte : takenBy .line [(byte, .line)] = [byte] := rfl
      rw [takenBy_append, hbyte, chars, List.map_append, ← chars, ← h.received]
      rfl
    · cases hs
  | interruptReceived =>
    simp only [machine, Console.next] at hs
    split at hs
    · obtain rfl := Option.some.inj hs
      cases hrx : c.port.rx 1 with
      | none =>
        simp only [RxPort.rxWithTimeout, hrx, Option.getD_none, List.map_nil, List.append_nil]
        exact h
      | some r =>
        obtain ⟨bytes, port⟩ := r
        obtain ⟨byte, rfl, _⟩ := RxPort.rx_one hrx
        obtain ⟨hdelivers, hunderrun⟩ := h.take (r := .command) hrx
        have hnone : takenBy .line [(byte, Reader.command)] = [] := rfl
        simp only [RxPort.rxWithTimeout, hrx, Option.getD_some, List.map_cons, List.map_nil]
        refine ⟨hdelivers, hunderrun.trans h.underrun, ?_⟩
        rw [takenBy_append, hnone, List.append_nil]
        exact h.received
    · cases hs
  | cli l =>
    cases l with
    | char | disconnect => cases hs
    | enter | call | step =>
      obtain ⟨session, hsession, rfl⟩ := Option.map_eq_some_iff.mp hs
      obtain ⟨cli, _, rfl⟩ := Option.map_eq_some_iff.mp hsession
      exact ⟨h.delivers, h.underrun, h.received⟩

/-- The editor of the line is the reference editor for the bytes that the line has taken. -/
theorem sound_next (h : c.session.Sound) (hkeeps : c.Keeps l)
    (hs : (machine T Ref Thread Callback Context).next c l = some c') : c'.session.Sound := by
  cases l with
  | interrupt i =>
    obtain rfl := Option.some.inj hs
    exact h
  | getc =>
    simp only [machine, Console.next] at hs
    split at hs
    · next byte port hrx =>
      obtain ⟨session, hsession, rfl⟩ := Option.map_eq_some_iff.mp hs
      refine h.next (hkeeps byte ?_) hsession
      obtain ⟨_, hbyte, hhead⟩ := RxPort.rx_one hrx
      obtain rfl := List.singleton_inj.mp hbyte
      exact hhead
    · cases hs
  | interruptReceived =>
    simp only [machine, Console.next] at hs
    split at hs
    · obtain rfl := Option.some.inj hs
      exact h
    · cases hs
  | cli l =>
    cases l with
    | char | disconnect => cases hs
    | enter =>
      obtain ⟨session, hsession, rfl⟩ := Option.map_eq_some_iff.mp hs
      exact h.next (l := .enter) trivial hsession
    | call t call =>
      obtain ⟨session, hsession, rfl⟩ := Option.map_eq_some_iff.mp hs
      exact h.next (l := .call t call) trivial hsession
    | step t =>
      obtain ⟨session, hsession, rfl⟩ := Option.map_eq_some_iff.mp hs
      exact h.next (l := .step t) trivial hsession

theorem delivered_of_reachable (h : (machine T Ref Thread Callback Context).Reachable c) :
    c.Delivered := by
  refine h.invariant ⟨.empty, rfl, rfl⟩ ?_
  intro c l c' hc hs
  exact hc.next hs

theorem sound_of_reachable
    (h : (machine T Ref Thread Callback Context).ReachableWith Keeps c) : c.session.Sound := by
  refine h.invariant (P := fun c => c.session.Sound) Session.sound_init ?_
  intro c l c' hc hkeeps hs
  exact sound_next hc hkeeps hs

/-- In every run the stream gives its readers a subsequence of what the host has offered, all of it
exactly until the port notes an underrun; the lines are those of the bytes that the line has taken;
and without an underrun or a byte taken by a command they are those typed session by session. -/
theorem console_sessions (h : (machine T Ref Thread Callback Context).ReachableWith Keeps c) :
    (c.taken.map Prod.fst ++ c.port.rxStream.content).Sublist c.offered ∧
    (c.port.underrun = false ↔ c.taken.map Prod.fst ++ c.port.rxStream.content = c.offered) ∧
    c.session.entered = Editor.empty.texts (chars (takenBy .line c.taken)) ∧
    (c.port.underrun = false → (∀ x ∈ c.taken, x.2 = Reader.line) →
      c.session.entered ++ c.session.cli.editor.texts (chars c.port.rxStream.content) =
        (c.ended.map fun bytes => Editor.empty.texts (chars bytes)).flatten ++
          Editor.empty.texts (chars c.current)) := by
  have hdelivered := delivered_of_reachable h.reachable
  have hsound := sound_of_reachable h
  refine ⟨hdelivered.delivers.sublist, ?_, ?_, entered_sessions hsound hdelivered⟩
  · rw [hdelivered.delivers.eq_iff, hdelivered.underrun, decide_eq_false_iff_not, not_not]
  · rw [← hdelivered.received]
    exact hsound.exact

section Runs

abbrev leafConsole :
    Machine (Console (Leaf (List Char) (CliCommand ℕ ℕ)) ℕ Unit ℕ ℕ) (Label Unit ℕ ℕ) :=
  machine (Leaf (List Char) (CliCommand ℕ ℕ)) ℕ Unit ℕ ℕ

/-- A letter is typed, the terminal goes and comes back, and the line that is entered is empty. -/
theorem console_sessions_isolated :
    ∃ c, leafConsole.ReachableWith Keeps c ∧ c.ended = [[0x01, 0x61]] ∧ c.current = [0x01, 0x0D] ∧
      c.session.entered = [[]] ∧ c.session.entered ++
        c.session.cli.editor.texts (chars c.port.rxStream.content) =
          (c.ended.map fun bytes => Editor.empty.texts (chars bytes)).flatten ++
            Editor.empty.texts (chars c.current) := by
  have hconnect : leafConsole.ReachableWith Keeps _ :=
    Machine.ReachableWith.init.step (l := .interrupt (.controlLine 0b10)) (by trivial) rfl
  have htyped := hconnect.step (l := .interrupt (.receive [0x61])) (by trivial) rfl
  have hdrop := htyped.step (l := .interrupt (.controlLine 0)) (by trivial) rfl
  have hagain := hdrop.step (l := .interrupt (.controlLine 0b10)) (by trivial) rfl
  have hentered := hagain.step (l := .interrupt (.receive [0x0D])) (by trivial) rfl
  have hsoh := hentered.step (l := .getc) (by rintro byte -; trivial) rfl
  have ha := hsoh.step (l := .getc) (by rintro byte -; trivial) rfl
  have heot := ha.step (l := .getc) (by rintro byte -; trivial) rfl
  have hsoh' := heot.step (l := .getc) (by rintro byte -; trivial) rfl
  have hcr := hsoh'.step (l := .getc) (by rintro byte -; trivial) rfl
  exact ⟨_, hcr, rfl, rfl, rfl, (console_sessions hcr).2.2.2 rfl (by decide)⟩

end Runs

end Console

end FlipperZero.Cli
