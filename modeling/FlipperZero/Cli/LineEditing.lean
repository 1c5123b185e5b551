import FlipperZero.Cli.Basic

/-! # Editing the line

What the reader of the terminal expects a stream of bytes to enter, and what the command line makes
of it. A byte that is read inside of an escape sequence is dropped, whatever it is.
-/

namespace FlipperZero.Cli

open Lib Mlib

/-- The part of an escape sequence that was received. -/
inductive Pending where
  | plain
  | escape
  | bracket
deriving DecidableEq, Repr

@[ext] structure Editor where
  line : List Char
  pending : Pending
deriving DecidableEq, Repr

def Printable (c : Char) : Prop := 0x20 ≤ c.toNat ∧ c.toNat < 0x7F

instance (c : Char) : Decidable (Printable c) := inferInstanceAs (Decidable (_ ∧ _))

namespace Editor

def empty : Editor := ⟨[], .plain⟩

def next (e : Editor) (c : Char) : Editor :=
  if c = symbolAsciiEOT then empty
  else if e.pending = .bracket then ⟨e.line, .plain⟩
  else if e.pending = .escape ∧ c = '[' then ⟨e.line, .bracket⟩
  else if c = symbolAsciiEsc then ⟨e.line, .escape⟩
  else if c = symbolAsciiCR then empty
  else if c = symbolAsciiBackspace ∨ c = symbolAsciiDel then ⟨e.line.dropLast, .plain⟩
  else if Printable c then ⟨e.line ++ [c], .plain⟩
  else ⟨e.line, .plain⟩

def text (e : Editor) (c : Char) : Option (List Char) :=
  if c = symbolAsciiCR ∧ e.pending ≠ .bracket then some e.line else none

def after : Editor → List Char → Editor := List.foldl next

def texts : Editor → List Char → List (List Char)
  | _, [] => []
  | e, c :: cs => (e.text c).toList ++ texts (e.next c) cs

variable {e : Editor} {c : Char} {cs cs' : List Char}

theorem texts_append : e.texts (cs ++ cs') = e.texts cs ++ (e.after cs).texts cs' := by
  induction cs generalizing e with
  | nil => rfl
  | cons c cs ih =>
    simp only [List.cons_append, texts, ih, List.append_assoc, after, List.foldl_cons]

theorem texts_concat : e.texts (cs ++ [c]) = e.texts cs ++ ((e.after cs).text c).toList := by
  rw [texts_append]
  simp [texts]

theorem after_concat : e.after (cs ++ [c]) = (e.after cs).next c := by
  simp only [after, List.foldl_append, List.foldl_cons, List.foldl_nil]

theorem next_of_ne (hbracket : e.pending ≠ .bracket)
    (hsequence : ¬(e.pending = .escape ∧ c = '[')) (heot : c ≠ symbolAsciiEOT)
    (hesc : c ≠ symbolAsciiEsc) (hcr : c ≠ symbolAsciiCR)
    (hback : ¬(c = symbolAsciiBackspace ∨ c = symbolAsciiDel)) :
    e.next c = if Printable c then ⟨e.line ++ [c], .plain⟩ else ⟨e.line, .plain⟩ := by
  rw [next, if_neg heot, if_neg hbracket, if_neg hsequence, if_neg hesc, if_neg hcr, if_neg hback]

theorem texts_eot :
    e.texts (cs ++ symbolAsciiEOT :: cs') = e.texts cs ++ empty.texts cs' := by
  have hnext : (e.after cs).next symbolAsciiEOT = empty := if_pos rfl
  have htext : (e.after cs).text symbolAsciiEOT = none := if_neg fun h => absurd h.1 (by decide)
  rw [texts_append, texts, hnext, htext]
  rfl

end Editor

/-- A byte that has no effect on the line, or none on an empty line. -/
def Droppable (line : List Char) (c : Char) : Prop :=
  c ≠ symbolAsciiEsc ∧ c ≠ symbolAsciiCR ∧ ¬Printable c ∧
    (c = symbolAsciiEOT ∨ c = symbolAsciiBackspace ∨ c = symbolAsciiDel → line = [])

instance (line : List Char) (c : Char) : Decidable (Droppable line c) :=
  inferInstanceAs (Decidable (_ ∧ _ ∧ _ ∧ (_ → _)))

theorem dropLast_eq_self_iff {line : List Char} : line.dropLast = line ↔ line = [] := by
  constructor
  · intro h
    have hlength := congrArg List.length h
    rw [List.length_dropLast] at hlength
    exact List.eq_nil_of_length_eq_zero (by omega)
  · rintro rfl
    rfl

theorem droppable_iff {line : List Char} {c : Char} (hc : c ≠ '[') :
    (⟨line, .plain⟩ : Editor) = Editor.next ⟨line, .escape⟩ c ∧
      none = Editor.text ⟨line, .escape⟩ c ↔ Droppable line c := by
  have hsequence : ¬(Pending.escape = .escape ∧ c = '[') := fun h => hc h.2
  by_cases heot : c = symbolAsciiEOT
  · subst heot
    constructor
    · rintro ⟨hnext, -⟩
      exact ⟨by decide, by decide, by decide, fun _ => congrArg Editor.line hnext⟩
    · rintro ⟨-, -, -, hline⟩
      exact ⟨congrArg (Editor.mk · .plain) (hline (.inl rfl)), rfl⟩
  by_cases hesc : c = symbolAsciiEsc
  · subst hesc
    refine iff_of_false ?_ fun h => h.1 rfl
    rintro ⟨hnext, -⟩
    cases congrArg Editor.pending hnext
  by_cases hcr : c = symbolAsciiCR
  · subst hcr
    refine iff_of_false ?_ fun h => h.2.1 rfl
    rintro ⟨-, htext⟩
    cases htext
  have htext : Editor.text ⟨line, .escape⟩ c = none := if_neg fun h => hcr h.1
  by_cases hback : c = symbolAsciiBackspace ∨ c = symbolAsciiDel
  · have hnext : Editor.next ⟨line, .escape⟩ c = ⟨line.dropLast, .plain⟩ := by
      rcases hback with rfl | rfl <;> rfl
    have hprintable : ¬Printable c := by rcases hback with rfl | rfl <;> decide
    rw [hnext, htext]
    constructor
    · rintro ⟨hline, -⟩
      exact ⟨hesc, hcr, hprintable, fun _ =>
        dropLast_eq_self_iff.mp (congrArg Editor.line hline).symm⟩
    · rintro ⟨-, -, -, hline⟩
      rw [hline (.inr hback)]
      exact ⟨rfl, rfl⟩
  · have hnext := @Editor.next_of_ne ⟨line, .escape⟩ c (by rintro ⟨⟩) hsequence heot hesc hcr hback
    rw [hnext, htext]
    by_cases hprintable : Printable c
    · rw [if_pos hprintable]
      refine iff_of_false ?_ fun h => h.2.2.1 hprintable
      rintro ⟨hline, -⟩
      have hlength := congrArg (fun e => e.line.length) hline
      simp at hlength
    · rw [if_neg hprintable]
      exact iff_of_true ⟨rfl, rfl⟩
        ⟨hesc, hcr, hprintable, fun h => (h.elim heot hback).elim⟩

variable {T Ref Thread Callback Context : Type}

namespace State

variable (s : State T Ref Thread Callback Context)

/-- The reference editor at the place where the CLI thread is. -/
def editor : Editor :=
  match s.phase with
  | .input => ⟨s.line, .plain⟩
  | .escape => ⟨s.line, .escape⟩
  | .bracket => ⟨s.line, .bracket⟩
  | _ => .empty

/-- The text that `cli_enter` gets when the byte is read. -/
def enters (c : Char) : Option (List Char) :=
  match s.phase with
  | .input => if c = symbolAsciiCR then some s.line else none
  | _ => none

end State

/-- The command line with the bytes it has read and the texts it has entered. -/
structure Session (T Ref Thread Callback Context : Type) where
  cli : State T Ref Thread Callback Context
  received : List Char
  entered : List (List Char)

namespace Session

section Sound

variable (s : Session T Ref Thread Callback Context)

def Exact : Prop := s.entered = Editor.empty.texts s.received

structure Sound : Prop where
  exact : s.Exact
  editor : s.cli.editor = Editor.empty.after s.received

variable {s} {c : Char}

theorem Sound.of_editor {cli : State T Ref Thread Callback Context} (h : s.Sound)
    (heditor : cli.editor = s.cli.editor) :
    ({ s with cli := cli } : Session T Ref Thread Callback Context).Sound :=
  ⟨h.exact, heditor.trans h.editor⟩

theorem Sound.char {cli : State T Ref Thread Callback Context} (h : s.Sound)
    (hc : cli.editor = s.cli.editor.next c ∧ s.cli.enters c = s.cli.editor.text c) :
    (⟨cli, s.received ++ [c], s.entered ++ (s.cli.enters c).toList⟩ :
      Session T Ref Thread Callback Context).Sound := by
  obtain ⟨heditor, hentered⟩ := hc
  have hexact : s.entered = Editor.empty.texts s.received := h.exact
  constructor
  · simp only [Exact, Editor.texts_concat, hexact, hentered, h.editor]
  · simp only [Editor.after_concat, heditor, h.editor]

end Sound

end Session

section Call

variable [DecidableEq Thread]

theorem State.editor_call {s s' : State T Ref Thread Callback Context} {t : Option Thread}
    {c : Call Callback Context} (hs : s.call t c = some s') : s'.editor = s.editor := by
  unfold State.call at hs
  split at hs
  · exact Option.some.inj hs ▸ rfl
  · exact Option.some.inj hs ▸ rfl
  · cases hs

end Call

variable [BPTree T (List Char) (CliCommand Callback Context) Ref]

namespace State

variable {s s' : State T Ref Thread Callback Context} {c : Char}

theorem editor_cliEnter (hphase : s.phase = .input) : s.cliEnter.editor = .empty := by
  simp only [cliEnter]
  split
  · next hline => simp only [editor, hphase, hline, Editor.empty]
  · rfl

theorem editor_processInput (hphase : s.phase = .input) :
    (s.processInput c).editor = s.editor.next c := by
  have heditor : ∀ line, ({ s with line := line } : State T Ref Thread Callback Context).editor =
      ⟨line, .plain⟩ := by
    intro line
    simp only [editor, hphase]
  rw [show s.editor = ⟨s.line, .plain⟩ from heditor s.line]
  rw [processInput]
  by_cases htab : c = symbolAsciiTab
  · rw [if_pos htab]
    exact htab ▸ heditor s.line
  rw [if_neg htab]
  by_cases hsoh : c = symbolAsciiSOH
  · rw [if_pos hsoh]
    exact hsoh ▸ heditor s.line
  rw [if_neg hsoh]
  by_cases heot : c = symbolAsciiEOT
  · rw [if_pos heot]
    exact heot ▸ heditor []
  rw [if_neg heot]
  by_cases hesc : c = symbolAsciiEsc
  · rw [if_pos hesc]
    exact hesc ▸ rfl
  rw [if_neg hesc]
  by_cases hback : c = symbolAsciiBackspace ∨ c = symbolAsciiDel
  · rw [if_pos hback]
    rcases hback with rfl | rfl <;> exact heditor s.line.dropLast
  rw [if_neg hback]
  by_cases hcr : c = symbolAsciiCR
  · rw [if_pos hcr]
    exact hcr ▸ editor_cliEnter hphase
  have hsequence : ¬(Pending.plain = .escape ∧ c = '[') := fun h => by cases h.1
  have hnext :=
    @Editor.next_of_ne ⟨s.line, .plain⟩ c (by rintro ⟨⟩) hsequence heot hesc hcr hback
  rw [if_neg hcr, hnext]
  by_cases hprintable : Printable c
  · rw [if_pos hprintable, if_pos (show 0x20 ≤ c.toNat ∧ c.toNat < 0x7F from hprintable)]
    exact heditor (s.line ++ [c])
  · rw [if_neg hprintable, if_neg (show ¬(0x20 ≤ c.toNat ∧ c.toNat < 0x7F) from hprintable)]
    exact heditor s.line

theorem editor_char (hs : s.char c = some s') (hphase : s.phase = .input) :
    s'.editor = s.editor.next c ∧ s.enters c = s.editor.text c := by
  simp only [char, hphase] at hs
  obtain rfl := Option.some.inj hs
  refine ⟨editor_processInput hphase, ?_⟩
  simp only [enters, editor, hphase, Editor.text]
  simp

theorem editor_escape_iff (hphase : s.phase = .escape) (hs : s.char c = some s') :
    s'.editor = s.editor.next c ∧ s.enters c = s.editor.text c ↔
      c = '[' ∨ Droppable s.line c := by
  simp only [char, hphase] at hs
  obtain rfl := Option.some.inj hs
  have hline : s.editor = ⟨s.line, .escape⟩ := by simp only [editor, hphase]
  have henters : s.enters c = none := by simp only [enters, hphase]
  rw [hline, henters]
  by_cases hc : c = '['
  · subst hc
    exact iff_of_true ⟨rfl, rfl⟩ (.inl rfl)
  · simp only [hc, false_or]
    exact droppable_iff hc

theorem editor_bracket_iff (hphase : s.phase = .bracket) (hs : s.char c = some s') :
    s'.editor = s.editor.next c ∧ s.enters c = s.editor.text c ↔
      (c = symbolAsciiEOT → s.line = []) := by
  simp only [char, hphase] at hs
  obtain rfl := Option.some.inj hs
  have hline : s.editor = ⟨s.line, .bracket⟩ := by simp only [editor, hphase]
  have henters : s.enters c = none := by simp only [enters, hphase]
  have htext : Editor.text ⟨s.line, .bracket⟩ c = none := if_neg fun h => h.2 rfl
  rw [hline, henters, htext]
  by_cases hc : c = symbolAsciiEOT
  · subst hc
    constructor
    · rintro ⟨hempty, -⟩ -
      exact congrArg Editor.line hempty
    · intro hempty
      exact ⟨congrArg (Editor.mk · .plain) (hempty rfl), rfl⟩
  · exact iff_of_true ⟨((if_neg hc).trans (if_pos rfl)).symm, rfl⟩ fun h => absurd h hc

theorem char_eq_none (hinput : s.phase ≠ .input) (hescape : s.phase ≠ .escape)
    (hbracket : s.phase ≠ .bracket) : s.char c = none := by
  unfold char
  split
  · next hphase => exact absurd hphase hinput
  · next hphase => exact absurd hphase hescape
  · next hphase => exact absurd hphase hbracket
  · rfl

variable [DecidableEq Callback] [DecidableEq Context]

theorem editor_enter (hs : s.enter = some s') : s'.editor = s.editor := by
  unfold enter at hs
  split at hs
  · next hphase =>
    split at hs
    · obtain rfl := Option.some.inj hs
      simp only [editor, hphase]
    · cases hs
  · next hphase =>
    obtain rfl := Option.some.inj hs
    simp only [editor, hphase]
  · next hphase =>
    obtain rfl := Option.some.inj hs
    simp only [editor, hphase]
  · next hphase =>
    obtain rfl := Option.some.inj hs
    simp only [editor, finish, hphase, Editor.empty]
  · next hphase =>
    split at hs
    · obtain rfl := Option.some.inj hs
      simp only [editor, hphase]
    · obtain rfl := Option.some.inj hs
      simp only [editor, hphase]
  · next hphase =>
    split at hs
    · obtain rfl := Option.some.inj hs
      simp only [editor, finish, hphase, Editor.empty]
    · cases hs
  · cases hs

variable [DecidableEq Thread]

theorem editor_step {t : Option Thread}
    (hs : s.step t = some s') : s'.editor = s.editor := by
  unfold step at hs
  split at hs
  · cases hs
  · split at hs
    · exact Option.some.inj hs ▸ rfl
    · cases hs
  · exact Option.some.inj hs ▸ rfl
  · exact Option.some.inj hs ▸ rfl
  · next c hc =>
    obtain rfl := Option.some.inj hs
    cases c with
    | addCommand name command => rfl
    | deleteCommand name =>
      simp only [note]
      split <;> rfl

end State

variable [DecidableEq Thread] [DecidableEq Callback] [DecidableEq Context]

namespace Session

variable (s : Session T Ref Thread Callback Context)

/-- Each read waits for a byte, and commands read none. -/
def next : Label Thread Callback Context → Option (Session T Ref Thread Callback Context)
  | .char c =>
    (s.cli.char c).map fun cli => ⟨cli, s.received ++ [c], s.entered ++ (s.cli.enters c).toList⟩
  | .disconnect => none
  | l => (s.cli.next l).map fun cli => { s with cli := cli }

variable (T Ref Thread Callback Context) in
def machine : Machine (Session T Ref Thread Callback Context) (Label Thread Callback Context) where
  init := ⟨(Cli.cli T Ref Thread Callback Context).init, [], []⟩
  next := next

/-- The byte after ESC is the bracket or has no effect, and no disconnect ends a sequence after the
bracket. -/
def Keeps : Label Thread Callback Context → Prop
  | .char c =>
    match s.cli.phase with
    | .escape => c = '[' ∨ Droppable s.cli.line c
    | .bracket => c = symbolAsciiEOT → s.cli.line = []
    | _ => True
  | _ => True

variable {s} {s' : Session T Ref Thread Callback Context} {l : Label Thread Callback Context}
variable {c : Char} {cs : List Char}

theorem Sound.next (h : s.Sound) (hkeeps : s.Keeps l)
    (hs : (machine T Ref Thread Callback Context).next s l = some s') : s'.Sound := by
  simp only [machine, Session.next] at hs
  cases l with
  | char c =>
    obtain ⟨cli, hchar, rfl⟩ := Option.map_eq_some_iff.mp hs
    apply h.char
    cases hphase : s.cli.phase with
    | input => exact State.editor_char hchar hphase
    | escape =>
      simp only [Keeps, hphase] at hkeeps
      exact (State.editor_escape_iff hphase hchar).mpr hkeeps
    | bracket =>
      simp only [Keeps, hphase] at hkeeps
      exact (State.editor_bracket_iff hphase hchar).mpr hkeeps
    | acquire | get | release | call | running | fault =>
      have hnone : s.cli.char c = none := State.char_eq_none (by simp [hphase]) (by simp [hphase])
        (by simp [hphase])
      cases hnone ▸ hchar
  | disconnect => cases hs
  | enter =>
    obtain ⟨cli, hcli, rfl⟩ := Option.map_eq_some_iff.mp hs
    exact h.of_editor (State.editor_enter hcli)
  | call t c =>
    obtain ⟨cli, hcli, rfl⟩ := Option.map_eq_some_iff.mp hs
    exact h.of_editor (State.editor_call hcli)
  | step t =>
    obtain ⟨cli, hcli, rfl⟩ := Option.map_eq_some_iff.mp hs
    exact h.of_editor (State.editor_step hcli)

theorem next_input (hphase : s.cli.phase = .input) (c : Char) :
    (machine T Ref Thread Callback Context).next s (.char c) = some
      ⟨s.cli.processInput c, s.received ++ [c], s.entered ++ (s.cli.editor.text c).toList⟩ := by
  have hchar : s.cli.char c = some (s.cli.processInput c) := by simp only [State.char, hphase]
  have henters := (State.editor_char hchar hphase).2
  simp only [machine, Session.next, hchar, henters, Option.map_some]

theorem exec_input (hphase : s.cli.phase = .input)
    (hcs : cs = [] ∨ cs = [symbolAsciiCR] ∨ cs = ['[', symbolAsciiCR]) :
    ∃ s', (machine T Ref Thread Callback Context).exec s (cs.map .char) = some s' ∧
      s'.received = s.received ++ cs ∧ s'.entered = s.entered ++ s.cli.editor.texts cs := by
  rcases hcs with rfl | rfl | rfl
  · exact ⟨s, rfl, by simp, by simp [Editor.texts]⟩
  · refine ⟨_, (Machine.exec_cons (next_input hphase _)).trans rfl, rfl, ?_⟩
    simp only [Editor.texts, List.append_nil]
  · have hbracket : (s.cli.processInput '[').phase = .input := hphase
    have heditor : (s.cli.processInput '[').editor = s.cli.editor.next '[' :=
      State.editor_processInput hphase
    let t : Session T Ref Thread Callback Context :=
      ⟨s.cli.processInput '[', s.received ++ ['['], s.entered ++ (s.cli.editor.text '[').toList⟩
    have hnext := next_input (s := t) hbracket symbolAsciiCR
    refine ⟨_, (Machine.exec_cons (next_input hphase _)).trans
      ((Machine.exec_cons hnext).trans rfl), ?_, ?_⟩
    · simp [t]
    · simp only [t, Editor.texts, List.append_nil, heditor, List.append_assoc]

theorem exists_texts_ne {line : List Char} {e : Editor} {text : Option (List Char)}
    (hne : ¬((⟨line, .plain⟩ : Editor) = e ∧ none = text)) :
    ∃ cs : List Char, (cs = [] ∨ cs = [symbolAsciiCR] ∨ cs = ['[', symbolAsciiCR]) ∧
      Editor.texts ⟨line, .plain⟩ cs ≠ text.toList ++ e.texts cs := by
  cases text with
  | some text => exact ⟨[], .inl rfl, by simp [Editor.texts]⟩
  | none =>
    obtain ⟨line', pending⟩ := e
    cases pending with
    | plain =>
      refine ⟨[symbolAsciiCR], .inr (.inl rfl), fun heq => ?_⟩
      have hline : line = line' := (List.cons.inj heq).1
      exact hne ⟨congrArg (Editor.mk · .plain) hline, rfl⟩
    | escape => exact ⟨['[', symbolAsciiCR], .inr (.inr rfl), fun heq => by cases heq⟩
    | bracket => exact ⟨[symbolAsciiCR], .inr (.inl rfl), fun heq => by cases heq⟩

/-- What the code makes of a byte inside of a sequence is not what the editor does, so that the two
enter different texts sooner or later. -/
theorem Sound.not_exact {cli : State T Ref Thread Callback Context} (h : s.Sound)
    (hphase : cli.phase = .input) (henters : s.cli.enters c = none)
    (hne : ¬(cli.editor = s.cli.editor.next c ∧ s.cli.enters c = s.cli.editor.text c)) :
    ∃ (cs : List Char) (s' : Session T Ref Thread Callback Context),
      (machine T Ref Thread Callback Context).exec
        ⟨cli, s.received ++ [c], s.entered ++ (s.cli.enters c).toList⟩ (cs.map .char) = some s' ∧
      ¬s'.Exact := by
  have hexact : s.entered = Editor.empty.texts s.received := h.exact
  have heditor : cli.editor = ⟨cli.line, .plain⟩ := by simp only [State.editor, hphase]
  rw [heditor, henters] at hne
  obtain ⟨cs, hcs, htexts⟩ := exists_texts_ne hne
  obtain ⟨s', hexec, hreceived, hentered⟩ := exec_input
    (s := ⟨cli, s.received ++ [c], s.entered ++ (s.cli.enters c).toList⟩) hphase hcs
  refine ⟨cs, s', hexec, fun hs' => htexts ?_⟩
  have htotal : s'.entered = Editor.empty.texts s'.received := hs'
  rw [hentered, hreceived, Editor.texts_append, Editor.texts_concat, henters, hexact,
    Editor.after_concat, ← h.editor, heditor] at htotal
  simpa using htotal

theorem not_exact_of_not_keeps (h : s.Sound) (hkeeps : ¬s.Keeps l)
    (hs : (machine T Ref Thread Callback Context).next s l = some s') :
    ∃ (cs : List Char) (s'' : Session T Ref Thread Callback Context),
      (machine T Ref Thread Callback Context).exec s' (cs.map .char) = some s'' ∧ ¬s''.Exact := by
  cases l with
  | disconnect | enter | call | step => exact absurd trivial hkeeps
  | char c =>
    obtain ⟨cli, hchar, rfl⟩ := Option.map_eq_some_iff.mp hs
    cases hphase : s.cli.phase with
    | escape =>
      have hkeeps' : ¬(c = '[' ∨ Droppable s.cli.line c) := by
        simpa only [Keeps, hphase] using hkeeps
      have hcli : cli.phase = .input := by
        simp only [State.char, hphase] at hchar
        rw [← Option.some.inj hchar]
        exact if_neg fun hc => hkeeps' (.inl hc)
      have henters : s.cli.enters c = none := by simp only [State.enters, hphase]
      exact h.not_exact hcli henters fun hne =>
        hkeeps' ((State.editor_escape_iff hphase hchar).mp hne)
    | bracket =>
      have hkeeps' : ¬(c = symbolAsciiEOT → s.cli.line = []) := by
        simpa only [Keeps, hphase] using hkeeps
      have hcli : cli.phase = .input := by
        simp only [State.char, hphase] at hchar
        rw [← Option.some.inj hchar]
      have henters : s.cli.enters c = none := by simp only [State.enters, hphase]
      exact h.not_exact hcli henters fun hne =>
        hkeeps' ((State.editor_bracket_iff hphase hchar).mp hne)
    | input | acquire | get | release | call | running | fault =>
      exact absurd trivial (by simpa only [Keeps, hphase] using hkeeps)

theorem sound_init : (machine T Ref Thread Callback Context).init.Sound := ⟨rfl, rfl⟩

end Session

/-- In every run whose dropped bytes have no effect each text that is entered is the one of the
reference editor, so that nothing from before a disconnect is entered after it. After any other byte
of such a run there is a text that differs, if not at once then after the bytes that are given. -/
theorem cli_line_editing {s : Session T Ref Thread Callback Context}
    (hreach : (Session.machine T Ref Thread Callback Context).ReachableWith Session.Keeps s) :
    s.Exact ∧
      (∀ before after, s.received = before ++ symbolAsciiEOT :: after →
        s.entered = Editor.empty.texts before ++ Editor.empty.texts after) ∧
      ∀ l s', (Session.machine T Ref Thread Callback Context).next s l = some s' → ¬s.Keeps l →
        ∃ (cs : List Char) (s'' : Session T Ref Thread Callback Context),
          (Session.machine T Ref Thread Callback Context).exec s' (cs.map .char) = some s'' ∧
            ¬s''.Exact := by
  have hsound : s.Sound := hreach.invariant (P := Session.Sound) Session.sound_init
    fun _ _ _ h hkeeps hs => h.next hkeeps hs
  have hexact : s.entered = Editor.empty.texts s.received := hsound.exact
  refine ⟨hexact, ?_, fun l s' hs hkeeps => Session.not_exact_of_not_keeps hsound hkeeps hs⟩
  rintro before after hreceived
  rw [hexact, hreceived, Editor.texts_eot]

section Runs

abbrev leafSession : Machine (Session (Leaf (List Char) (CliCommand ℕ ℕ)) ℕ Unit ℕ ℕ)
    (Label Unit ℕ ℕ) :=
  Session.machine (Leaf (List Char) (CliCommand ℕ ℕ)) ℕ Unit ℕ ℕ

/-- A line is left unfinished, and an arrow key is pressed in the next session. -/
theorem cli_line_editing_isolated :
    ∃ s, leafSession.ReachableWith Session.Keeps s ∧
      s.received = ['a', symbolAsciiEOT, symbolAsciiSOH, symbolAsciiEsc, '[', 'A', symbolAsciiCR] ∧
      s.entered = [[]] ∧ s.Exact := by
  have ha : leafSession.ReachableWith Session.Keeps _ :=
    Machine.ReachableWith.init.step (l := .char 'a') (by trivial) rfl
  have heot := ha.step (l := .char symbolAsciiEOT) (by trivial) rfl
  have hsoh := heot.step (l := .char symbolAsciiSOH) (by trivial) rfl
  have hesc := hsoh.step (l := .char symbolAsciiEsc) (by trivial) rfl
  have hbracket := hesc.step (l := .char '[') (by exact Or.inl rfl) rfl
  have harrow := hbracket.step (l := .char 'A') (by rintro ⟨⟩) rfl
  have hcr := harrow.step (l := .char symbolAsciiCR) (by trivial) rfl
  exact ⟨_, hcr, rfl, rfl, (cli_line_editing hcr).1⟩

/-- The disconnect comes after ESC, and the line of the old session is entered in the new one. -/
theorem cli_line_editing_dropped : ¬∀ s, leafSession.Reachable s → s.Exact := by
  intro h
  have hrun : ∃ s, leafSession.exec leafSession.init (List.map Label.char
      ['a', symbolAsciiEsc, symbolAsciiEOT, symbolAsciiSOH, symbolAsciiCR]) = some s ∧
      s.entered = [['a']] ∧ Editor.empty.texts s.received = [[]] := ⟨_, rfl, rfl, rfl⟩
  obtain ⟨s, hs, hentered, htexts⟩ := hrun
  have hexact : s.entered = Editor.empty.texts s.received := h s (Machine.exec_reachable .init hs)
  rw [hentered, htexts] at hexact
  cases hexact

end Runs

end FlipperZero.Cli
