import FlipperZero.Lib.Machine
import FlipperZero.Mlib.BPTree
import Mathlib.Logic.Function.Basic

/-! # The command line interface

The CLI thread reads characters into a line and runs the command that the first word of the
line names. Any thread adds and deletes commands, the callback of a command among them. Each
access to the command tree is one step, so every interleaving is a run of the machine below.
-/

namespace FlipperZero.Cli

open Lib Mlib

structure CliCommand (Callback Context : Type) where
  callback : Callback
  context : Context
deriving DecidableEq, Repr

def symbolAsciiSOH : Char := Char.ofNat 0x01
def symbolAsciiEOT : Char := Char.ofNat 0x04
def symbolAsciiBackspace : Char := Char.ofNat 0x08
def symbolAsciiTab : Char := Char.ofNat 0x09
def symbolAsciiCR : Char := Char.ofNat 0x0D
def symbolAsciiEsc : Char := Char.ofNat 0x1B
def symbolAsciiDel : Char := Char.ofNat 0x7F

/-- The characters that `string_strim` removes at both ends. -/
def isSpace (c : Char) : Bool := c = ' ' || c = '\n' || c = '\r' || c = '\t'

def stringStrim (s : List Char) : List Char :=
  ((s.dropWhile isSpace).reverse.dropWhile isSpace).reverse

/-- `string_replace_str` of one space by an underscore; `none` stands for `STRING_FAILURE`. -/
def stringReplaceStr : List Char → Option (List Char)
  | [] => none
  | c :: cs => if c = ' ' then some ('_' :: cs) else (stringReplaceStr cs).map (c :: ·)

/-- The loop that replaces spaces until none is left, for at most `n` of them. -/
def nameReplace : ℕ → List Char → List Char
  | 0, s => s
  | n + 1, s =>
    match stringReplaceStr s with
    | some s' => nameReplace n s'
    | none => s

def commandKey (name : List Char) : List Char :=
  nameReplace (stringStrim name).length (stringStrim name)

def splitLine (line : List Char) : List Char × List Char :=
  match line.findIdx? (· = ' ') with
  | none => (line, [])
  | some ws => (line.take ws, stringStrim (line.drop ws))

variable {T Ref Thread Callback Context : Type}

inductive Call (Callback Context : Type) where
  | addCommand (name : List Char) (command : CliCommand Callback Context)
  | deleteCommand (name : List Char)
deriving DecidableEq, Repr

/-- Where a thread is inside `cli_add_command` or `cli_delete_command`. -/
inductive Pc (Callback Context : Type) where
  | idle
  | acquire (c : Call Callback Context)
  | change (c : Call Callback Context)
  | release (c : Call Callback Context)
  | return (c : Call Callback Context)
deriving DecidableEq, Repr

/-- Where the CLI thread is: reading input, or inside `cli_enter` with its local variables. -/
inductive Phase (Ref Callback Context : Type) where
  | input
  | escape
  | bracket
  | acquire (command : List Char)
  | get (command : List Char)
  | release (command : List Char) (ref : Option Ref)
  | call (command : List Char) (ref : Option Ref)
  | running (command : List Char) (cmd : CliCommand Callback Context)
  | fault
deriving DecidableEq, Repr

structure LineRecord (Callback Context : Type) where
  text : List Char
  /-- The command that has been registered under the first word since the line was entered. -/
  registered : Option (CliCommand Callback Context)
  /-- The callbacks run for the line, with their arguments. -/
  ran : List (CliCommand Callback Context × List Char)
deriving DecidableEq, Repr

structure State (T Ref Thread Callback Context : Type) where
  commands : T
  /-- The thread that holds the mutex; `none` stands for the CLI thread. -/
  mutex : Option (Option Thread)
  line : List Char
  phase : Phase Ref Callback Context
  pc : Option Thread → Pc Callback Context
  /-- The keys of which a deletion has returned and no addition came since. -/
  deleted : List (List Char)
  current : Option (LineRecord Callback Context)
  processed : List (LineRecord Callback Context)

inductive Label (Thread Callback Context : Type) where
  | char (c : Char)
  /-- `api_hal_vcp_rx` receives nothing. -/
  | disconnect
  /-- The next step of the CLI thread inside `cli_enter`. -/
  | enter
  | call (t : Option Thread) (c : Call Callback Context)
  | step (t : Option Thread)
deriving DecidableEq, Repr

variable [DecidableEq Thread] [DecidableEq Callback] [DecidableEq Context]
variable [BPTree T (List Char) (CliCommand Callback Context) Ref]

def Call.key : Call Callback Context → List Char
  | .addCommand name _ => commandKey name
  | .deleteCommand name => commandKey name

def Call.change (t : T) : Call Callback Context → T
  | .addCommand name command => BPTree.setAt t (commandKey name) command
  | .deleteCommand name => BPTree.erase t (commandKey name)

namespace LineRecord

def command (r : LineRecord Callback Context) : List Char := (splitLine r.text).1

def args (r : LineRecord Callback Context) : List Char := (splitLine r.text).2

/-- A changed tree keeps the command registered when it is still the same. -/
def see (t : T) (r : LineRecord Callback Context) : LineRecord Callback Context :=
  { r with
    registered := if BPTree.lookup t r.command = r.registered then r.registered else none }

end LineRecord

namespace State

variable (s : State T Ref Thread Callback Context)

def resetState : State T Ref Thread Callback Context := { s with line := [] }

/-- `cli_enter` up to the search for the command. -/
def cliEnter : State T Ref Thread Callback Context :=
  let line := stringStrim s.line
  if line = [] then { s with line := line }
  else
    { s with
      line := (splitLine line).2
      phase := .acquire (splitLine line).1
      current := some
        { text := line, registered := BPTree.lookup s.commands (splitLine line).1, ran := [] } }

def processInput (c : Char) : State T Ref Thread Callback Context :=
  if c = symbolAsciiTab then s
  else if c = symbolAsciiSOH then s
  else if c = symbolAsciiEOT then s.resetState
  else if c = symbolAsciiEsc then { s with phase := .escape }
  else if c = symbolAsciiBackspace ∨ c = symbolAsciiDel then { s with line := s.line.dropLast }
  else if c = symbolAsciiCR then s.cliEnter
  else if 0x20 ≤ c.toNat ∧ c.toNat < 0x7F then { s with line := s.line ++ [c] }
  else s

def char (c : Char) : Option (State T Ref Thread Callback Context) :=
  match s.phase with
  | .input => some (s.processInput c)
  | .escape => some { s with phase := if c = '[' then .bracket else .input }
  | .bracket => some { s with phase := .input }
  | _ => none

def disconnect : Option (State T Ref Thread Callback Context) :=
  match s.phase with
  | .input | .running _ _ => some s.resetState
  | .escape | .bracket => some { s with phase := .input }
  | _ => none

/-- The end of `cli_enter`. -/
def finish : State T Ref Thread Callback Context :=
  { s with
    line := [], phase := .input, current := none
    processed := s.current.toList ++ s.processed }

def enter : Option (State T Ref Thread Callback Context) :=
  match s.phase with
  | .acquire command =>
    if s.mutex = none then some { s with mutex := some none, phase := .get command } else none
  | .get command =>
    some { s with phase := .release command (BPTree.get s.commands command) }
  | .release command ref => some { s with mutex := none, phase := .call command ref }
  | .call _ none => some s.finish
  | .call command (some ref) =>
    match BPTree.read s.commands ref with
    | some cmd =>
      some { s with
        phase := .running command cmd
        current := s.current.map fun r => { r with ran := (cmd, s.line) :: r.ran } }
    | none => some { s with phase := .fault }
  | .running _ _ => if s.pc none = .idle then some s.finish else none
  | _ => none

/-- A thread calls one of the two functions; the CLI thread does so inside a callback. -/
def call (t : Option Thread) (c : Call Callback Context) :
    Option (State T Ref Thread Callback Context) :=
  match s.pc t, t, s.phase with
  | .idle, some _, _ | .idle, none, .running _ _ =>
    some { s with pc := Function.update s.pc t (.acquire c) }
  | _, _, _ => none

def change (c : Call Callback Context) : State T Ref Thread Callback Context :=
  { s with
    commands := c.change s.commands
    current := s.current.map (·.see (c.change s.commands))
    deleted :=
      match c with
      | .addCommand name _ => s.deleted.filter (· ≠ commandKey name)
      | .deleteCommand _ => s.deleted }

def note (c : Call Callback Context) : State T Ref Thread Callback Context :=
  match c with
  | .addCommand _ _ => s
  | .deleteCommand name =>
    if BPTree.lookup s.commands (commandKey name) = none then
      { s with deleted := commandKey name :: s.deleted }
    else s

def step (t : Option Thread) : Option (State T Ref Thread Callback Context) :=
  match s.pc t with
  | .idle => none
  | .acquire c =>
    if s.mutex = none then
      some { s with mutex := some t, pc := Function.update s.pc t (.change c) }
    else none
  | .change c => some { s.change c with pc := Function.update s.pc t (.release c) }
  | .release c => some { s with mutex := none, pc := Function.update s.pc t (.return c) }
  | .return c => some { s.note c with pc := Function.update s.pc t .idle }

end State

def State.next (s : State T Ref Thread Callback Context) :
    Label Thread Callback Context → Option (State T Ref Thread Callback Context)
  | .char c => s.char c
  | .disconnect => s.disconnect
  | .enter => s.enter
  | .call t c => s.call t c
  | .step t => s.step t

variable (T Ref Thread Callback Context) in
def cli : Machine (State T Ref Thread Callback Context) (Label Thread Callback Context) where
  init :=
    { commands := BPTree.init, mutex := none, line := [], phase := .input, pc := fun _ => .idle
      deleted := [], current := none, processed := [] }
  next := State.next

end FlipperZero.Cli
